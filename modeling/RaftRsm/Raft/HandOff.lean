/-
  File:      RaftRsm/Raft/HandOff.lean
  Subject:   THE HAND-OFF TO THE APPLY THREAD: lossless, ordered and exactly once, whatever the sink
             accepts and refuses.

  A call does things that have nothing to do with the hand-off, enters `applyCommitted` at most once,
  and does such things again; what it does before and after does not depend on the sink, nor on what
  has been handed over so far. So all there is to know about the hand-off is in the loop of
  `applyCommitted`, and a run whose entries are applied inline looks like the run with the sink.

  * `bare s` -- the core without what `applyCommitted` writes;
  * `Quiet p` -- `p` hands nothing over, and does the same whatever was handed over before;
  * `Paired K K' p p'`, `paired_step` -- one call with two sinks, side by side;
  * `Takes K s t` -- what was handed over between `s` and `t`, with its indices, and that it was
    accepted;
  * `Consults` -- the call asks the sink about a pair;
  * `inlineSystem`, `shadows_inline` -- the cluster that applies inline, and that it looks the same;
  * `handOff_exactly_once` -- the hand-off in every run.
-/
import RaftRsm.Raft.Batching
import RaftRsm.Raft.AppliedLog
import RaftRsm.Raft.Safety
import RaftRsm.Process.Stutter

namespace Rsm.Raft

open Rsm.Rpc Rsm.Storage Process

/-- What the runtime hands committed entries to. -/
abbrev Sink := ℕ → LogEntry → Bool

/-- The same surroundings with another sink. -/
def Ctx.withSink (K : Ctx) (k : Option Sink) : Ctx := { K with applySink := k }

variable {α β : Type} {K K' : Ctx} {k : Option Sink} {s t u : RaftCore}

/-! ## 1. Quiet programs -/

/-- **Nothing is handed over** on the way from `s` to `t`, and nothing more is due. -/
structure Idles (s t : RaftCore) : Prop where
  sm : t.sm = s.sm
  lastApplied : t.lastApplied = s.lastApplied
  commitIndex : t.commitIndex = s.commitIndex
  out : ∃ o, t.out = s.out ++ o ∧ applied o = []

theorem Idles.refl (s : RaftCore) : Idles s s := ⟨rfl, rfl, rfl, [], (List.append_nil _).symm, rfl⟩

theorem Idles.trans (h : Idles s t) (h' : Idles t u) : Idles s u := by
  obtain ⟨o, ho, hn⟩ := h.out
  obtain ⟨o', ho', hn'⟩ := h'.out
  refine ⟨h'.sm.trans h.sm, h'.lastApplied.trans h.lastApplied, h'.commitIndex.trans h.commitIndex,
    o ++ o', ?_, ?_⟩
  · rw [ho', ho, List.append_assoc]
  · rw [applied_append, hn, hn']
    rfl

theorem idles_getLastD {A : List RaftCore} (h : ∀ t ∈ A, Idles s t) : Idles s (A.getLastD s) := by
  rcases List.eq_nil_or_concat A with rfl | ⟨B, t, rfl⟩
  · exact Idles.refl s
  · rw [List.concat_eq_append, getLastD_append]
    exact h t (by simp)

/-- A line that `applyCommitted` may write. -/
def Output.ofApply : Output → Bool
  | .apply _ _ => true
  | .entryAtOutOfRange _ => true
  | _ => false

/-- **The core without what `applyCommitted` writes.** -/
def bare (s : RaftCore) : RaftCore :=
  { s with sm := [], lastApplied := 0, out := s.out.filter fun o => !o.ofApply }

/-- **A program that hands nothing over**, and does the same whatever was handed over before. -/
structure Quiet (p : RaftM α) : Prop where
  idles : ∀ s, ∀ t ∈ p.moments s, Idles s t
  value : ∀ s, p.value (bare s) = p.value s
  moments : ∀ s, p.moments (bare s) = (p.moments s).map bare

theorem getLastD_map {σ τ : Type} (f : σ → τ) (l : List σ) (s : σ) :
    (l.map f).getLastD (f s) = f (l.getLastD s) := by
  rw [List.getLastD_eq_getLast?, List.getLastD_eq_getLast?, List.getLast?_map]
  exact Option.getD_map f s _

section Quiet

variable {p : RaftM α} {f : α → RaftM β}

theorem Quiet.final (h : Quiet p) (s : RaftCore) : Idles s (p.final s) := idles_getLastD (h.idles s)

theorem Quiet.final_bare (h : Quiet p) (s : RaftCore) : p.final (bare s) = bare (p.final s) := by
  unfold Prog.final
  rw [h.moments, getLastD_map]

/-- From cores that differ in the hand-off alone it does the same. -/
theorem Quiet.alike (h : Quiet p) (hst : bare t = bare s) : p.value t = p.value s ∧
    (p.moments t).map bare = (p.moments s).map bare ∧ bare (p.final t) = bare (p.final s) := by
  refine ⟨?_, ?_, ?_⟩
  · rw [← h.value t, hst, h.value]
  · rw [← h.moments t, hst, h.moments]
  · rw [← h.final_bare t, hst, h.final_bare]

theorem quiet_pure (v : α) : Quiet (pure v : RaftM α) :=
  ⟨fun _ _ h => (List.not_mem_nil h).elim, fun _ => rfl, fun _ => rfl⟩

theorem quiet_bind (hp : Quiet p) (hf : ∀ v, Quiet (f v)) : Quiet (p >>= f) := by
  refine ⟨fun s t ht => ?_, fun s => ?_, fun s => ?_⟩
  · rw [Prog.moments_bind] at ht
    rcases List.mem_append.mp ht with ht | ht
    · exact hp.idles s t ht
    · exact (hp.final s).trans ((hf _).idles _ t ht)
  · rw [Prog.value_bind, Prog.value_bind, hp.value, hp.final_bare, (hf _).value]
  · rw [Prog.moments_bind, Prog.moments_bind, hp.value, hp.final_bare, hp.moments, (hf _).moments,
      List.map_append]

/-- What is read may only be used as far as the hand-off does not show. -/
theorem quiet_read {f : RaftCore → RaftM β} (hb : ∀ s, f (bare s) = f s) (hf : ∀ s, Quiet (f s)) :
    Quiet (Prog.read >>= f) := by
  refine ⟨fun s => (hf s).idles s, fun s => ?_, fun s => ?_⟩
  · show (f (bare s)).value (bare s) = (f s).value s
    rw [hb, (hf s).value]
  · show (f (bare s)).moments (bare s) = ((f s).moments s).map bare
    rw [hb, (hf s).moments]

theorem quiet_write {f : RaftCore → RaftCore} (h : ∀ s, Idles s (f s))
    (hb : ∀ s, f (bare s) = bare (f s)) : Quiet (Prog.write f : RaftM Unit) := by
  refine ⟨fun s t ht => ?_, fun _ => rfl, fun s => ?_⟩
  · rw [Prog.moments_write] at ht
    rw [List.mem_singleton.mp ht]
    exact h s
  · rw [Prog.moments_write, Prog.moments_write, hb]
    rfl

/-- A write that touches neither the hand-off nor the history. -/
theorem quiet_set {f : RaftCore → RaftCore} (hsm : ∀ s, (f s).sm = s.sm)
    (hla : ∀ s, (f s).lastApplied = s.lastApplied) (hci : ∀ s, (f s).commitIndex = s.commitIndex)
    (hout : ∀ s, (f s).out = s.out) (hb : ∀ s, f (bare s) = bare (f s)) :
    Quiet (Prog.write f : RaftM Unit) :=
  quiet_write (fun s => ⟨hsm s, hla s, hci s, [], by rw [hout, List.append_nil], rfl⟩) hb

theorem quiet_ite {c : Prop} [Decidable c] {p q : RaftM α} (hp : Quiet p) (hq : Quiet q) :
    Quiet (if c then p else q) := by
  split
  · exact hp
  · exact hq

theorem quiet_when {c : Prop} [Decidable c] {p : RaftM Unit} (hp : Quiet p) : Quiet (Prog.when c p) :=
  quiet_ite hp (quiet_pure ())

theorem quiet_forM {ι : Type} {f : ι → RaftM PUnit} (hf : ∀ i, Quiet (f i)) :
    ∀ l : List ι, Quiet (l.forM f)
  | [] => quiet_pure _
  | i :: l => quiet_bind (hf i) fun _ => quiet_forM hf l

end Quiet

/-! ## 2. Everything but `applyCommitted` is quiet -/

theorem bare_line {o : Output} (ho : o.ofApply = false) (s : RaftCore) :
    { bare s with out := (bare s).out ++ [o] } = bare { s with out := s.out ++ [o] } := by
  simp only [bare, List.filter_append, List.filter_cons, ho, Bool.not_false, if_true, List.filter_nil]

/-- A line that is not of `applyCommitted`. -/
theorem quiet_emit {o : Output} (ho : o.ofApply = false) : Quiet (emit o) := by
  refine quiet_write (fun _ => ⟨rfl, rfl, rfl, [o], rfl, ?_⟩) (bare_line ho)
  cases o with
  | apply => cases ho
  | _ => rfl

theorem quiet_transition (ev : TransitionEvent) : Quiet (transition ev) :=
  quiet_read (fun _ => rfl) fun _ => quiet_emit rfl

theorem quiet_termAt (i : ℕ) : Quiet (termAt i) :=
  quiet_read (fun _ => rfl) fun _ => quiet_bind (quiet_when (quiet_emit rfl)) fun _ => quiet_pure _

theorem quiet_persist (T : ℕ) (v : Option NodeId) : Quiet (persistTermAndVote T v) :=
  quiet_set (fun _ => rfl) (fun _ => rfl) (fun _ => rfl) (fun _ => rfl) fun _ => rfl

theorem quiet_pushBack (e : LogEntry) : Quiet (pushBack e) :=
  quiet_set (fun _ => rfl) (fun _ => rfl) (fun _ => rfl) (fun _ => rfl) fun _ => rfl

theorem quiet_append (es : List LogEntry) : Quiet (append es) := quiet_forM quiet_pushBack es

theorem quiet_truncate (i : ℕ) : Quiet (truncateSuffixFrom i) :=
  quiet_set (fun _ => rfl) (fun _ => rfl) (fun _ => rfl) (fun _ => rfl) fun _ => rfl

theorem quiet_resetElectionTimer : Quiet (resetElectionTimer K) :=
  quiet_set (fun _ => rfl) (fun _ => rfl) (fun _ => rfl) (fun _ => rfl) fun _ => rfl

theorem quiet_armHeartbeat : Quiet (armHeartbeat K) :=
  quiet_set (fun _ => rfl) (fun _ => rfl) (fun _ => rfl) (fun _ => rfl) fun _ => rfl

theorem quiet_sendAppendEntries (p : NodeId) : Quiet (sendAppendEntries K p) :=
  quiet_read (fun _ => rfl) fun _ => quiet_bind (quiet_termAt _) fun _ => quiet_emit rfl

theorem quiet_sendHeartbeats : Quiet (sendHeartbeats K) :=
  quiet_bind (quiet_forM quiet_sendAppendEntries _) fun _ => quiet_armHeartbeat

theorem quiet_becomeFollower (T : ℕ) (ev : TransitionEvent) : Quiet (becomeFollower K T ev) := by
  refine quiet_read (fun _ => rfl) fun _ => quiet_bind (quiet_when ?_) fun _ => ?_
  · refine quiet_bind (quiet_persist _ _) fun _ => ?_
    exact quiet_set (fun _ => rfl) (fun _ => rfl) (fun _ => rfl) (fun _ => rfl) fun _ => rfl
  · refine quiet_read (fun _ => rfl) fun _ => quiet_bind (quiet_when ?_) fun _ => ?_
    · refine quiet_bind ?_ fun _ => quiet_resetElectionTimer
      exact quiet_set (fun _ => rfl) (fun _ => rfl) (fun _ => rfl) (fun _ => rfl) fun _ => rfl
    · refine quiet_bind ?_ fun _ => quiet_transition ev
      exact quiet_set (fun _ => rfl) (fun _ => rfl) (fun _ => rfl) (fun _ => rfl) fun _ => rfl

theorem quiet_becomeLeader : Quiet (becomeLeader K) := by
  refine quiet_bind (quiet_write (fun _ => ⟨rfl, rfl, rfl, _, rfl, rfl⟩) fun s => ?_) fun _ =>
    quiet_sendHeartbeats
  simp only [bare, List.filter_append]
  rfl

theorem quiet_startElection : Quiet (startElection K) := by
  refine quiet_read (fun _ => rfl) fun _ => quiet_bind (quiet_persist _ _) fun _ => ?_
  refine quiet_bind ?_ fun _ => ?_
  · exact quiet_set (fun _ => rfl) (fun _ => rfl) (fun _ => rfl) (fun _ => rfl) fun _ => rfl
  refine quiet_bind quiet_resetElectionTimer fun _ => quiet_bind (quiet_transition _) fun _ => ?_
  refine quiet_read (fun _ => rfl) fun _ => ?_
  refine quiet_bind (quiet_forM (fun _ => quiet_emit rfl) _) fun _ => quiet_read (fun _ => rfl) fun _ => ?_
  exact quiet_when quiet_becomeLeader

theorem quiet_tick : Quiet (tick K) :=
  quiet_read (fun _ => rfl) fun _ => quiet_ite quiet_startElection (quiet_when quiet_sendHeartbeats)

theorem quiet_onRequestVote (p : NodeId) (rv : RequestVote) : Quiet (onRequestVote K p rv) := by
  refine quiet_read (fun _ => rfl) fun _ => quiet_ite (quiet_emit rfl) ?_
  refine quiet_bind (quiet_when ?_) fun _ => quiet_emit rfl
  exact quiet_bind (quiet_persist _ _) fun _ => quiet_resetElectionTimer

theorem quiet_onRequestVoteReply (p : NodeId) (r : RequestVoteReply) :
    Quiet (onRequestVoteReply K p r) := by
  refine quiet_read (fun _ => rfl) fun _ => quiet_when (quiet_bind ?_ fun _ => ?_)
  · exact quiet_set (fun _ => rfl) (fun _ => rfl) (fun _ => rfl) (fun _ => rfl) fun _ => rfl
  · exact quiet_read (fun _ => rfl) fun _ => quiet_when quiet_becomeLeader

theorem quiet_firstOfTerm (c : ℕ) : ∀ i, Quiet (firstOfTerm c i)
  | 0 => quiet_pure 0
  | 1 => quiet_pure 1
  | i + 2 => quiet_bind (quiet_termAt _) fun _ => quiet_ite (quiet_firstOfTerm c (i + 1)) (quiet_pure _)

theorem quiet_lastOfTerm (c : ℕ) : ∀ i, Quiet (lastOfTerm c i)
  | 0 => quiet_pure 0
  | i + 1 => quiet_bind (quiet_termAt _) fun _ => quiet_ite (quiet_pure _) (quiet_lastOfTerm c i)

theorem quiet_hintedNext (r : AppendEntriesReply) : Quiet (hintedNext r) :=
  quiet_ite (quiet_pure _) (quiet_read (fun _ => rfl) fun _ =>
    quiet_bind (quiet_lastOfTerm _ _) fun _ => quiet_pure _)

theorem quiet_resolveConflicts : ∀ (es : List LogEntry) (i : ℕ), Quiet (resolveConflicts i es)
  | [], _ => quiet_pure _
  | e :: es, i => by
      refine quiet_read (fun _ => rfl) fun _ => quiet_ite (quiet_pure _) ?_
      refine quiet_bind (quiet_termAt _) fun _ => quiet_ite ?_ (quiet_resolveConflicts es (i + 1))
      refine quiet_bind (quiet_when (quiet_emit rfl)) fun _ => ?_
      exact quiet_bind (quiet_truncate i) fun _ => quiet_pure _

theorem quiet_liftTerm (m : Message) : Quiet (liftTerm K m) := by
  refine quiet_read (fun _ => rfl) fun _ => ?_
  cases termOf m with
  | none => exact quiet_pure ()
  | some T => exact quiet_when (quiet_becomeFollower _ _)

/-! ## 3. One call with two sinks -/

/-- The commit index is set, or nothing happens. -/
def raise : Option ℕ → RaftM Unit
  | none => pure ()
  | some c => Prog.write fun s => { s with commitIndex := c }

/-- `r`, then `applyCommitted` after the commit index has been set, then `q`. -/
def via (K : Ctx) (r : RaftM Unit) (g : Option ℕ) (q : RaftM α) : RaftM α :=
  r >>= fun _ => raise g >>= fun _ => applyCommitted K >>= fun _ => q

/-- **The programs `p` and `p'` do the same**, from cores that differ in the hand-off alone, but for
    one `applyCommitted` at the same place, in the surroundings `K` and `K'`. -/
def Paired (K K' : Ctx) (p p' : RaftM α) : Prop := ∀ s,
  (∃ r : RaftM α, Quiet r ∧ ∀ t, bare t = bare s → p t = r t ∧ p' t = r t) ∨
  ∃ (r : RaftM Unit) (g : Option ℕ) (q : RaftM α), Quiet r ∧ Quiet q ∧
    ∀ t, bare t = bare s → p t = via K r g q t ∧ p' t = via K' r g q t

section Paired

variable {p p' : RaftM α} {f f' : α → RaftM β}

theorem paired_quiet (h : Quiet p) : Paired K K' p p :=
  fun _ => .inl ⟨p, h, fun _ _ => ⟨rfl, rfl⟩⟩

theorem paired_raise (g : Option ℕ) : Paired K K' (raise g >>= fun _ => applyCommitted K)
    (raise g >>= fun _ => applyCommitted K') := by
  have hvia : ∀ K : Ctx, (raise g >>= fun _ => applyCommitted K) = via K (pure ()) g (pure ()) := by
    intro K
    unfold via
    rw [pure_bind]
    simp only [bind_pure_unit]
  exact fun _ => .inr ⟨pure (), g, pure (), quiet_pure (), quiet_pure (), fun t _ =>
    ⟨congrFun (hvia K) t, congrFun (hvia K') t⟩⟩

theorem paired_bind (hp : Quiet p) (hf : ∀ v, Paired K K' (f v) (f' v)) :
    Paired K K' (p >>= f) (p >>= f') := by
  intro s
  -- what follows starts from cores that look alike, with the same value
  have hat : ∀ {t}, bare t = bare s → p.value t = p.value s ∧ bare (p.final t) = bare (p.final s) :=
    fun ht => ⟨(hp.alike ht).1, (hp.alike ht).2.2⟩
  rcases hf (p.value s) (p.final s) with ⟨r, hr, h⟩ | ⟨r, g, q, hr, hq, h⟩
  · refine .inl ⟨p >>= fun _ => r, quiet_bind hp fun _ => hr, fun t ht => ?_⟩
    obtain ⟨hv, hb⟩ := hat ht
    refine ⟨Prog.bind_at ?_, Prog.bind_at ?_⟩ <;> rw [hv]
    · exact (h _ hb).1
    · exact (h _ hb).2
  · refine .inr ⟨p >>= fun _ => r, g, q, quiet_bind hp fun _ => hr, hq, fun t ht => ?_⟩
    obtain ⟨hv, hb⟩ := hat ht
    unfold via
    rw [bind_assoc, bind_assoc]
    refine ⟨Prog.bind_at ?_, Prog.bind_at ?_⟩ <;> rw [hv]
    · exact (h _ hb).1
    · exact (h _ hb).2

theorem paired_read {f f' : RaftCore → RaftM β} (hb : ∀ s, f (bare s) = f s)
    (hb' : ∀ s, f' (bare s) = f' s) (hf : ∀ s, Paired K K' (f s) (f' s)) :
    Paired K K' (Prog.read >>= f) (Prog.read >>= f') := by
  intro s
  have hat : ∀ {t}, bare t = bare s → f t = f s ∧ f' t = f' s := fun ht => by
    rw [← hb, ← hb', ht, hb, hb']
    exact ⟨rfl, rfl⟩
  rcases hf s s with ⟨r, hr, h⟩ | ⟨r, g, q, hr, hq, h⟩
  · refine .inl ⟨r, hr, fun t ht => ?_⟩
    show f t t = r t ∧ f' t t = r t
    rw [(hat ht).1, (hat ht).2]
    exact h t ht
  · refine .inr ⟨r, g, q, hr, hq, fun t ht => ?_⟩
    show f t t = _ ∧ f' t t = _
    rw [(hat ht).1, (hat ht).2]
    exact h t ht

theorem paired_ite {c : Prop} [Decidable c] {p p' q q' : RaftM α} (hp : Paired K K' p p')
    (hq : Paired K K' q q') : Paired K K' (if c then p else q) (if c then p' else q') := by
  by_cases hc : c
  · rw [if_pos hc, if_pos hc]
    exact hp
  · rw [if_neg hc, if_neg hc]
    exact hq

theorem paired_when {c : Prop} [Decidable c] {p p' : RaftM Unit} (hp : Paired K K' p p') :
    Paired K K' (Prog.when c p) (Prog.when c p') := paired_ite hp (paired_quiet (quiet_pure ()))

/-- Something quiet may follow. -/
theorem paired_then (hp : Paired K K' p p') (hf : ∀ v, Quiet (f v)) :
    Paired K K' (p >>= f) (p' >>= f) := by
  intro s
  rcases hp s with ⟨r, hr, h⟩ | ⟨r, g, q, hr, hq, h⟩
  · exact .inl ⟨r >>= f, quiet_bind hr hf, fun t ht => ⟨Prog.bind_from f (h t ht).1, Prog.bind_from f (h t ht).2⟩⟩
  · refine .inr ⟨r, g, q >>= f, hr, quiet_bind hq hf, fun t ht => ?_⟩
    have hvia : ∀ K : Ctx, via K r g q >>= f = via K r g (q >>= f) := by
      intro K
      unfold via
      simp only [bind_assoc]
    rw [← hvia, ← hvia]
    exact ⟨Prog.bind_from f (h t ht).1, Prog.bind_from f (h t ht).2⟩

end Paired

section Calls

variable (K) (k)

theorem paired_commitScan : ∀ n, Paired K (K.withSink k) (commitScan K n) (commitScan (K.withSink k) n)
  | 0 => paired_quiet (quiet_pure ())
  | n + 1 => by
      refine paired_read (fun _ => rfl) (fun _ => rfl) fun s => paired_ite ?_ (paired_quiet (quiet_pure ()))
      refine paired_bind (quiet_termAt _) fun v => paired_ite (paired_quiet (quiet_pure ())) ?_
      exact paired_ite (paired_raise (some (n + 1))) (paired_commitScan n)

theorem paired_advanceCommit : Paired K (K.withSink k) (advanceCommit K) (advanceCommit (K.withSink k)) :=
  paired_read (fun _ => rfl) (fun _ => rfl) fun _ => paired_commitScan K k _

/-- What follows an append. -/
theorem paired_replicate (v : α) : Paired K (K.withSink k)
    (advanceCommit K >>= fun _ => K.peers.forM (sendAppendEntries K) >>= fun _ => armHeartbeat K >>=
      fun _ => pure v)
    (advanceCommit (K.withSink k) >>= fun _ => K.peers.forM (sendAppendEntries K) >>= fun _ =>
      armHeartbeat K >>= fun _ => pure v) :=
  paired_then (paired_advanceCommit K k) fun _ => quiet_bind (quiet_forM quiet_sendAppendEntries _) fun _ =>
    quiet_bind quiet_armHeartbeat fun _ => quiet_pure v

theorem paired_propose (c : Bytes) :
    Paired K (K.withSink k) (propose K c) (propose (K.withSink k) c) := by
  refine paired_read (fun _ => rfl) (fun _ => rfl) fun s => paired_ite (paired_quiet (quiet_pure _)) ?_
  refine paired_bind (quiet_append _) fun _ => ?_
  exact paired_read (fun _ => rfl) (fun _ => rfl) fun u => paired_replicate K k _

theorem paired_proposeBatch (cs : List Bytes) :
    Paired K (K.withSink k) (proposeBatch K cs) (proposeBatch (K.withSink k) cs) := by
  refine paired_read (fun _ => rfl) (fun _ => rfl) fun s => paired_ite (paired_quiet (quiet_pure _)) ?_
  refine paired_bind (quiet_append _) fun _ => ?_
  exact paired_read (fun _ => rfl) (fun _ => rfl) fun u => paired_replicate K k _

theorem paired_acceptEntries (p : NodeId) (ae : AppendEntries) (T : ℕ) :
    Paired K (K.withSink k) (acceptEntries K p ae T) (acceptEntries (K.withSink k) p ae T) := by
  refine paired_bind (quiet_resolveConflicts _ _) fun _ => paired_bind (quiet_append _) fun _ => ?_
  refine paired_read (fun _ => rfl) (fun _ => rfl) fun s => paired_then (paired_when ?_) fun _ => quiet_emit rfl
  exact paired_raise (some _)

theorem paired_checkEntries (p : NodeId) (ae : AppendEntries) (T : ℕ) :
    Paired K (K.withSink k) (checkEntries K p ae T) (checkEntries (K.withSink k) p ae T) := by
  refine paired_read (fun _ => rfl) (fun _ => rfl) fun s => paired_ite (paired_quiet (quiet_emit rfl)) ?_
  refine paired_bind (quiet_termAt _) fun v => paired_ite (paired_quiet ?_) (paired_acceptEntries K k _ _ _)
  exact quiet_bind (quiet_firstOfTerm _ _) fun _ => quiet_emit rfl

theorem paired_onAppendEntries (p : NodeId) (ae : AppendEntries) :
    Paired K (K.withSink k) (onAppendEntries K p ae) (onAppendEntries (K.withSink k) p ae) := by
  refine paired_read (fun _ => rfl) (fun _ => rfl) fun s => paired_ite (paired_quiet (quiet_emit rfl)) ?_
  refine paired_ite (paired_quiet (quiet_emit rfl)) (paired_bind ?_ fun _ => ?_)
  · exact quiet_set (fun _ => rfl) (fun _ => rfl) (fun _ => rfl) (fun _ => rfl) fun _ => rfl
  refine paired_bind (quiet_when (quiet_becomeFollower _ _)) fun _ => ?_
  exact paired_bind quiet_resetElectionTimer fun _ => paired_checkEntries K k _ _ _

theorem paired_onAppendEntriesReply (p : NodeId) (r : AppendEntriesReply) :
    Paired K (K.withSink k) (onAppendEntriesReply K p r) (onAppendEntriesReply (K.withSink k) p r) := by
  refine paired_read (fun _ => rfl) (fun _ => rfl) fun s => paired_ite (paired_quiet (quiet_pure ())) ?_
  refine paired_ite (paired_quiet (quiet_pure ())) (paired_ite ?_ (paired_quiet ?_))
  · refine paired_ite (paired_quiet (quiet_emit rfl)) (paired_when (paired_bind ?_ fun _ => ?_))
    · exact quiet_set (fun _ => rfl) (fun _ => rfl) (fun _ => rfl) (fun _ => rfl) fun _ => rfl
    · refine paired_then (paired_advanceCommit K k) fun _ => quiet_read (fun _ => rfl) fun _ => ?_
      exact quiet_when (quiet_sendAppendEntries _)
  · refine quiet_bind (quiet_hintedNext r) fun _ => quiet_bind ?_ fun _ => quiet_sendAppendEntries _
    exact quiet_set (fun _ => rfl) (fun _ => rfl) (fun _ => rfl) (fun _ => rfl) fun _ => rfl

theorem paired_handle (p : NodeId) (m : Message) :
    Paired K (K.withSink k) (handle K p m) (handle (K.withSink k) p m) := by
  refine paired_bind (quiet_liftTerm m) fun _ => ?_
  cases m with
  | requestVote rv => exact paired_quiet (quiet_onRequestVote _ _)
  | requestVoteReply r => exact paired_quiet (quiet_onRequestVoteReply _ _)
  | appendEntries ae => exact paired_onAppendEntries K k _ _
  | appendEntriesReply r => exact paired_onAppendEntriesReply K k _ _
  | clientRequest req => exact paired_quiet (quiet_when (quiet_emit rfl))
  | clientReply r => exact paired_quiet (quiet_pure ())

/-- **Every call, with two sinks**: the same but for one `applyCommitted` at the same place. -/
theorem paired_step (i : Input) : Paired K (K.withSink k) (step K i) (step (K.withSink k) i) := by
  cases i with
  | start => exact paired_quiet quiet_resetElectionTimer
  | tick => exact paired_quiet quiet_tick
  | handle p m => exact paired_handle K k p m
  | propose c => exact paired_then (paired_propose K k c) fun _ => quiet_pure ()
  | proposeBatch cs => exact paired_then (paired_proposeBatch K k cs) fun _ => quiet_pure ()
  | pumpApply => exact paired_raise none

end Calls

/-! ## 4. What the loop hands over -/

/-- The sink takes the pair; without a sink everything is taken. -/
def Ctx.Accepts (K : Ctx) (j : ℕ) (e : LogEntry) : Prop := ∀ sink, K.applySink = some sink → sink j e = true

/-- **What has been handed over on the way from `s` to `t`**: entries that all meet `P`, with the
    indices that follow those of before. -/
def Hands (P : ℕ → LogEntry → Prop) (s t : RaftCore) : Prop :=
  ∃ es o, t.sm = s.sm ++ es ∧ t.out = s.out ++ o ∧ applied o = numbered s.sm.length es ∧
    ∀ x ∈ numbered s.sm.length es, P x.1 x.2

/-- **What a call has handed over** is accepted, and with a sink `lastApplied` is not ahead of it. -/
structure Takes (K : Ctx) (s t : RaftCore) : Prop where
  hands : Hands K.Accepts s t
  passed : K.applySink.isSome → t.lastApplied ≤ t.sm.length

section Hands

variable {P : ℕ → LogEntry → Prop}

theorem Hands.mono {Q : ℕ → LogEntry → Prop} (h : Hands P s t) (hPQ : ∀ j e, P j e → Q j e) :
    Hands Q s t := by
  obtain ⟨es, o, hsm, hout, happ, hP⟩ := h
  exact ⟨es, o, hsm, hout, happ, fun x hx => hPQ _ _ (hP x hx)⟩

theorem Hands.trans (h : Hands P s t) (h' : Hands P t u) : Hands P s u := by
  obtain ⟨es, o, hsm, hout, happ, hP⟩ := h
  obtain ⟨es', o', hsm', hout', happ', hP'⟩ := h'
  have hlen : t.sm.length = s.sm.length + es.length := by rw [hsm, List.length_append]
  rw [hlen] at happ' hP'
  refine ⟨es ++ es', o ++ o', ?_, ?_, ?_, fun x hx => ?_⟩
  · rw [hsm', hsm, List.append_assoc]
  · rw [hout', hout, List.append_assoc]
  · rw [applied_append, numbered_append, happ, happ']
  · rw [numbered_append] at hx
    rcases List.mem_append.mp hx with hx | hx
    · exact hP x hx
    · exact hP' x hx

theorem Idles.hands (h : Idles s t) : Hands P s t := by
  obtain ⟨o, hout, hnone⟩ := h.out
  exact ⟨[], o, by rw [h.sm, List.append_nil], hout, hnone, fun _ hx => (List.not_mem_nil hx).elim⟩

/-- One entry, at the next index. -/
theorem hands_one {e : LogEntry} (he : P (s.sm.length + 1) e) (hsm : t.sm = s.sm ++ [e])
    (hout : t.out = s.out ++ [.apply (s.sm.length + 1) e]) : Hands P s t := by
  refine ⟨[e], _, hsm, hout, rfl, fun x hx => ?_⟩
  rw [List.mem_singleton.mp hx]
  exact he

end Hands

theorem takes_refl (h : InStep s) : Takes K s s :=
  ⟨(Idles.refl s).hands, fun _ => Nat.le_of_eq h.symm⟩

theorem Takes.idles (h : Takes K s t) (h' : Idles t u) : Takes K s u := by
  refine ⟨h.hands.trans h'.hands, ?_⟩
  rw [h'.sm, h'.lastApplied]
  exact h.passed

theorem Takes.hand (h : Takes K s t) {e : LogEntry} (he : K.Accepts (t.sm.length + 1) e)
    (hsm : u.sm = t.sm ++ [e]) (hout : u.out = t.out ++ [.apply (t.sm.length + 1) e])
    (hle : u.lastApplied ≤ t.sm.length + 1) : Takes K s u := by
  refine ⟨h.hands.trans (hands_one he hsm hout), fun _ => ?_⟩
  rw [hsm, List.length_append]
  exact hle

/-- At most a line about the access is added. -/
def Looked (i : ℕ) (s t : RaftCore) : Prop :=
  t = s ∨ t = { s with out := s.out ++ [.entryAtOutOfRange i] }

theorem Looked.idles {i : ℕ} (h : Looked i s t) : Idles s t := by
  rcases h with rfl | rfl
  · exact Idles.refl _
  · exact ⟨rfl, rfl, rfl, _, rfl, rfl⟩

theorem Looked.log {i : ℕ} (h : Looked i s t) : t.log = s.log := by
  rcases h with rfl | rfl <;> rfl

theorem meets_entryAt {I : RaftCore → Prop} {Q : LogEntry → Unit → RaftCore → Prop} {i : ℕ}
    (hI : ∀ u, Looked i t u → I u) (hQ : ∀ u, Looked i t u → Q (t.log.entryAt i) () u) :
    Meets (always I) () t (entryAt i) Q := by
  refine meets_read_bind (meets_bind (meets_when (fun _ => ?_) fun _ => hQ t (.inl rfl)))
  exact always_write (hI _ (.inr rfl)) (hQ _ (.inr rfl))

/-- **The loop hands over what is next**, as long as it is accepted. -/
theorem takes_applyLoop : ∀ {n : ℕ} {t : RaftCore}, InStep t → Takes K s t →
    Meets (always (Takes K s)) () t (applyLoop K n) (fun _ _ u => Takes K s u ∧ InStep u)
  | 0, _, hi, ht => meets_pure ⟨ht, hi⟩
  | n + 1, t, hi, ht => by
      refine meets_read_bind (meets_ite (fun hlt => ?_) fun _ => meets_pure ⟨ht, hi⟩)
      refine meets_bind (meets_entryAt (fun u hu => ht.idles hu.idles) fun u hu => ?_)
      have htu := ht.idles hu.idles
      have hla : u.lastApplied = u.sm.length := by rw [hu.idles.lastApplied, hu.idles.sm, hi]
      have hnext : t.lastApplied + 1 = u.sm.length + 1 := by rw [hu.idles.sm, hi]
      generalize t.log.entryAt (t.lastApplied + 1) = e
      rw [hnext]
      cases hk : K.applySink with
      | some sink =>
          refine meets_ite (fun hyes => ?_) fun _ => meets_pure ⟨htu, hla.symm⟩
          have hacc : K.Accepts (u.sm.length + 1) e := by
            intro sink' hs
            rw [hk] at hs
            obtain rfl := Option.some.inj hs
            exact hyes
          refine meets_bind (always_write ?_ (meets_bind (always_write ?_ (takes_applyLoop ?_ ?_))))
          · exact htu.hand hacc rfl rfl (by dsimp only; omega)
          · exact htu.hand hacc rfl rfl (Nat.le_refl _)
          · exact List.length_append
          · exact htu.hand hacc rfl rfl (Nat.le_refl _)
      | none =>
          have hacc : K.Accepts (u.sm.length + 1) e := by
            intro sink' hs
            rw [hk] at hs
            cases hs
          refine meets_bind (always_write ?_ (meets_bind (always_write ?_ (takes_applyLoop ?_ ?_))))
          · refine ⟨htu.hands, fun hs => ?_⟩
            rw [hk] at hs
            cases hs
          · exact htu.hand hacc rfl rfl (Nat.le_refl _)
          · exact List.length_append
          · exact htu.hand hacc rfl rfl (Nat.le_refl _)

theorem takes_applyCommitted (hi : InStep t) (ht : Takes K s t) :
    (∀ u ∈ (applyCommitted K).moments t, Takes K s u) ∧ Takes K s ((applyCommitted K).final t) := by
  have h : Meets (always (Takes K s)) () t (applyCommitted K) (fun _ _ u => Takes K s u ∧ InStep u) :=
    meets_read_bind (takes_applyLoop hi ht)
  exact ⟨plan_always h, (plan_always_final h).1⟩

theorem bare_handed {o : Output} (ho : o.ofApply = true) (s : RaftCore) (m : List LogEntry) (a : ℕ) :
    bare { s with sm := m, lastApplied := a, out := s.out ++ [o] } = bare s := by
  simp only [bare, List.filter_append, List.filter_cons, ho, Bool.not_true, List.filter_nil,
    List.append_nil, Bool.false_eq_true, if_false]

theorem Looked.bare {i : ℕ} (h : Looked i s t) : bare t = bare s := by
  rcases h with rfl | rfl
  · rfl
  · exact bare_handed rfl s s.sm s.lastApplied

/-- **Nothing of it can be seen in the rest of the core.** -/
theorem bare_applyLoop : ∀ {n : ℕ} {t : RaftCore}, bare t = bare s →
    Meets (always fun u => bare u = bare s) () t (applyLoop K n) (fun _ _ u => bare u = bare s)
  | 0, _, ht => meets_pure ht
  | n + 1, t, ht => by
      refine meets_read_bind (meets_ite (fun _ => ?_) fun _ => meets_pure ht)
      refine meets_bind (meets_entryAt (fun u hu => hu.bare.trans ht) fun u hu => ?_)
      have hub := hu.bare.trans ht
      generalize t.log.entryAt (t.lastApplied + 1) = e
      have hend : bare { u with
          sm := u.sm ++ [e], lastApplied := t.lastApplied + 1
          out := u.out ++ [.apply (t.lastApplied + 1) e] } = bare s := (bare_handed rfl u _ _).trans hub
      cases hk : K.applySink with
      | some sink =>
          refine meets_ite (fun _ => ?_) fun _ => meets_pure hub
          refine meets_bind (always_write ?_ (meets_bind (always_write hend (bare_applyLoop hend))))
          exact (bare_handed rfl u _ u.lastApplied).trans hub
      | none => exact meets_bind (always_write hub (meets_bind (always_write hend (bare_applyLoop hend))))

theorem bare_applyCommitted (K : Ctx) (s : RaftCore) : ∀ t ∈ (applyCommitted K).moments s, bare t = bare s := by
  have h : Meets (always fun u => bare u = bare s) () s (applyCommitted K) (fun _ _ u => bare u = bare s) :=
    meets_read_bind (bare_applyLoop rfl)
  exact plan_always h

/-- **The loop stops at what is committed or at a refusal.** -/
theorem ends_applyLoop_stop : ∀ {n : ℕ} {s : RaftCore}, s.commitIndex - s.lastApplied ≤ n →
    Ends s (applyLoop K n) (fun _ t => t.commitIndex ≤ t.lastApplied ∨
      ¬ K.Accepts (t.lastApplied + 1) (t.log.entryAt (t.lastApplied + 1)))
  | 0, s, hn => meets_pure (.inl (by omega))
  | n + 1, s, hn => by
      refine meets_read_bind (meets_ite (fun hlt => ?_) fun hge => meets_pure (.inl (Nat.le_of_not_lt hge)))
      refine meets_bind (meets_entryAt (I := fun _ => True) (fun _ _ => trivial) fun u hu => ?_)
      have hrest : u.commitIndex - (s.lastApplied + 1) ≤ n := by
        rw [hu.idles.commitIndex]
        omega
      cases hk : K.applySink with
      | some sink =>
          refine meets_ite (fun _ => ?_) fun hno => meets_pure (.inr fun hacc => ?_)
          · exact ends_write_bind (ends_write_bind (ends_applyLoop_stop hrest))
          · rw [hu.idles.lastApplied, hu.log] at hacc
            exact hno (hacc sink hk)
      | none => exact ends_write_bind (ends_write_bind (ends_applyLoop_stop hrest))

/-- **What has been handed over is not offered again**: the loop does not ask the sink about it. -/
theorem applyLoop_congr {sink sink' : Sink} : ∀ (n : ℕ) (s : RaftCore),
    (∀ j e, s.lastApplied < j → sink' j e = sink j e) →
      applyLoop (K.withSink (some sink')) n s = applyLoop (K.withSink (some sink)) n s
  | 0, _, _ => rfl
  | n + 1, s, h => by
      refine Prog.bind_at ?_
      show (if s.lastApplied < s.commitIndex then _ else _ : RaftM Unit) s =
        (if s.lastApplied < s.commitIndex then _ else _ : RaftM Unit) s
      by_cases hlt : s.lastApplied < s.commitIndex
      · rw [if_pos hlt, if_pos hlt]
        refine Prog.bind_at ?_
        show (if sink' (s.lastApplied + 1) ((entryAt (s.lastApplied + 1)).value s) then _ else _ : RaftM Unit) _ =
          (if sink (s.lastApplied + 1) ((entryAt (s.lastApplied + 1)).value s) then _ else _ : RaftM Unit) _
        rw [h _ _ (Nat.lt_succ_self _)]
        by_cases hyes : sink (s.lastApplied + 1) ((entryAt (s.lastApplied + 1)).value s) = true
        · rw [if_pos hyes, if_pos hyes]
          refine Prog.bind_at (Prog.bind_at (applyLoop_congr n _ fun j e hj => h j e ?_))
          exact Nat.lt_of_succ_lt hj
        · rw [if_neg hyes, if_neg hyes]
      · rw [if_neg hlt, if_neg hlt]

/-! ## 5. What a call hands over -/

theorem moments_via (r : RaftM Unit) (g : Option ℕ) (q : RaftM α) (s : RaftCore) :
    (via K r g q).moments s = r.moments s ++ ((raise g).moments (r.final s) ++
      ((applyCommitted K).moments ((raise g).final (r.final s)) ++
        q.moments ((applyCommitted K).final ((raise g).final (r.final s))))) := rfl

theorem Takes.raise (h : Takes K s t) (g : Option ℕ) : (∀ u ∈ (raise g).moments t, Takes K s u) ∧
    Takes K s ((raise g).final t) := by
  cases g with
  | none => exact ⟨fun u hu => (List.not_mem_nil hu).elim, h⟩
  | some c =>
      refine ⟨fun u hu => ?_, h.hands, h.passed⟩
      rw [List.mem_singleton.mp hu]
      exact ⟨h.hands, h.passed⟩

theorem inStep_raise (h : InStep s) (g : Option ℕ) : InStep ((raise g).final s) := by
  cases g <;> exact h

/-- **What a call hands over**, at every moment. -/
theorem takes_step (i : Input) (h : InStep s) : ∀ t ∈ (step K i).moments s, Takes K s t := by
  have h0 : Takes K s s := takes_refl h
  rcases paired_step K K.applySink i s with ⟨r, hr, hs⟩ | ⟨r, g, q, hr, hq, hs⟩
  · have hm : (step K i).moments s = r.moments s := congrArg Prod.snd (hs s rfl).1
    rw [hm]
    exact fun t ht => h0.idles (hr.idles s t ht)
  · have hm : (step K i).moments s = (via K r g q).moments s := congrArg Prod.snd (hs s rfl).1
    have h1 : InStep (r.final s) := by
      unfold InStep
      rw [(hr.final s).sm, (hr.final s).lastApplied]
      exact h
    obtain ⟨hraise, h2⟩ := (h0.idles (hr.final s)).raise g
    obtain ⟨hloop, h3⟩ := takes_applyCommitted (inStep_raise h1 g) h2
    rw [hm, moments_via]
    intro t ht
    rcases List.mem_append.mp ht with ht | ht
    · exact h0.idles (hr.idles s t ht)
    rcases List.mem_append.mp ht with ht | ht
    · exact hraise t ht
    rcases List.mem_append.mp ht with ht | ht
    · exact hloop t ht
    · exact h3.idles (hq.idles _ t ht)

theorem mem_numbered : ∀ {es : List LogEntry} {i k : ℕ} {e : LogEntry}, es[k]? = some e →
    (i + k + 1, e) ∈ numbered i es
  | [], _, _, _, h => by cases h
  | f :: es, i, 0, e, h => by
      obtain rfl := Option.some.inj h
      exact List.mem_cons_self
  | f :: es, i, k + 1, e, h => by
      have hrest := mem_numbered (i := i + 1) (k := k) h
      rw [Nat.add_assoc i 1 k, Nat.add_comm 1 k] at hrest
      exact List.mem_cons_of_mem _ hrest

/-- **`lastApplied` does not pass a refusal.** -/
theorem Takes.accepted (h : Takes K s t) (hs : InStep s)
    (hsink : K.applySink.isSome) (hlog : t.sm <+: t.log) {j : ℕ} {e : LogEntry} (hj : s.lastApplied < j)
    (hj' : j ≤ t.lastApplied) (he : t.log[j - 1]? = some e) : K.Accepts j e := by
  obtain ⟨es, o, hsm, -, -, hacc⟩ := h.hands
  have hpassed := h.passed hsink
  have hlen : s.sm.length = s.lastApplied := hs
  have hat : t.sm[j - 1]? = some e := by
    obtain ⟨d, hd⟩ := hlog
    rw [← hd, List.getElem?_append_left (by omega)] at he
    exact he
  rw [hsm, List.getElem?_append_right (by omega)] at hat
  have hmem := hacc _ (mem_numbered (i := s.sm.length) hat)
  have hidx : s.sm.length + (j - 1 - s.sm.length) + 1 = j := by omega
  rw [hidx] at hmem
  exact hmem

/-- **The call asks the sink about the pair**: another answer would make another call. -/
def Consults (K : Ctx) (i : Input) (s : RaftCore) (sink : Sink) (j : ℕ) (e : LogEntry) : Prop :=
  ∃ sink' : Sink, (∀ j' e', (j', e') ≠ (j, e) → sink' j' e' = sink j' e') ∧
    step (K.withSink (some sink')) i s ≠ step (K.withSink (some sink)) i s

theorem lastApplied_raise (g : Option ℕ) (s : RaftCore) :
    ((raise g).final s).lastApplied = s.lastApplied := by
  cases g <;> rfl

/-- A call does not depend on what the sink would say to what has been handed over. -/
theorem step_congr {sink sink' : Sink} (i : Input) (h : ∀ j e, s.lastApplied < j → sink' j e = sink j e) :
    step (K.withSink (some sink')) i s = step (K.withSink (some sink)) i s := by
  rcases paired_step (K.withSink (some sink)) (some sink') i s with ⟨r, -, hs⟩ | ⟨r, g, q, hr, -, hs⟩
  · exact (hs s rfl).2.trans (hs s rfl).1.symm
  · refine (hs s rfl).2.trans (Eq.trans ?_ (hs s rfl).1.symm)
    refine Prog.bind_at (Prog.bind_at (Prog.bind_from _ (Prog.bind_at (applyLoop_congr _ _ fun j e hj => ?_))))
    refine h j e ?_
    have hla : ((raise g).final (r.final s)).lastApplied = s.lastApplied :=
      (lastApplied_raise g _).trans (hr.final s).lastApplied
    rw [← hla]
    exact hj

theorem not_consults (i : Input) {sink : Sink} {j : ℕ} (hj : j ≤ s.lastApplied) (e : LogEntry) :
    ¬ Consults K i s sink j e := by
  rintro ⟨sink', heq, hne⟩
  refine hne (step_congr i fun j' e' hj' => heq j' e' fun he => ?_)
  have : j' = j := congrArg Prod.fst he
  omega

/-- **Without a sink everything committed is applied** when a call has ended. -/
theorem caughtUp_step (i : Input) (hk : K.applySink = none) (h : s.commitIndex ≤ s.lastApplied) :
    ((step K i).final s).commitIndex ≤ ((step K i).final s).lastApplied := by
  have hidle : ∀ {u v : RaftCore}, Idles u v → u.commitIndex ≤ u.lastApplied →
      v.commitIndex ≤ v.lastApplied := by
    intro u v huv hu
    rw [huv.commitIndex, huv.lastApplied]
    exact hu
  have hfinal : ∀ {p p' : RaftM Unit}, p s = p' s → p.final s = p'.final s := by
    intro p p' hp
    unfold Prog.final Prog.moments
    rw [hp]
  rcases paired_step K K.applySink i s with ⟨r, hr, hs⟩ | ⟨r, g, q, hr, hq, hs⟩
  · rw [hfinal (hs s rfl).1]
    exact hidle (hr.final s) h
  · rw [hfinal (hs s rfl).1]
    unfold via
    rw [Prog.final_bind, Prog.final_bind, Prog.final_bind]
    refine hidle (hq.final _) ?_
    generalize (Prog.final (raise g) (Prog.final r s)) = u
    have hstop : Ends u (applyCommitted K) (fun _ t => t.commitIndex ≤ t.lastApplied ∨
        ¬ K.Accepts (t.lastApplied + 1) (t.log.entryAt (t.lastApplied + 1))) :=
      meets_read_bind (ends_applyLoop_stop (Nat.le_refl _))
    refine (ends_final hstop).resolve_right fun hno => hno fun sink hsink => ?_
    rw [hk] at hsink
    cases hsink

theorem raise_alike (g : Option ℕ) (h : bare t = bare s) :
    ((raise g).moments t).map bare = ((raise g).moments s).map bare ∧
    bare ((raise g).final t) = bare ((raise g).final s) := by
  cases g with
  | none => exact ⟨rfl, h⟩
  | some c =>
      have hc : bare { t with commitIndex := c } = bare { s with commitIndex := c } :=
        congrArg (fun u : RaftCore => { u with commitIndex := c }) h
      exact ⟨congrArg (fun u => [u]) hc, hc⟩

/-- **A call looks the same with every sink**, and whatever was handed over before. -/
theorem shadow_step (i : Input) (k : Option Sink) (h : bare t = bare s) :
    Shadow bare s ((step K i).moments s) ((step (K.withSink k) i).moments t) := by
  rcases paired_step K k i s with ⟨r, hr, hs⟩ | ⟨r, g, q, hr, hq, hs⟩
  · have hm : (step K i).moments s = r.moments s := congrArg Prod.snd (hs s rfl).1
    have hm' : (step (K.withSink k) i).moments t = r.moments t := congrArg Prod.snd (hs t h).2
    rw [hm, hm']
    exact shadow_of_map (hr.alike h).2.1
  · have hm : (step K i).moments s = (via K r g q).moments s := congrArg Prod.snd (hs s rfl).1
    have hm' : (step (K.withSink k) i).moments t = (via (K.withSink k) r g q).moments t :=
      congrArg Prod.snd (hs t h).2
    obtain ⟨-, hr1, hr2⟩ := hr.alike h
    obtain ⟨hg1, hg2⟩ := raise_alike g hr2
    rw [hm, hm', moments_via, moments_via]
    refine (shadow_of_map hr1).append fun d hd => (shadow_of_map hg1).append fun d₁ hd₁ => ?_
    -- the two loops start from cores that look alike, and nothing of them can be seen
    have hd₁ : bare d₁ = bare ((raise g).final (r.final s)) := hd₁.trans (view_getLastD_congr _ hd)
    generalize (raise g).final (r.final s) = u at hg2 hd₁ ⊢
    generalize (raise g).final (r.final t) = v at hg2 ⊢
    have hloop := bare_applyCommitted K u
    have hloop' := bare_applyCommitted (K.withSink k) v
    have hu : bare ((applyCommitted K).final u) = bare u := view_getLastD hloop rfl
    have hv : bare ((applyCommitted (K.withSink k)).final v) = bare v := view_getLastD hloop' rfl
    refine (shadow_of_still (fun x hx => ?_) fun x hx => ?_).append fun d₂ _ => shadow_of_map ?_
    · exact (hloop x hx).trans hd₁.symm
    · exact (hloop' x hx).trans (hg2.trans hd₁.symm)
    · exact (hq.alike (hv.trans (hg2.trans hu.symm))).2.1

/-- What a whole call has handed over. -/
theorem takes_final (i : Input) (hs : InStep s) : Takes K s ((step K i).final s) := by
  rcases List.mem_cons.mp (List.getLastD_mem_cons (l := (step K i).moments s) (a := s)) with h | h
  · rw [Prog.final, h]
    exact takes_refl hs
  · exact takes_step i hs _ h

/-- The states and results of a state machine that is handed `es`. -/
def outcomes {S R : Type} (f : S → LogEntry → S × R) : S → List LogEntry → List (S × R)
  | _, [] => []
  | s, e :: es => f s e :: outcomes f (f s e).1 es

theorem outcomes_take {S R : Type} (f : S → LogEntry → S × R) : ∀ (es : List LogEntry) (s : S) (k : ℕ),
    outcomes f s (es.take k) = (outcomes f s es).take k
  | [], _, k => by rw [List.take_nil, outcomes, List.take_nil]
  | _ :: _, _, 0 => rfl
  | e :: es, s, k + 1 => congrArg (List.cons (f s e)) (outcomes_take f es (f s e).1 k)

/-! ## 6. The cluster that applies inline -/

namespace Cluster

variable {C : Cluster} {w w' v : World} {n : NodeId}

/-- **The cluster without sinks**: every call applies what is committed. -/
def inlineSystem (C : Cluster) : System NodeId RaftCore where
  init := C.system.init
  begins x n l := n ∈ C.ids ∧ ∃ K i, K.self = n ∧ K.peers = C.peers n ∧ K.applySink = none ∧
    C.Allowed x n i ∧ l = (step K i).moments (x n)
  restart := C.system.restart

/-- Its runs are runs of the cluster. -/
theorem reach_of_inline (h : C.inlineSystem.Reach w w') : C.system.Reach w w' := by
  refine Relation.ReflTransGen.mono ?_ _ _ h
  rintro u u' ⟨n, hs⟩
  refine ⟨n, ?_⟩
  cases hs with
  | live _ _ hs =>
      cases hs with
      | begin l hi hb =>
          obtain ⟨hn, K, i, hself, hpeers, -, hallowed, rfl⟩ := hb
          exact .live _ _ _ (.begin u n _ hi ⟨hn, K, i, hself, hpeers, hallowed, rfl⟩)
      | advance t l ht => exact .live _ _ _ (.advance u n t l ht)
  | crash _ t hr => exact .crash u n t hr

theorem send_mem_bare {s : RaftCore} {p : NodeId} {m : Message} :
    Output.send p m ∈ (bare s).out ↔ Output.send p m ∈ s.out := by
  unfold bare
  simp only [List.mem_filter, Output.ofApply, Bool.not_false, and_true]

/-- **To the eye every run is a run without sinks.** -/
theorem shadows_inline (C : Cluster) : Shadows C.system C.inlineSystem bare where
  init _ := rfl
  begins := by
    rintro x x' n l hx ⟨hn, K, i, hself, hpeers, hallowed, rfl⟩
    refine ⟨(step (K.withSink none) i).moments (x' n), ⟨hn, K.withSink none, i, hself, hpeers, rfl, ?_, rfl⟩,
      shadow_step i none (hx n)⟩
    cases i with
    | handle p m =>
        refine hallowed.imp (fun h => ⟨h.1, ?_⟩) id
        rw [← send_mem_bare, hx p, send_mem_bare]
        exact h.2
    | _ => trivial
  restart := by
    rintro s s' t n hb ⟨hn, rng, rfl⟩
    exact ⟨s'.restart rng, ⟨hn, rng, rfl⟩, congrArg (fun u => RaftCore.restart u rng) hb⟩

/-- **Without sinks a core between two calls has applied everything committed.** -/
theorem inline_caughtUp (h : C.inlineSystem.Reachable v) (n : NodeId) :
    (v.ending n).commitIndex ≤ (v.ending n).lastApplied := by
  refine System.ending_of (P := fun s : RaftCore => s.commitIndex ≤ s.lastApplied) (Nat.le_refl 0) ?_ ?_ h
  · intro w l _ _ hdone hb
    obtain ⟨-, K, i, -, -, hsink, -, rfl⟩ := hb
    exact caughtUp_step i hsink hdone
  · intro s t hr
    obtain ⟨-, rng, rfl⟩ := hr
    exact Nat.le_refl 0

/-! ## 7. The hand-off in every run -/

theorem inStep_idle (h : C.system.Reachable w) (hi : w.Idle n) :
    InStep (w.cur n) ∧ (w.cur n).sm = (w.cur n).log.take (w.cur n).lastApplied := by
  obtain ⟨a, ha⟩ := explained h
  have hsm := (ha.rest hi).sm
  refine ⟨?_, hsm⟩
  have h1 := (ha.mid n).applied
  have h2 := (ha.mid n).commit.1
  unfold InStep
  rw [hsm, List.length_take]
  exact Nat.min_eq_left (h1.trans h2)

/-- **Within one incarnation** the indices go on where they were. -/
theorem hands_spans (h : C.system.Reachable w) (hi : w.Idle n) (hs : C.system.Spans n w w') :
    ∀ t, t = w'.cur n ∨ t ∈ (w' n).todo → Hands (fun _ _ => True) (w.cur n) t := by
  induction hs with
  | refl =>
      rintro t (rfl | ht)
      · exact (Idles.refl _).hands
      · unfold World.Idle at hi
        rw [hi] at ht
        exact (List.not_mem_nil ht).elim
  | @tail u u' hu hstep ih =>
      rcases hstep with hstep | ⟨m, hm, hstep⟩
      · cases hstep with
        | begin l hidle hb =>
            obtain ⟨-, K, i, -, -, -, rfl⟩ := hb
            rw [World.cur_update_self, Function.update_self]
            have hcur := ih _ (.inl rfl)
            rintro t (rfl | ht)
            · exact hcur
            · have hin := (inStep_idle (h.trans (System.reach_of_spans hu)) hidle).1
              exact hcur.trans ((takes_step i hin t ht).hands.mono fun _ _ _ => trivial)
        | advance x l hx =>
            rw [World.cur_update_self, Function.update_self]
            rw [hx] at ih
            rintro t (rfl | ht)
            · exact ih _ (.inr List.mem_cons_self)
            · exact ih _ (.inr (List.mem_cons_of_mem x ht))
      · have hsame := System.step_other hstep (Ne.symm hm)
        unfold World.cur at ih ⊢
        rw [hsame]
        exact ih

/-- A moment of a call is a world that can be reached. -/
theorem reach_moment {l : List RaftCore} (hi : w.Idle n) (hb : C.system.begins w.cur n l) {t : RaftCore}
    (ht : t ∈ l) : ∃ w', C.system.Reach w w' ∧ w'.cur n = t := by
  obtain ⟨p, q, rfl⟩ := List.append_of_mem ht
  have hr := reach_advance (S := C.system) (n := n) p (v := Function.update w n ⟨w.cur n, p ++ t :: q⟩)
    (by rw [Function.update_self])
  exact ⟨_, .head ⟨n, .live _ _ _ (.begin w n _ hi hb)⟩ hr, World.cur_update_self⟩

/-- **The hand-off is lossless, ordered and exactly once.** At every moment the accepted entries are
    the beginning of the node's log, up to `lastApplied` between two calls, and within one incarnation
    they are numbered without a gap or a repetition. A call with a sink hands over what the sink
    accepts and nothing else, `lastApplied` does not pass a refusal, no pair up to `lastApplied` is
    offered, and a pump stops only at the commit index or at a refusal. The run looks like a run
    without sinks, in which all that is committed is applied at once; a state machine that takes the
    accepted entries goes through the same states with the same results as it does there. -/
theorem handOff_exactly_once (h : C.system.Reachable w) :
    (∀ n, (w.cur n).sm <+: (w.cur n).log ∧
      (w.Idle n → (w.cur n).sm.length = (w.cur n).lastApplied ∧
        ∀ w', C.system.Spans n w w' → ∃ es o, (w'.cur n).sm = (w.cur n).sm ++ es ∧
          (w'.cur n).out = (w.cur n).out ++ o ∧ applied o = numbered (w.cur n).lastApplied es)) ∧
    (∀ n ∈ C.ids, w.Idle n → ∀ (K : Ctx) (sink : Sink) (i : Input), K.self = n → K.peers = C.peers n →
      K.applySink = some sink → C.Allowed w.cur n i →
      (∀ t ∈ (step K i).moments (w.cur n),
        (∃ es o, t.sm = (w.cur n).sm ++ es ∧ t.out = (w.cur n).out ++ o ∧
          applied o = numbered (w.cur n).lastApplied es ∧ ∀ x ∈ applied o, sink x.1 x.2 = true) ∧
        ∀ j e, (w.cur n).lastApplied < j → j ≤ t.lastApplied → t.log[j - 1]? = some e → sink j e = true) ∧
      (∀ j e, j ≤ (w.cur n).lastApplied → ¬ Consults K i (w.cur n) sink j e) ∧
      (i = .pumpApply → ∀ t, t = (step K i).final (w.cur n) → t.commitIndex ≤ t.lastApplied ∨
        sink (t.lastApplied + 1) (t.log.entryAt (t.lastApplied + 1)) = false)) ∧
    ∃ v, C.inlineSystem.Reachable v ∧ Mirrors bare w v ∧
      (∀ w', C.system.Reach w w' → ∃ v', C.inlineSystem.Reach v v' ∧ Mirrors bare w' v') ∧
      ∀ n, w.Idle n → (v.cur n).sm = (w.cur n).log.take (w.cur n).commitIndex ∧
        ∀ (S R : Type) (f : S → LogEntry → S × R) (s₀ : S),
          outcomes f s₀ (w.cur n).sm = (outcomes f s₀ (v.cur n).sm).take (w.cur n).lastApplied := by
  have hstart : ∀ {u : World} (n : NodeId), C.system.Reachable u → (u.cur n).sm <+: (u.cur n).log := by
    intro u n hu
    obtain ⟨a, ha⟩ := explained hu
    exact (ha.mid n).sm.trans ( List.take_prefix _ _)
  refine ⟨fun n => ⟨hstart n h, fun hi => ?_⟩, fun n hn hi K sink i hself hpeers hsink hallowed => ?_, ?_⟩
  · have hin := (inStep_idle h hi).1
    refine ⟨hin, fun w' hs => ?_⟩
    obtain ⟨es, o, hsm, hout, happ, -⟩ := hands_spans h hi hs _ (.inl rfl)
    rw [hin] at happ
    exact ⟨es, o, hsm, hout, happ⟩
  · have hin := (inStep_idle h hi).1
    refine ⟨fun t ht => ?_, fun j e hj => not_consults i hj e, fun hpump t ht => ?_⟩
    · have htakes := takes_step i hin t ht
      have hacc : ∀ {j e}, K.Accepts j e → sink j e = true := fun hj => hj sink hsink
      refine ⟨?_, fun j e hj hj' he => hacc ?_⟩
      · obtain ⟨es, o, hsm, hout, happ, hall⟩ := htakes.hands
        rw [← happ] at hall
        rw [hin] at happ
        exact ⟨es, o, hsm, hout, happ, fun x hx => hacc (hall x hx)⟩
      · obtain ⟨u, hr, rfl⟩ := reach_moment hi ⟨hn, K, i, hself, hpeers, hallowed, rfl⟩ ht
        exact htakes.accepted hin (by rw [hsink]; rfl) (hstart n (h.trans hr)) hj hj' he
    · subst hpump ht
      have hstop : Ends (w.cur n) (applyCommitted K) (fun _ t => t.commitIndex ≤ t.lastApplied ∨
          ¬ K.Accepts (t.lastApplied + 1) (t.log.entryAt (t.lastApplied + 1))) :=
        meets_read_bind (ends_applyLoop_stop (Nat.le_refl _))
      refine (ends_final hstop).imp id fun hno => ?_
      refine Bool.eq_false_iff.mpr fun hyes => hno fun sink' hs => ?_
      rw [hsink] at hs
      obtain rfl := Option.some.inj hs
      exact hyes
  · obtain ⟨v, hv, hm⟩ := exists_mirror (shadows_inline C) h
    refine ⟨v, hv, hm, fun w' hr => hm.reach (shadows_inline C) hr, fun n hi => ?_⟩
    have hvi := hm.idle n hi
    have hview := hm.view n
    have hlog : (v.cur n).log = (w.cur n).log := (congrArg RaftCore.log hview :)
    have hcommit : (v.cur n).commitIndex = (w.cur n).commitIndex := (congrArg RaftCore.commitIndex hview :)
    have hvr : C.system.Reachable v := reach_of_inline hv
    have hdone := inline_caughtUp hv n
    rw [World.ending_idle hvi] at hdone
    have hle := (commit_monotone hvr n).1
    have hsm : (v.cur n).sm = (w.cur n).log.take (w.cur n).commitIndex := by
      rw [(inStep_idle hvr hvi).2, Nat.le_antisymm hle hdone, hlog, hcommit]
    refine ⟨hsm, fun S R f s₀ => ?_⟩
    rw [(inStep_idle h hi).2, ← outcomes_take, hsm, List.take_take, Nat.min_eq_left (commit_monotone h n).1]

/-- Node 1 of the three has handed over its one entry; a sink that now refuses everything is not asked
    about it again. -/
theorem handOff_exactly_once_trio :
    (trioCommitted 1).lastApplied = 1 ∧ (trioCommitted 1).sm.length = (trioCommitted 1).lastApplied ∧
    ¬ Consults (trioCall 1 3000 .tick).1 .pumpApply (trioCommitted 1) (fun _ _ => false) 1 trioEntry := by
  have h1 : (trioCommitted 1).lastApplied = 1 := by decide +kernel
  have h := handOff_exactly_once trioCommitted_reachable
  refine ⟨h1, ((h.1 1).2 rfl).1, ?_⟩
  refine (h.2.1 1 (by decide) rfl { self := 1, peers := trio.peers 1, now := 3000, applySink := some fun _ _ => false }
    (fun _ _ => false) .pumpApply rfl rfl rfl trivial).2.1 1 trioEntry ?_
  exact Nat.le_of_eq h1.symm

end Cluster

end Rsm.Raft
