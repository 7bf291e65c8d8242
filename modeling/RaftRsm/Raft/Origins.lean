/-
  File:      RaftRsm/Raft/Origins.lean
  Subject:   WHERE ENTRIES COME FROM, and in which order they are handed over.

  * `Sound P s` -- every command in the log of `s`, and in an AppendEntries it has sent, is one of
    `P`; the lines `apply` of its history have no gap below them, and there is one for each entry
    its state machine has been handed;
  * `stays_step` -- every call keeps this at every moment, if what is proposed and what an incoming
    AppendEntries carries is of `P`.

  Only three places of the core touch entries at all: `append`, `sendAppendEntries` and the apply
  loop. Everything else is a write that these properties do not see (`Plain`).
-/
import RaftRsm.Raft.Core

namespace Rsm.Raft

open Rsm.Rpc Rsm.Storage Process

variable {P P' : Bytes → Prop} {s t u : RaftCore} {K : Ctx} {α β : Type}

/-! ## 1. The property and its contract -/

/-- The commands of a core are of `P`, and its history has handed entries over without a gap. -/
structure Sound (P : Bytes → Prop) (s : RaftCore) : Prop where
  log : ∀ e ∈ s.log, P e.command
  sent : ∀ p ae, Output.send p (.appendEntries ae) ∈ s.out → ∀ e ∈ ae.entries, P e.command
  handed : ∀ i e, s.sm[i]? = some e → Output.apply (i + 1) e ∈ s.out
  below : ∀ i e, Output.apply (i + 1) e ∈ s.out → ∀ j ≤ i, ∃ e', Output.apply (j + 1) e' ∈ s.out

/-- What the state machine has been handed is counted by `lastApplied`. -/
def InStep (s : RaftCore) : Prop := s.sm.length = s.lastApplied

/-- What has been handed over and what has been recorded stays. -/
structure Added (s t : RaftCore) : Prop where
  sm : s.sm <+: t.sm
  out : s.out <+: t.out

/-- The contract of a core whose commands are of `P`. -/
def keeps (P : Bytes → Prop) : Contract Unit RaftCore where
  rely _ _ := True
  guar _ _ := True
  mid _ := Sound P
  move := Added

theorem Sound.mono (h : Sound P s) (hP : ∀ b, P b → P' b) : Sound P' s :=
  ⟨fun e he => hP _ (h.log e he), fun p ae ho e he => hP _ (h.sent p ae ho e he), h.handed, h.below⟩

variable (P) in
/-- A program that keeps the property from wherever it holds. -/
def Stays (p : RaftM α) : Prop :=
  ∀ s, Sound P s → InStep s → Meets (keeps P) () s p (fun _ _ t => Sound P t ∧ InStep t)

theorem stays_pure (v : α) : Stays P (pure v : RaftM α) := fun _ hs he => meets_pure ⟨hs, he⟩

theorem stays_bind {p : RaftM α} {f : α → RaftM β} (hp : Stays P p) (hf : ∀ v, Stays P (f v)) :
    Stays P (p >>= f) :=
  fun s hs he => meets_bind (meets_mono (hp s hs he) fun v _ t ht => hf v t ht.1 ht.2)

/-- What is read is sound, and stays so whatever is written next. -/
theorem stays_read {f : RaftCore → RaftM β} (hf : ∀ s, Sound P s → Stays P (f s)) :
    Stays P (Prog.read >>= f) :=
  fun s hs he => meets_read_bind (hf s hs s hs he)

theorem stays_ite {c : Prop} [Decidable c] {p q : RaftM α} (hp : c → Stays P p)
    (hq : ¬ c → Stays P q) : Stays P (if c then p else q) :=
  fun s hs he => meets_ite (fun hc => hp hc s hs he) fun hc => hq hc s hs he

theorem stays_when {c : Prop} [Decidable c] {p : RaftM Unit} (hp : c → Stays P p) :
    Stays P (Prog.when c p) :=
  stays_ite hp fun _ => stays_pure ()

theorem stays_forM {ι : Type} {f : ι → RaftM PUnit} {l : List ι} (hf : ∀ i ∈ l, Stays P (f i)) :
    Stays P (l.forM f) := fun _ hs he =>
  meets_forM (P := fun _ t => Sound P t ∧ InStep t) ⟨hs, he⟩ fun i hi _ t ht => hf i hi t ht.1 ht.2

/-! ## 2. One write -/

theorem meets_keeps {f : RaftCore → RaftCore} {Q : Unit → Unit → RaftCore → Prop}
    (hg : Added s (f s)) (hs : Sound P (f s)) (hQ : Q () () (f s)) :
    Meets (keeps P) () s (Prog.write f) Q :=
  meets_write hg fun _ _ => ⟨(), trivial, hs, hQ⟩

/-- A line that is no AppendEntries and hands nothing over. -/
def Output.plain : Output → Prop
  | .send _ (.appendEntries _) => False
  | .apply _ _ => False
  | _ => True

/-- The history grows by lines that say nothing about entries. -/
theorem Sound.lines (h : Sound P s) {o : List Output} (ho : ∀ x ∈ o, x.plain)
    (hlog : t.log = s.log) (hsm : t.sm = s.sm) (hout : t.out = s.out ++ o) : Sound P t := by
  have hold : ∀ {x : Output}, ¬ x.plain → x ∈ t.out → x ∈ s.out := by
    intro x hx hm
    rw [hout] at hm
    exact (List.mem_append.mp hm).resolve_right fun hm => hx (ho x hm)
  have hnew : ∀ {x : Output}, x ∈ s.out → x ∈ t.out := by
    intro x hx
    rw [hout]
    exact List.mem_append_left _ hx
  refine ⟨?_, fun p ae hm => ?_, fun i e he => ?_, fun i e hm j hj => ?_⟩
  · rw [hlog]
    exact h.log
  · exact h.sent p ae (hold id hm)
  · rw [hsm] at he
    exact hnew (h.handed i e he)
  · obtain ⟨e', he'⟩ := h.below i e (hold id hm) j hj
    exact ⟨e', hnew he'⟩

/-- **A write that the property does not see.** -/
structure Plain (s t : RaftCore) : Prop where
  log : t.log = s.log
  sm : t.sm = s.sm
  lastApplied : t.lastApplied = s.lastApplied
  out : t.out = s.out

theorem stays_plain {f : RaftCore → RaftCore} (hf : ∀ s, Plain s (f s)) :
    Stays P (Prog.write f) := by
  intro s hs he
  obtain ⟨hlog, hsm, hla, hout⟩ := hf s
  have hs' : Sound P (f s) := hs.lines (o := []) (fun _ h => (List.not_mem_nil h).elim) hlog hsm
    (by rw [hout, List.append_nil])
  refine meets_keeps ⟨by rw [hsm], by rw [hout]⟩ hs' ⟨hs', ?_⟩
  unfold InStep
  rw [hsm, hla]
  exact he

theorem stays_emit {o : Output} (ho : o.plain) : Stays P (emit o) := by
  intro s hs he
  have hs' : Sound P { s with out := s.out ++ [o] } :=
    hs.lines (fun x hx => List.mem_singleton.mp hx ▸ ho) rfl rfl rfl
  exact meets_keeps ⟨List.prefix_rfl, List.prefix_append _ _⟩ hs' ⟨hs', he⟩

theorem stays_termAt (i : ℕ) : Stays P (termAt i) :=
  stays_read fun _ _ => stays_bind (stays_when fun _ => stays_emit trivial) fun _ => stays_pure _

/-- One entry at the end of the log. -/
theorem stays_pushBack {e : LogEntry} (he : P e.command) : Stays P (pushBack e) := by
  intro s hs hev
  have hs' : Sound P { s with log := s.log.pushBack e } := by
    refine ⟨fun f hf => ?_, hs.sent, hs.handed, hs.below⟩
    rcases List.mem_append.mp hf with hf | hf
    · exact hs.log f hf
    · rw [List.mem_singleton.mp hf]
      exact he
  exact meets_keeps ⟨List.prefix_rfl, List.prefix_rfl⟩ hs' ⟨hs', hev⟩

theorem stays_append {es : List LogEntry} (h : ∀ e ∈ es, P e.command) : Stays P (append es) :=
  stays_forM fun e he => stays_pushBack (h e he)

theorem stays_truncateSuffixFrom (i : ℕ) : Stays P (truncateSuffixFrom i) := by
  intro s hs hev
  have hs' : Sound P { s with log := s.log.truncateSuffixFrom i } := by
    exact ⟨fun e he => hs.log e (InMemoryLog.mem_of_mem_truncateSuffixFrom he), hs.sent, hs.handed,
      hs.below⟩
  exact meets_keeps ⟨List.prefix_rfl, List.prefix_rfl⟩ hs' ⟨hs', hev⟩

/-! ## 3. The apply loop -/

/-- One entry handed over, at the index after those that were. -/
theorem Sound.handOver (h : Sound P s) {k : ℕ} (hk : s.sm.length = k) (e : LogEntry) :
    Sound P { s with sm := s.sm ++ [e], out := s.out ++ [.apply (k + 1) e] } := by
  refine ⟨h.log, fun p ae ho => ?_, fun i f hf => ?_, fun i f hf j hj => ?_⟩
  · refine h.sent p ae ((List.mem_append.mp ho).resolve_right fun ho => ?_)
    cases List.mem_singleton.mp ho
  · rcases Nat.lt_or_ge i s.sm.length with hi | hi
    · rw [List.getElem?_append_left hi] at hf
      exact List.mem_append_left _ (h.handed i f hf)
    · have hlt := (List.getElem?_eq_some_iff.mp hf).1
      rw [List.length_append, List.length_singleton] at hlt
      obtain rfl : i = s.sm.length := by omega
      rw [List.getElem?_concat_length] at hf
      rw [hk, Option.some.inj hf]
      exact List.mem_append_right _ (List.mem_singleton_self _)
  · rcases List.mem_append.mp hf with hf | hf
    · obtain ⟨e', he'⟩ := h.below i f hf j hj
      exact ⟨e', List.mem_append_left _ he'⟩
    · obtain ⟨hi, -⟩ := Output.apply.inj (List.mem_singleton.mp hf)
      rcases Nat.lt_or_ge j s.sm.length with hlt | hge
      · exact ⟨_, List.mem_append_left _ (h.handed j _ (List.getElem?_eq_getElem hlt))⟩
      · obtain rfl : j = k := by omega
        exact ⟨e, List.mem_append_right _ (List.mem_singleton_self _)⟩

theorem stays_applyLoop (k : ℕ) : Stays P (applyLoop K k) := by
  induction k with
  | zero => exact stays_pure ()
  | succ k ih =>
      intro s hs he
      refine meets_read_bind (meets_ite (fun _ => ?_) fun _ => meets_pure ⟨hs, he⟩)
      dsimp only
      -- what is read may be out of range as far as this module knows
      have hentry : Meets (keeps P) () s (entryAt (s.lastApplied + 1)) (fun _ _ t =>
          Sound P t ∧ InStep t ∧ t.lastApplied = s.lastApplied) := by
        refine meets_read_bind (meets_bind (meets_when (fun _ => ?_) fun _ => ?_))
        · have hs' : Sound P { s with out := s.out ++ [.entryAtOutOfRange (s.lastApplied + 1)] } :=
            hs.lines (fun x hx => by rw [List.mem_singleton.mp hx]; trivial) rfl rfl rfl
          exact meets_keeps ⟨List.prefix_rfl, List.prefix_append _ _⟩ hs'
            (meets_pure ⟨hs', he, rfl⟩)
        · exact meets_pure ⟨hs, he, rfl⟩
      refine meets_bind (meets_mono hentry fun entry _ t ht => ?_)
      obtain ⟨ht, hte, hla⟩ := ht
      have hk : t.sm.length = s.lastApplied := hte.trans hla
      have hover := ht.handOver hk entry
      have hgrew : Added t { t with
          sm := t.sm ++ [entry], out := t.out ++ [.apply (s.lastApplied + 1) entry] } :=
        ⟨List.prefix_append _ _, List.prefix_append _ _⟩
      have hlen : (t.sm ++ [entry]).length = s.lastApplied + 1 := by
        rw [List.length_append, hk]
        rfl
      cases K.applySink with
      | some sink =>
          refine meets_ite (fun _ => ?_) fun _ => meets_pure ⟨ht, hte⟩
          refine meets_bind (meets_keeps hgrew hover ?_)
          have hdone := hover.lines (t := { t with
            sm := t.sm ++ [entry], out := t.out ++ [.apply (s.lastApplied + 1) entry],
            lastApplied := s.lastApplied + 1 }) (o := [])
            (fun _ h => (List.not_mem_nil h).elim) rfl rfl (List.append_nil _).symm
          exact meets_bind (meets_keeps ⟨List.prefix_rfl, List.prefix_rfl⟩ hdone
            (ih _ hdone hlen))
      | none =>
          have hfirst := ht.lines (t := { t with lastApplied := s.lastApplied + 1 }) (o := [])
            (fun _ h => (List.not_mem_nil h).elim) rfl rfl (List.append_nil _).symm
          refine meets_bind (meets_keeps ⟨List.prefix_rfl, List.prefix_rfl⟩ hfirst ?_)
          have hdone := hfirst.handOver hk entry
          exact meets_bind (meets_keeps ⟨List.prefix_append _ _, List.prefix_append _ _⟩ hdone
            (ih _ hdone hlen))

theorem stays_applyCommitted : Stays P (applyCommitted K) :=
  stays_read fun _ _ => stays_applyLoop _

theorem stays_commitScan (n : ℕ) : Stays P (commitScan K n) := by
  induction n with
  | zero => exact stays_pure ()
  | succ n ih =>
      refine stays_read fun s _ => stays_ite (fun _ => ?_) fun _ => stays_pure ()
      refine stays_bind (stays_termAt _) fun t => stays_ite (fun _ => stays_pure ()) fun _ => ?_
      refine stays_ite (fun _ => ?_) fun _ => ih
      exact stays_bind (stays_plain fun _ => ⟨rfl, rfl, rfl, rfl⟩) fun _ => stays_applyCommitted

theorem stays_advanceCommit : Stays P (advanceCommit K) :=
  stays_read fun _ _ => stays_commitScan _

/-! ## 4. The handlers -/

/-- An AppendEntries carries entries of the log. -/
theorem stays_sendAppendEntries (p : NodeId) : Stays P (sendAppendEntries K p) := by
  refine stays_read fun s hs => stays_bind (stays_termAt _) fun v t ht he => ?_
  have ht' : ∀ ae : AppendEntries, ae.entries = s.log.entriesSpan (s.nextIndex.getD p 0) →
      Sound P { t with out := t.out ++ [.send p (.appendEntries ae)] } := by
    intro ae hae
    refine ⟨ht.log, fun q ae' ho e he => ?_, fun i e hi => ?_, fun i e ho j hj => ?_⟩
    · rcases List.mem_append.mp ho with ho | ho
      · exact ht.sent q ae' ho e he
      · obtain ⟨-, ho⟩ := Output.send.inj (List.mem_singleton.mp ho)
        rw [Message.appendEntries.inj ho, hae] at he
        exact hs.log e (InMemoryLog.mem_of_mem_entriesSpan he)
    · exact List.mem_append_left _ (ht.handed i e hi)
    · have ho := (List.mem_append.mp ho).resolve_right fun ho => by cases List.mem_singleton.mp ho
      obtain ⟨e', he'⟩ := ht.below i e ho j hj
      exact ⟨e', List.mem_append_left _ he'⟩
  exact meets_keeps ⟨List.prefix_rfl, List.prefix_append _ _⟩ (ht' _ rfl) ⟨ht' _ rfl, he⟩

theorem stays_sendHeartbeats : Stays P (sendHeartbeats K) :=
  stays_bind (stays_forM fun _ _ => stays_sendAppendEntries _) fun _ =>
    stays_plain fun _ => ⟨rfl, rfl, rfl, rfl⟩

/-- What follows the append of a proposal. -/
theorem stays_replicate {f : RaftCore → ℕ} : Stays P (do
    let s ← Prog.read
    advanceCommit K
    K.peers.forM (sendAppendEntries K)
    armHeartbeat K
    pure (some (f s))) :=
  stays_read fun _ _ => stays_bind stays_advanceCommit fun _ =>
    stays_bind (stays_forM fun _ _ => stays_sendAppendEntries _) fun _ =>
      stays_bind (stays_plain fun _ => ⟨rfl, rfl, rfl, rfl⟩) fun _ => stays_pure _

theorem stays_propose {command : Bytes} (h : P command) : Stays P (propose K command) := by
  refine stays_read fun s _ => stays_ite (fun _ => stays_pure none) fun _ => ?_
  exact stays_bind (stays_append fun e he => by rw [List.mem_singleton.mp he]; exact h)
    fun _ => stays_replicate

theorem stays_proposeBatch {commands : List Bytes} (h : ∀ c ∈ commands, P c) :
    Stays P (proposeBatch K commands) := by
  refine stays_read fun s _ => stays_ite (fun _ => stays_pure none) fun _ => ?_
  refine stays_bind (stays_append fun e he => ?_) fun _ => stays_replicate
  obtain ⟨c, hc, rfl⟩ := List.mem_map.mp he
  exact h c hc

theorem stays_transition (ev : TransitionEvent) : Stays P (transition ev) :=
  stays_read fun _ _ => stays_emit trivial

theorem stays_becomeFollower (T : ℕ) (ev : TransitionEvent) : Stays P (becomeFollower K T ev) := by
  refine stays_read fun s _ => stays_bind (stays_when fun _ => ?_) fun _ => ?_
  · exact stays_bind (stays_plain fun _ => ⟨rfl, rfl, rfl, rfl⟩) fun _ =>
      stays_plain fun _ => ⟨rfl, rfl, rfl, rfl⟩
  · refine stays_read fun s _ => stays_bind (stays_when fun _ => ?_) fun _ => ?_
    · exact stays_bind (stays_plain fun _ => ⟨rfl, rfl, rfl, rfl⟩) fun _ =>
        stays_plain fun _ => ⟨rfl, rfl, rfl, rfl⟩
    · exact stays_bind (stays_plain fun _ => ⟨rfl, rfl, rfl, rfl⟩) fun _ => stays_transition ev

theorem stays_becomeLeader : Stays P (becomeLeader K) := by
  refine stays_bind (fun s hs he => ?_) fun _ => stays_sendHeartbeats
  have hs' : Sound P { s with
      role := .leader
      leaderId := some K.self
      nextIndex := indexAll K.peers (s.log.lastIndex + 1)
      matchIndex := indexAll K.peers 0
      electionDeadline := none
      out := s.out ++ [.transition s.currentTerm .leader .wonElection s.log] } :=
    hs.lines (fun x hx => by rw [List.mem_singleton.mp hx]; trivial) rfl rfl rfl
  exact meets_keeps ⟨List.prefix_rfl, List.prefix_append _ _⟩ hs' ⟨hs', he⟩

theorem stays_startElection : Stays P (startElection K) := by
  refine stays_read fun s _ => stays_bind (stays_plain fun _ => ⟨rfl, rfl, rfl, rfl⟩) fun _ => ?_
  refine stays_bind (stays_plain fun _ => ⟨rfl, rfl, rfl, rfl⟩) fun _ => ?_
  refine stays_bind (stays_plain fun _ => ⟨rfl, rfl, rfl, rfl⟩) fun _ => ?_
  refine stays_bind (stays_transition _) fun _ => stays_read fun s _ => ?_
  refine stays_bind (stays_forM fun _ _ => stays_emit trivial) fun _ => stays_read fun s _ => ?_
  exact stays_when fun _ => stays_becomeLeader

theorem stays_tick : Stays P (tick K) :=
  stays_read fun _ _ => stays_ite (fun _ => stays_startElection) fun _ =>
    stays_when fun _ => stays_sendHeartbeats

theorem stays_onRequestVote (p : NodeId) (rv : RequestVote) : Stays P (onRequestVote K p rv) := by
  refine stays_read fun s _ => stays_ite (fun _ => stays_emit trivial) fun _ => ?_
  refine stays_bind (stays_when fun _ => ?_) fun _ => stays_emit trivial
  exact stays_bind (stays_plain fun _ => ⟨rfl, rfl, rfl, rfl⟩) fun _ =>
    stays_plain fun _ => ⟨rfl, rfl, rfl, rfl⟩

theorem stays_onRequestVoteReply (p : NodeId) (r : RequestVoteReply) :
    Stays P (onRequestVoteReply K p r) := by
  refine stays_read fun s _ => stays_when fun _ => ?_
  refine stays_bind (stays_plain fun _ => ⟨rfl, rfl, rfl, rfl⟩) fun _ => stays_read fun s _ => ?_
  exact stays_when fun _ => stays_becomeLeader

theorem stays_firstOfTerm (c : ℕ) : ∀ i, Stays P (firstOfTerm c i)
  | 0 => stays_pure 0
  | 1 => stays_pure 1
  | i + 2 => stays_bind (stays_termAt _) fun _ =>
      stays_ite (fun _ => stays_firstOfTerm c (i + 1)) fun _ => stays_pure _

/-- The walk over the incoming entries returns some of them. -/
theorem meets_resolveConflicts {es : List LogEntry} : ∀ {idx : ℕ} {s : RaftCore}, Sound P s →
    InStep s → Meets (keeps P) () s (resolveConflicts idx es)
      (fun rest _ t => (Sound P t ∧ InStep t) ∧ ∀ e ∈ rest, e ∈ es) := by
  induction es with
  | nil => exact fun hs he => meets_pure ⟨⟨hs, he⟩, fun _ h => h⟩
  | cons e es ih =>
      intro idx s hs he
      refine meets_read_bind (meets_ite (fun _ => meets_pure ⟨⟨hs, he⟩, fun _ h => h⟩) fun _ => ?_)
      refine meets_bind (meets_mono (stays_termAt idx s hs he) fun v _ t ht => ?_)
      refine meets_ite (fun _ => ?_) fun _ => ?_
      · have hw : Stays P (Prog.when (idx ≤ s.commitIndex) (emit (.logMatchingViolation idx))) :=
          stays_when fun _ => stays_emit trivial
        refine meets_bind (meets_mono (hw t ht.1 ht.2) fun _ _ u hu => ?_)
        refine meets_bind (meets_mono (stays_truncateSuffixFrom idx u hu.1 hu.2) fun _ _ x hx => ?_)
        exact meets_pure ⟨hx, fun _ h => h⟩
      · exact meets_mono (ih ht.1 ht.2) fun rest _ u hu =>
          ⟨hu.1, fun x hx => List.mem_cons_of_mem e (hu.2 x hx)⟩

theorem stays_acceptEntries {p : NodeId} {ae : AppendEntries} {cur : ℕ}
    (h : ∀ e ∈ ae.entries, P e.command) : Stays P (acceptEntries K p ae cur) := by
  intro s hs he
  refine meets_bind (meets_mono (meets_resolveConflicts hs he) fun rest _ t ht => ?_)
  have happ : Stays P (append rest) := stays_append fun e he => h e (ht.2 e he)
  refine meets_bind (meets_mono (happ t ht.1.1 ht.1.2) fun _ _ u hu => ?_)
  refine stays_read (f := fun s => _) (fun x _ => ?_) u hu.1 hu.2
  refine stays_bind (stays_when fun _ => ?_) fun _ => stays_emit trivial
  exact stays_bind (stays_plain fun _ => ⟨rfl, rfl, rfl, rfl⟩) fun _ => stays_applyCommitted

theorem stays_checkEntries {p : NodeId} {ae : AppendEntries} {cur : ℕ}
    (h : ∀ e ∈ ae.entries, P e.command) : Stays P (checkEntries K p ae cur) := by
  refine stays_read fun s _ => stays_ite (fun _ => stays_emit trivial) fun _ => ?_
  refine stays_bind (stays_termAt _) fun c => stays_ite (fun _ => ?_) fun _ => stays_acceptEntries h
  exact stays_bind (stays_firstOfTerm c _) fun _ => stays_emit trivial

theorem stays_onAppendEntries {p : NodeId} {ae : AppendEntries}
    (h : ∀ e ∈ ae.entries, P e.command) : Stays P (onAppendEntries K p ae) := by
  refine stays_read fun s _ => stays_ite (fun _ => stays_emit trivial) fun _ => ?_
  refine stays_ite (fun _ => stays_emit trivial) fun _ => ?_
  refine stays_bind (stays_plain fun _ => ⟨rfl, rfl, rfl, rfl⟩) fun _ => ?_
  refine stays_bind (stays_when fun _ => stays_becomeFollower _ _) fun _ => ?_
  exact stays_bind (stays_plain fun _ => ⟨rfl, rfl, rfl, rfl⟩) fun _ => stays_checkEntries h

theorem stays_lastOfTerm (c : ℕ) : ∀ i, Stays P (lastOfTerm c i)
  | 0 => stays_pure 0
  | i + 1 => stays_bind (stays_termAt _) fun _ =>
      stays_ite (fun _ => stays_pure _) fun _ => stays_lastOfTerm c i

theorem stays_hintedNext (r : AppendEntriesReply) : Stays P (hintedNext r) :=
  stays_ite (fun _ => stays_pure _) fun _ => stays_read fun _ _ =>
    stays_bind (stays_lastOfTerm _ _) fun _ => stays_pure _

theorem stays_onAppendEntriesReply (p : NodeId) (r : AppendEntriesReply) :
    Stays P (onAppendEntriesReply K p r) := by
  refine stays_read fun s _ => stays_ite (fun _ => stays_pure ()) fun _ => ?_
  refine stays_ite (fun _ => stays_pure ()) fun _ => stays_ite (fun _ => ?_) fun _ => ?_
  · refine stays_ite (fun _ => stays_emit trivial) fun _ => stays_when fun _ => ?_
    refine stays_bind (stays_plain fun _ => ⟨rfl, rfl, rfl, rfl⟩) fun _ => ?_
    refine stays_bind stays_advanceCommit fun _ => stays_read fun s _ => ?_
    exact stays_when fun _ => stays_sendAppendEntries p
  · refine stays_bind (stays_hintedNext r) fun _ => ?_
    exact stays_bind (stays_plain fun _ => ⟨rfl, rfl, rfl, rfl⟩) fun _ => stays_sendAppendEntries p

/-! ## 5. A whole call -/

/-- The commands a call brings in are of `P`. -/
def Input.Brings (P : Bytes → Prop) : Input → Prop
  | .handle _ (.appendEntries ae) => ∀ e ∈ ae.entries, P e.command
  | .propose c => P c
  | .proposeBatch cs => ∀ c ∈ cs, P c
  | _ => True

theorem stays_liftTerm (m : Message) : Stays P (liftTerm K m) := by
  refine stays_read fun s _ => ?_
  cases termOf m with
  | none => exact stays_pure ()
  | some t => exact stays_when fun _ => stays_becomeFollower _ _

/-- **Every call keeps the property at every moment.** -/
theorem stays_step {i : Input} (h : i.Brings P) : Stays P (step K i) := by
  cases i with
  | start => exact stays_plain fun _ => ⟨rfl, rfl, rfl, rfl⟩
  | tick => exact stays_tick
  | handle p m =>
      refine stays_bind (stays_liftTerm m) fun _ => ?_
      cases m with
      | requestVote rv => exact stays_onRequestVote p rv
      | requestVoteReply r => exact stays_onRequestVoteReply p r
      | appendEntries ae => exact stays_onAppendEntries h
      | appendEntriesReply r => exact stays_onAppendEntriesReply p r
      | clientRequest req => exact stays_when fun _ => stays_emit trivial
      | clientReply rep => exact stays_pure ()
  | propose c => exact stays_bind (stays_propose h) fun _ => stays_pure ()
  | proposeBatch cs => exact stays_bind (stays_proposeBatch h) fun _ => stays_pure ()
  | pumpApply => exact stays_applyCommitted

end Rsm.Raft
