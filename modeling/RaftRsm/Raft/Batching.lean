/-
  File:      RaftRsm/Raft/Batching.lean
  Subject:   A BATCH IS ITS PROPOSALS, ONE AFTER THE OTHER, where entries are applied inline.

  The scan of `advanceCommit` finds the greatest index that a majority holds, in the run of entries of
  the current term at the end of the log. A scan after every append ends where one scan after all of
  them ends, so a batch and its single proposals commit and apply the same entries.

  * `commitPoint`, `commitPoint_again` -- the scan, and two of them one after the other;
  * `Settled K es s t` -- everything that appending `es` to a leader's log does to its core;
  * `Settled.trans` -- two appends are one;
  * `proposeBatch_repeats_propose` -- a batch against single proposals.
-/
import RaftRsm.Raft.Proposing

namespace Rsm.Raft

open Rsm.Rpc Rsm.Storage Process

/-! ## 1. The scan for the commit index -/

section CommitPoint

/-- Downwards from `n` to the commit index `c`, as long as the entries are of the leader's own term:
    the first index that a majority holds, or `c`. -/
def commitPoint (own held : ℕ → Prop) [DecidablePred own] [DecidablePred held] (c : ℕ) : ℕ → ℕ
  | 0 => c
  | n + 1 => if c < n + 1 ∧ own (n + 1) then
      if held (n + 1) then n + 1 else commitPoint own held c n
    else c

/-- An index that the scan from `n` could stop at. -/
structure Committable (own held : ℕ → Prop) (c n i : ℕ) : Prop where
  gt : c < i
  le : i ≤ n
  run : ∀ j, i ≤ j → j ≤ n → own j
  held : held i

variable {own own' held : ℕ → Prop} {c c' m n i : ℕ}

theorem Committable.weaken (h : Committable own held c' n i) (hc : c ≤ c') :
    Committable own held c n i := ⟨Nat.lt_of_le_of_lt hc h.gt, h.le, h.run, h.held⟩

theorem Committable.shorten (h : Committable own held c n i) (hi : i ≤ m) (hm : m ≤ n) :
    Committable own held c m i := ⟨h.gt, hi, fun j h1 h2 => h.run j h1 (h2.trans hm), h.held⟩

theorem Committable.lengthen (h : Committable own held c m i) (hm : m ≤ n)
    (hrun : ∀ j, m < j → j ≤ n → own j) : Committable own held c n i :=
  ⟨h.gt, h.le.trans hm, fun j h1 h2 => (Nat.lt_or_ge m j).elim (fun h => hrun j h h2) (h.run j h1), h.held⟩

variable [DecidablePred own] [DecidablePred held]

/-- Where the scan stops: at the commit index, or at an index it could stop at. -/
theorem commitPoint_cases (own held : ℕ → Prop) [DecidablePred own] [DecidablePred held] (c : ℕ) :
    ∀ n, commitPoint own held c n = c ∨ Committable own held c n (commitPoint own held c n)
  | 0 => .inl rfl
  | n + 1 => by
      unfold commitPoint
      split_ifs with h1 h2
      · exact .inr ⟨h1.1, Nat.le_refl _, fun j hj hj' => Nat.le_antisymm hj hj' ▸ h1.2, h2⟩
      · refine (commitPoint_cases own held c n).imp id fun h =>
          h.lengthen (Nat.le_succ n) fun j hj hj' => ?_
        exact Nat.le_antisymm hj hj' ▸ h1.2
      · exact .inl rfl

/-- It stops at the greatest. -/
theorem Committable.le_commitPoint : ∀ {n i : ℕ}, Committable own held c n i →
    i ≤ commitPoint own held c n
  | 0, i, h => h.le.trans (Nat.zero_le _)
  | n + 1, i, h => by
      have hgt : c < n + 1 := Nat.lt_of_lt_of_le h.gt h.le
      have hown : own (n + 1) := h.run _ h.le (Nat.le_refl _)
      unfold commitPoint
      rw [if_pos ⟨hgt, hown⟩]
      split_ifs with hheld
      · exact h.le
      · have hne : i ≠ n + 1 := fun hi => hheld (hi ▸ h.held)
        exact (h.shorten (Nat.le_of_lt_succ (Nat.lt_of_le_of_ne h.le hne)) (Nat.le_succ n)).le_commitPoint

theorem le_commitPoint (n : ℕ) : c ≤ commitPoint own held c n := by
  rcases commitPoint_cases own held c n with h | h
  · exact Nat.le_of_eq h.symm
  · exact h.gt.le

/-- **Scanning again**, after more entries of the same term have come, is scanning once. -/
theorem commitPoint_again (hm : m ≤ n) (hrun : ∀ j, m < j → j ≤ n → own j) :
    commitPoint own held (commitPoint own held c m) n = commitPoint own held c n := by
  have hc : c ≤ commitPoint own held c m := le_commitPoint m
  apply Nat.le_antisymm
  · rcases commitPoint_cases own held (commitPoint own held c m) n with h | h
    · rw [h]
      rcases commitPoint_cases own held c m with h' | h'
      · rw [h']
        exact le_commitPoint n
      · exact (h'.lengthen hm hrun).le_commitPoint
    · exact (h.weaken hc).le_commitPoint
  · rcases commitPoint_cases own held c n with h | h
    · rw [h]
      exact hc.trans (le_commitPoint n)
    · by_cases hle : commitPoint own held c n ≤ commitPoint own held c m
      · exact hle.trans (le_commitPoint n)
      · have hgt := Nat.lt_of_not_le hle
        exact (Committable.mk hgt h.le h.run h.held).le_commitPoint

/-- The scan reads the terms up to where it begins. -/
theorem commitPoint_congr [DecidablePred own'] (h : ∀ j ≤ n, own j ↔ own' j) :
    commitPoint own held c n = commitPoint own' held c n := by
  induction n with
  | zero => rfl
  | succ n ih =>
      unfold commitPoint
      rw [ih fun j hj => h j (Nat.le_succ_of_le hj)]
      exact if_congr (and_congr_right fun _ => h _ (Nat.le_refl _)) rfl rfl

end CommitPoint

/-! ## 2. What `advanceCommit` does to a core that applies inline -/

variable {K : Ctx} {s t u : RaftCore}

/-- The entries handed over among the lines of a history, with their indices. -/
def applied (o : List Output) : List (ℕ × LogEntry) := o.filterMap fun
  | .apply i e => some (i, e)
  | _ => none

theorem applied_append (o o' : List Output) : applied (o ++ o') = applied o ++ applied o' :=
  List.filterMap_append

/-- Entries with their indices, the first of them behind `i`. -/
def numbered : ℕ → List LogEntry → List (ℕ × LogEntry)
  | _, [] => []
  | i, e :: es => (i + 1, e) :: numbered (i + 1) es

theorem numbered_append (i : ℕ) (es fs : List LogEntry) :
    numbered i (es ++ fs) = numbered i es ++ numbered (i + es.length) fs := by
  induction es generalizing i with
  | nil => rfl
  | cons e es ih => simp only [List.cons_append, numbered, ih, List.length_cons, Nat.add_assoc, Nat.add_comm 1]

theorem ends_termAt_inside {i : ℕ} (h : i ≤ s.log.length) :
    Ends s (termAt i) (fun v t => v = s.log.termAt i ∧ t = s) :=
  meets_read_bind (meets_bind (meets_when (fun hn => absurd h hn) fun _ => meets_pure ⟨rfl, rfl⟩))

theorem ends_entryAt_inside {i : ℕ} (h : i < s.log.length) :
    Ends s (entryAt (i + 1)) (fun v t => v = s.log[i] ∧ t = s) := by
  refine meets_read_bind (meets_bind (meets_when (fun hn => ?_) fun _ => meets_pure ⟨?_, rfl⟩))
  · exact absurd ⟨Nat.le_add_left 1 i, h⟩ hn
  · exact InMemoryLog.entryAt_succ (List.getElem?_eq_getElem h)

/-- The entries between what has been applied and the index `c`. -/
def dueTo (s : RaftCore) (c : ℕ) : List LogEntry := (s.log.drop s.lastApplied).take (c - s.lastApplied)

/-- **Everything committed has been applied**, in order. -/
def CaughtUp (s t : RaftCore) : Prop :=
  ∃ o, sends o = [] ∧ applied o = numbered s.lastApplied (dueTo s s.commitIndex) ∧
    t = { s with
      sm := s.sm ++ dueTo s s.commitIndex, lastApplied := max s.lastApplied s.commitIndex
      out := s.out ++ o }

theorem caughtUp_refl (h : s.commitIndex ≤ s.lastApplied) : CaughtUp s s := by
  have hdue : dueTo s s.commitIndex = [] := by
    rw [dueTo, Nat.sub_eq_zero_of_le h, List.take_zero]
  refine ⟨[], rfl, by rw [hdue]; rfl, ?_⟩
  rw [hdue, Nat.max_eq_left h, List.append_nil, List.append_nil]

theorem ends_applyLoop_inline (hsink : K.applySink = none) : ∀ {k : ℕ} {s : RaftCore},
    k = s.commitIndex - s.lastApplied → s.commitIndex ≤ s.log.length →
      Ends s (applyLoop K k) (fun _ => CaughtUp s)
  | 0, s, hk, _ => meets_pure (caughtUp_refl (Nat.le_of_sub_eq_zero hk.symm))
  | k + 1, s, hk, hc => by
      have hlt : s.lastApplied < s.commitIndex := by omega
      have hin : s.lastApplied < s.log.length := by omega
      refine meets_read_bind (meets_ite (fun _ => ?_) fun hn => absurd hlt hn)
      refine meets_bind (meets_mono (ends_entryAt_inside hin) fun e _ t ht => ?_)
      obtain ⟨rfl, rfl⟩ := ht
      rw [hsink]
      refine ends_write_bind (ends_write_bind ?_)
      refine meets_mono (ends_applyLoop_inline hsink (by dsimp only; omega) hc) fun _ _ u hu => ?_
      -- the entry just applied is the first of those that were due
      have hdue : dueTo t t.commitIndex = t.log[t.lastApplied] ::
          (t.log.drop (t.lastApplied + 1)).take (t.commitIndex - (t.lastApplied + 1)) := by
        rw [dueTo, List.drop_eq_getElem_cons hin, Nat.sub_add_eq,
          ← List.take_succ_cons, Nat.sub_add_cancel (by omega)]
      obtain ⟨o, ho, happ, rfl⟩ := hu
      refine ⟨.apply (t.lastApplied + 1) t.log[t.lastApplied] :: o, ho, ?_, ?_⟩
      · rw [hdue]
        exact congrArg (List.cons _) happ
      · have hmax : max (t.lastApplied + 1) t.commitIndex = max t.lastApplied t.commitIndex := by omega
        rw [hdue]
        simp only [dueTo, hmax, List.append_assoc, List.singleton_append]

theorem ends_applyCommitted_inline (hsink : K.applySink = none) (hc : s.commitIndex ≤ s.log.length) :
    Ends s (applyCommitted K) (fun _ => CaughtUp s) :=
  meets_read_bind (ends_applyLoop_inline hsink rfl hc)

/-- Where the scan of `advanceCommit` stops, from the index `n` of the log. -/
def commitFrom (K : Ctx) (s : RaftCore) (n : ℕ) : ℕ :=
  commitPoint (fun i => s.log.termAt i = s.currentTerm) (fun i => K.majority ≤ replicas s i)
    s.commitIndex n

/-- The commit index has reached `c`, and what that makes due has been applied. -/
def Reaches (s : RaftCore) (c : ℕ) (t : RaftCore) : Prop :=
  (c = s.commitIndex ∧ t = s) ∨ (s.commitIndex < c ∧ CaughtUp { s with commitIndex := c } t)

/-- **The scan**: it leaves everything, or what follows is applied from the index it has found. -/
theorem ends_commitScan_from {Q : Unit → RaftCore → Prop} : ∀ {n : ℕ} {s : RaftCore}, n ≤ s.log.length →
    (commitFrom K s n = s.commitIndex → Q () s) →
    (s.commitIndex < commitFrom K s n → commitFrom K s n ≤ s.log.length →
      Ends { s with commitIndex := commitFrom K s n } (applyCommitted K) Q) →
    Ends s (commitScan K n) Q
  | 0, _, _, h0, _ => meets_pure (h0 rfl)
  | n + 1, s, hn, h0, h1 => by
      refine meets_read_bind (meets_ite (fun hgt => ?_) fun hle => ?_)
      · refine meets_bind (meets_mono (ends_termAt_inside hn) fun v _ t ht => ?_)
        obtain ⟨rfl, rfl⟩ := ht
        refine meets_ite (fun hne => ?_) fun heq => ?_
        · exact meets_pure (h0 (if_neg fun h => hne h.2))
        · rw [not_not] at heq
          have hround : commitFrom K t (n + 1) =
              if K.majority ≤ replicas t (n + 1) then n + 1 else commitFrom K t n := if_pos ⟨hgt, heq⟩
          refine meets_ite (fun hmaj => ?_) fun hmin => ?_
          · rw [hround, if_pos hmaj] at h1
            exact ends_write_bind (h1 hgt hn)
          · rw [hround, if_neg hmin] at h0 h1
            exact ends_commitScan_from (Nat.le_of_succ_le hn) h0 h1
      · exact meets_pure (h0 (if_neg fun h => hle h.1))

theorem ends_commitScan_inline (hsink : K.applySink = none) {n : ℕ} (hn : n ≤ s.log.length) :
    Ends s (commitScan K n) (fun _ => Reaches s (commitFrom K s n)) := by
  refine ends_commitScan_from hn (fun h => .inl ⟨h, rfl⟩) fun hlt hle => ?_
  exact meets_mono (ends_applyCommitted_inline hsink hle) fun _ _ u hu => .inr ⟨hlt, hu⟩

theorem ends_advanceCommit_inline (hsink : K.applySink = none) :
    Ends s (advanceCommit K) (fun _ => Reaches s (commitFrom K s s.log.length)) :=
  meets_read_bind (ends_commitScan_inline hsink (Nat.le_refl _))

/-! ## 3. Appending to a leader's log -/

section Handed

variable {l m : List LogEntry} {a c c₁ c₂ : ℕ}

/-- What a core with `a` entries applied hands over when its commit index goes from `c` to `c₁`. -/
def handed (l : List LogEntry) (a c c₁ : ℕ) : List LogEntry := if c < c₁ then (l.take c₁).drop a else []

/-- How many entries it has applied then. -/
def appliedAt (a c c₁ : ℕ) : ℕ := if c < c₁ then max a c₁ else a

theorem length_handed (h : c < c₁ → c₁ ≤ l.length) : a + (handed l a c c₁).length = appliedAt a c c₁ := by
  unfold handed appliedAt
  split_ifs with hlt
  · have := h hlt
    rw [List.length_drop, List.length_take]
    omega
  · rfl

theorem appliedAt_again (h : c ≤ c₁) (h' : c₁ ≤ c₂) :
    appliedAt (appliedAt a c c₁) c₁ c₂ = appliedAt a c c₂ := by
  unfold appliedAt
  split_ifs <;> omega

/-- **Going on** hands over the rest. -/
theorem handed_again (h : c ≤ c₁) (h' : c₁ ≤ c₂) (hl : c < c₁ → c₁ ≤ l.length) :
    handed (l ++ m) a c c₂ = handed l a c c₁ ++ handed (l ++ m) (appliedAt a c c₁) c₁ c₂ := by
  unfold handed appliedAt
  by_cases hlt : c < c₁
  · have hle := hl hlt
    have hfirst : l.take c₁ = (l ++ m).take c₁ := (List.take_append_of_le_length hle).symm
    have hlen : ((l ++ m).take c₁).length = c₁ := by
      rw [List.length_take, List.length_append]
      omega
    have hsplit : (l ++ m).take c₂ = (l ++ m).take c₁ ++ ((l ++ m).take c₂).drop c₁ := by
      rw [← List.take_append_drop c₁ ((l ++ m).take c₂), List.take_take, Nat.min_eq_left h',
        List.drop_left' hlen]
    rw [if_pos hlt, if_pos (Nat.lt_of_lt_of_le hlt h'), if_pos hlt, hfirst]
    by_cases hmore : c₁ < c₂
    · rw [if_pos hmore]
      by_cases ha : a ≤ c₁
      · rw [Nat.max_eq_right ha]
        nth_rewrite 1 [hsplit]
        rw [List.drop_append_of_le_length (Nat.le_trans ha (Nat.le_of_eq hlen.symm))]
      · have hnone : ((l ++ m).take c₁).drop a = [] := List.drop_eq_nil_of_le (by omega)
        rw [hnone, Nat.max_eq_left (by omega), List.nil_append]
    · rw [if_neg hmore, List.append_nil, Nat.le_antisymm (Nat.le_of_not_lt hmore) h']
  · rw [if_neg hlt, if_neg hlt, List.nil_append, Nat.le_antisymm (Nat.le_of_not_lt hlt) h]

end Handed

/-- Where the commit index goes when a leader appends `es`. -/
def appendedCommit (K : Ctx) (s : RaftCore) (es : List LogEntry) : ℕ :=
  commitFrom K { s with log := s.log ++ es } (s.log.length + es.length)

/-- **Everything that appending `es` and telling the peers does to a leader**: what stays, what moves,
    what is applied, and that the last thing sent to each peer is built from the core at the end. -/
structure Settled (K : Ctx) (es : List LogEntry) (s t : RaftCore) : Prop where
  core : t = { s with
    log := s.log ++ es
    commitIndex := appendedCommit K s es
    sm := s.sm ++ handed (s.log ++ es) s.lastApplied s.commitIndex (appendedCommit K s es)
    lastApplied := appliedAt s.lastApplied s.commitIndex (appendedCommit K s es)
    heartbeatDeadline := some (K.now + K.cfg.heartbeatInterval)
    out := t.out }
  emits : ∃ ms, Emits s t (ms ++ broadcast K t)
  applied : applied t.out = applied s.out ++
    numbered s.lastApplied (handed (s.log ++ es) s.lastApplied s.commitIndex (appendedCommit K s es))

theorem le_appendedCommit (K : Ctx) (s : RaftCore) (es : List LogEntry) :
    s.commitIndex ≤ appendedCommit K s es := le_commitPoint _

theorem appendedCommit_le {es : List LogEntry} (h : s.commitIndex < appendedCommit K s es) :
    appendedCommit K s es ≤ (s.log ++ es).length := by
  rw [List.length_append]
  unfold appendedCommit commitFrom at h ⊢
  rcases commitPoint_cases (fun i => (s.log ++ es).termAt i = s.currentTerm)
    (fun i => K.majority ≤ replicas { s with log := s.log ++ es } i) s.commitIndex
    (s.log.length + es.length) with heq | hin
  · exact absurd heq (Nat.ne_of_gt h)
  · exact hin.le

theorem termAt_append_left {l m : InMemoryLog} {i : ℕ} (h : i ≤ l.length) :
    InMemoryLog.termAt (l ++ m) i = l.termAt i :=
  InMemoryLog.termAt_of_take (List.take_append_of_le_length h)

theorem termAt_append_right {l m : InMemoryLog} {i T : ℕ} (hm : ∀ e ∈ m, e.term = T) (h : l.length < i)
    (h' : i ≤ l.length + m.length) : InMemoryLog.termAt (l ++ m) i = T := by
  obtain ⟨j, rfl⟩ := Nat.exists_eq_add_of_lt h
  have hj : j < m.length := by omega
  have hget : (l ++ m)[l.length + j]? = some m[j] := by
    rw [List.getElem?_append_right (Nat.le_add_right _ _), Nat.add_sub_cancel_left,
      List.getElem?_eq_getElem hj]
  rw [InMemoryLog.termAt_succ hget]
  exact hm _ (List.getElem_mem hj)

/-- **The commit index after two appends** is that after one. -/
theorem appendedCommit_again {es fs : List LogEntry} (h : Settled K es s t)
    (hfs : ∀ e ∈ fs, e.term = s.currentTerm) :
    appendedCommit K t fs = appendedCommit K s (es ++ fs) := by
  have hrun : ∀ j, s.log.length + es.length < j → j ≤ s.log.length + (es ++ fs).length →
      (s.log ++ (es ++ fs)).termAt j = s.currentTerm := by
    intro j h1 h2
    rw [← List.append_assoc]
    rw [List.length_append] at h2
    exact termAt_append_right hfs (by rw [List.length_append]; omega) (by rw [List.length_append]; omega)
  have hfirst : appendedCommit K s es = commitPoint
      (fun i => (s.log ++ (es ++ fs)).termAt i = s.currentTerm)
      (fun i => K.majority ≤ replicas s i) s.commitIndex (s.log.length + es.length) := by
    refine commitPoint_congr fun j hj => ?_
    have hin : j ≤ (s.log ++ es).length := by
      rw [List.length_append]
      exact hj
    rw [← List.append_assoc, termAt_append_left hin]
  have hlen : (s.log ++ es).length + fs.length = s.log.length + (es ++ fs).length := by
    simp only [List.length_append]
    omega
  rw [h.core]
  unfold appendedCommit commitFrom
  dsimp only
  rw [List.append_assoc, hlen]
  refine Eq.trans ?_ (commitPoint_again (c := s.commitIndex) (m := s.log.length + es.length)
    (by rw [List.length_append]; omega) hrun)
  exact congrArg (fun c => commitPoint (fun i => (s.log ++ (es ++ fs)).termAt i = s.currentTerm)
    (fun i => K.majority ≤ replicas s i) c (s.log.length + (es ++ fs).length)) hfirst

/-- **Two appends are one.** -/
theorem Settled.trans {es fs : List LogEntry} (h : Settled K es s t) (k : Settled K fs t u)
    (hfs : ∀ e ∈ fs, e.term = s.currentTerm) : Settled K (es ++ fs) s u := by
  have hcommit := appendedCommit_again h hfs
  have hc := le_appendedCommit K s es
  have hc' := le_appendedCommit K t fs
  have hin : s.commitIndex < appendedCommit K s es → appendedCommit K s es ≤ (s.log ++ es).length :=
    appendedCommit_le
  have hlog : t.log = s.log ++ es := by rw [h.core]
  have hci : t.commitIndex = appendedCommit K s es := by rw [h.core]
  have hla : t.lastApplied = appliedAt s.lastApplied s.commitIndex (appendedCommit K s es) := by rw [h.core]
  rw [hcommit, hci] at hc'
  have hhanded := handed_again (m := fs) (a := s.lastApplied) hc hc' hin
  rw [List.append_assoc] at hhanded
  obtain ⟨ms, hms⟩ := h.emits
  obtain ⟨ms', hms'⟩ := k.emits
  refine ⟨?_, ⟨ms ++ broadcast K t ++ ms', ?_⟩, ?_⟩
  · have happ := appliedAt_again (a := s.lastApplied) hc hc'
    rw [k.core, hcommit, hlog, hci, hla, happ, hhanded, h.core]
    simp only [List.append_assoc]
  · rw [List.append_assoc]
    exact hms.trans hms'
  · rw [k.applied, h.applied, hcommit, hlog, hci, hla, List.append_assoc s.log, hhanded, numbered_append,
      length_handed hin, List.append_assoc]

/-! ## 4. The two ways to propose -/

theorem ends_emit_quiet {o : Output} (h : applied [o] = []) :
    Ends s (emit o) (fun _ t => applied t.out = applied s.out) := by
  refine ends_write ?_
  dsimp only
  rw [applied_append, h, List.append_nil]

/-- Sending hands nothing over. -/
theorem ends_sendAppendEntries_quiet (p : NodeId) :
    Ends s (sendAppendEntries K p) (fun _ t => applied t.out = applied s.out) := by
  have hsend : ∀ {t m}, applied t.out = applied s.out →
      Ends t (send p m) (fun _ u => applied u.out = applied s.out) :=
    fun ht => meets_mono (ends_emit_quiet rfl) fun _ _ u hu => hu.trans ht
  refine meets_read_bind (meets_bind (meets_read_bind (meets_bind (meets_when (fun _ => ?_) fun _ => ?_))))
  · exact meets_mono (ends_emit_quiet rfl) fun _ _ t ht => meets_pure (hsend ht)
  · exact meets_pure (hsend rfl)

theorem ends_broadcast_quiet :
    Ends s (K.peers.forM (sendAppendEntries K)) (fun _ t => applied t.out = applied s.out) :=
  meets_forM (P := fun _ t => applied t.out = applied s.out) rfl fun p _ _ _ ht =>
    meets_mono (ends_sendAppendEntries_quiet p) fun _ _ _ hu => hu.trans ht

theorem dueTo_eq (s : RaftCore) (c : ℕ) : dueTo s c = (s.log.take c).drop s.lastApplied := by
  rw [dueTo, List.drop_take]

/-- What `advanceCommit` leaves, where the core has just appended `es` to the log of `s`. -/
theorem Reaches.settled {es : List LogEntry}
    (h : Reaches { s with log := s.log ++ es } (appendedCommit K s es) t) :
    ∃ o, sends o = [] ∧
      applied o = numbered s.lastApplied
        (handed (s.log ++ es) s.lastApplied s.commitIndex (appendedCommit K s es)) ∧
      t = { s with
        log := s.log ++ es
        commitIndex := appendedCommit K s es
        sm := s.sm ++ handed (s.log ++ es) s.lastApplied s.commitIndex (appendedCommit K s es)
        lastApplied := appliedAt s.lastApplied s.commitIndex (appendedCommit K s es)
        out := s.out ++ o } := by
  unfold handed appliedAt
  rcases h with ⟨hc, rfl⟩ | ⟨hlt, o, ho, happ, rfl⟩
  · have hc : appendedCommit K s es = s.commitIndex := hc
    rw [hc, if_neg (Nat.lt_irrefl _), if_neg (Nat.lt_irrefl _)]
    exact ⟨[], rfl, rfl, by simp only [List.append_nil]⟩
  · have hlt : s.commitIndex < appendedCommit K s es := hlt
    rw [dueTo_eq] at happ ⊢
    rw [if_pos hlt, if_pos hlt]
    exact ⟨o, ho, happ, rfl⟩

/-- **What follows an append**: `s` is the core before it. -/
theorem ends_replicate_inline {α : Type} {v : α} {es : List LogEntry} (hsink : K.applySink = none) :
    Ends { s with log := s.log ++ es }
      (do advanceCommit K
          K.peers.forM (sendAppendEntries K)
          armHeartbeat K
          pure v)
      (fun r t => r = v ∧ Settled K es s t) := by
  refine meets_bind (meets_mono (ends_advanceCommit_inline hsink) fun _ _ t ht => ?_)
  dsimp only at ht
  rw [List.length_append] at ht
  obtain ⟨o, ho, happ, rfl⟩ := Reaches.settled (K := K) ht
  refine meets_bind (meets_mono (ends_and ends_broadcast ends_broadcast_quiet) fun _ _ t ht => ?_)
  obtain ⟨⟨o', rfl, ho'⟩, hquiet⟩ := ht
  refine ends_write_bind (meets_pure ⟨rfl, ?_, ⟨[], o ++ o', ?_, ?_⟩, ?_⟩)
  · rfl
  · exact List.append_assoc s.out o o'
  · rw [sends_append, ho, ho']
    rfl
  · dsimp only at hquiet ⊢
    rw [hquiet, applied_append, happ]

theorem ends_propose_inline (hsink : K.applySink = none) (h : s.role = .leader) (command : Bytes) :
    Ends s (propose K command) (fun v t => v = some (s.log.length + 1) ∧
      Settled K [⟨s.currentTerm, command⟩] s t) := by
  refine meets_read_bind (meets_ite (fun hr => absurd h hr) fun _ => ?_)
  refine meets_bind (meets_mono ends_append_eq fun _ _ t ht => ?_)
  subst ht
  refine meets_read_bind (meets_mono (ends_replicate_inline hsink) fun v _ t ht => ⟨?_, ht.2⟩)
  rw [ht.1]
  simp only [InMemoryLog.lastIndex_eq, List.length_append, List.length_singleton]

theorem ends_proposeBatch_inline (hsink : K.applySink = none) (h : s.role = .leader)
    {commands : List Bytes} (hc : commands ≠ []) :
    Ends s (proposeBatch K commands) (fun v t => v = some (s.log.length + 1) ∧
      Settled K (commands.map fun c => ⟨s.currentTerm, c⟩) s t) := by
  refine meets_read_bind (meets_ite (fun hr => ?_) fun _ => ?_)
  · exact absurd hr (not_or.mpr ⟨hc, not_not.mpr h⟩)
  refine meets_bind (meets_mono ends_append_eq fun _ _ t ht => ?_)
  subst ht
  refine meets_read_bind (meets_mono (ends_replicate_inline hsink) fun v _ t ht => ⟨?_, ht.2⟩)
  rw [ht.1]
  simp only [InMemoryLog.lastIndex_eq, List.length_append, List.length_map, Nat.add_sub_cancel]

/-- One `propose` for each command, in order, and what they returned. -/
def proposeEach (K : Ctx) : List Bytes → RaftM (List (Option ℕ))
  | [] => pure []
  | command :: commands => do
      let index ← propose K command
      let indices ← proposeEach K commands
      pure (index :: indices)

/-- **Single proposals**: consecutive indices, and together one append. -/
theorem ends_proposeEach (hsink : K.applySink = none) : ∀ {commands : List Bytes} {s : RaftCore},
    commands ≠ [] → s.role = .leader →
      Ends s (proposeEach K commands) (fun v t =>
        v = (List.range commands.length).map (fun k => some (s.log.length + 1 + k)) ∧
        Settled K (commands.map fun c => ⟨s.currentTerm, c⟩) s t)
  | [], _, hne, _ => absurd rfl hne
  | [command], s, _, hr => by
      refine meets_bind (meets_mono (ends_propose_inline hsink hr command) fun v _ t ht => ?_)
      exact meets_bind (meets_pure (meets_pure ⟨congrArg (fun i => [i]) ht.1, ht.2⟩))
  | command :: next :: rest, s, _, hr => by
      refine meets_bind (meets_mono (ends_propose_inline hsink hr command) fun v _ t ht => ?_)
      obtain ⟨rfl, ht⟩ := ht
      have hterm : t.currentTerm = s.currentTerm := by rw [ht.core]
      have hlen : t.log.length = s.log.length + 1 := by
        rw [ht.core]
        exact List.length_append
      have hrole : t.role = .leader := by
        rw [ht.core]
        exact hr
      refine meets_bind (meets_mono (ends_proposeEach hsink (List.cons_ne_nil next rest) hrole)
        fun w _ u hu => ?_)
      obtain ⟨rfl, hu⟩ := hu
      refine meets_pure ⟨?_, ?_⟩
      · rw [hlen, List.length_cons (a := command), List.range_succ_eq_map, List.map_cons, List.map_map]
        refine congrArg (List.cons _) (List.map_congr_left fun k _ => congrArg some ?_)
        show s.log.length + 1 + 1 + k = s.log.length + 1 + (k + 1)
        omega
      · have hall : ∀ e ∈ (next :: rest).map (fun c => (⟨s.currentTerm, c⟩ : LogEntry)),
            e.term = s.currentTerm := by
          intro e he
          obtain ⟨c, -, rfl⟩ := List.mem_map.mp he
          rfl
        rw [hterm] at hu
        exact ht.trans hu hall

theorem ends_proposeEach_refused : ∀ (commands : List Bytes) {s : RaftCore}, s.role ≠ .leader →
    Ends s (proposeEach K commands) (fun v t => v = commands.map (fun _ => none) ∧ t = s)
  | [], _, _ => meets_pure ⟨rfl, rfl⟩
  | command :: commands, s, hr => by
      refine meets_bind (meets_mono (ends_propose_refused hr command) fun v _ t ht => ?_)
      obtain ⟨rfl, rfl⟩ := ht
      refine meets_bind (meets_mono (ends_proposeEach_refused commands hr) fun w _ u hu => ?_)
      obtain ⟨rfl, rfl⟩ := hu
      exact meets_pure ⟨rfl, rfl⟩

/-- The last message to `p` in a history. -/
def lastSentTo (p : NodeId) (o : List Output) : Option Message :=
  (((sends o).filter fun x => x.1 = p).getLast?).map Prod.snd

/-- It is the one of the last broadcast. -/
theorem Settled.lastSentTo {es : List LogEntry} (h : Settled K es s t) {p : NodeId} (hp : p ∈ K.peers) :
    lastSentTo p t.out = some (.appendEntries (appendEntriesTo K t p)) := by
  obtain ⟨ms, o, ho, hms⟩ := h.emits
  have hmem : (p, Message.appendEntries (appendEntriesTo K t p)) ∈
      (broadcast K t).filter fun x => x.1 = p :=
    List.mem_filter.mpr ⟨List.mem_map.mpr ⟨p, hp, rfl⟩, decide_eq_true rfl⟩
  have hne : (broadcast K t).filter (fun x => x.1 = p) ≠ [] := List.ne_nil_of_mem hmem
  have hlast : ((broadcast K t).filter fun x => x.1 = p).getLast hne =
      (p, .appendEntries (appendEntriesTo K t p)) := by
    obtain ⟨hin, hto⟩ := List.mem_filter.mp (List.getLast_mem hne)
    obtain ⟨q, -, hq⟩ := List.mem_map.mp hin
    rw [← hq] at hto ⊢
    rw [show q = p from of_decide_eq_true hto]
  rw [Raft.lastSentTo, ho, sends_append, hms, List.filter_append, List.filter_append,
    List.getLast?_append_of_ne_nil _ (List.append_ne_nil_of_right_ne_nil _ hne),
    List.getLast?_append_of_ne_nil _ hne, List.getLast?_eq_some_getLast hne, hlast]
  rfl

/-- **A batch is its proposals, one after the other.** From a leader both end in the same core but for
    the history, with the same entries applied at the same indices and the same last message to every
    peer; the batch returns the index of its first command, and the others follow. From any other core
    both do nothing. -/
theorem proposeBatch_repeats_propose (hsink : K.applySink = none) {commands : List Bytes}
    (hne : commands ≠ []) :
    (s.role = .leader →
      { (proposeBatch K commands).final s with out := [] } =
        { (proposeEach K commands).final s with out := [] } ∧
      applied ((proposeBatch K commands).final s).out = applied ((proposeEach K commands).final s).out ∧
      (∀ p ∈ K.peers, ∃ ae, lastSentTo p ((proposeBatch K commands).final s).out = some (.appendEntries ae) ∧
        lastSentTo p ((proposeEach K commands).final s).out = some (.appendEntries ae)) ∧
      (proposeBatch K commands).value s = some (s.log.length + 1) ∧
      (proposeEach K commands).value s =
        (List.range commands.length).map (fun k => some (s.log.length + 1 + k))) ∧
    (s.role ≠ .leader →
      (proposeBatch K commands).final s = s ∧ (proposeBatch K commands).value s = none ∧
      (proposeEach K commands).final s = s ∧
      (proposeEach K commands).value s = commands.map (fun _ => none)) := by
  refine ⟨fun hr => ?_, fun hr => ?_⟩
  · obtain ⟨hbv, hb⟩ := ends_final (ends_proposeBatch_inline hsink hr hne)
    obtain ⟨hev, he⟩ := ends_final (ends_proposeEach hsink hne hr)
    generalize (proposeBatch K commands).final s = b at hb ⊢
    generalize (proposeEach K commands).final s = r at he ⊢
    refine ⟨?_, hb.applied.trans he.applied.symm, fun p hp => ?_, hbv, hev⟩
    · rw [hb.core, he.core]
    · refine ⟨appendEntriesTo K b p, hb.lastSentTo hp, ?_⟩
      rw [he.lastSentTo hp, hb.core, he.core]
      rfl
  · obtain ⟨hbv, hb⟩ := ends_final (ends_proposeBatch_refused (K := K) hr commands)
    obtain ⟨hev, he⟩ := ends_final (ends_proposeEach_refused (K := K) commands hr)
    exact ⟨hb, hbv, he, hev⟩

/-- A cluster of one node: it has two entries of an earlier term that are not committed yet. -/
theorem proposeBatch_repeats_propose_alone :
    { (proposeBatch ⟨1, [], {}, 7, true, none⟩ [[1], [2]]).final
        { role := .leader, currentTerm := 2, log := [⟨1, []⟩, ⟨1, [5]⟩] } with out := [] } =
      { (proposeEach ⟨1, [], {}, 7, true, none⟩ [[1], [2]]).final
        { role := .leader, currentTerm := 2, log := [⟨1, []⟩, ⟨1, [5]⟩] } with out := [] } :=
  ((proposeBatch_repeats_propose rfl (by simp)).1 rfl).1

end Rsm.Raft
