/-
  File:      RaftRsm/Replication/State.lean
  Subject:   A REPLICATED LOG WITH TERMS, without messages: what each node has on its disk and
             what has happened so far.

  The abstract machine has no network and no roles. Its state is, per node, the term, the vote
  and the log (the three things a crash keeps), and a HISTORY that only grows:

  * `cand c T L` -- `c` stood for election in term `T` with the log `L`;
  * `voted v T c L` -- `v` gave its vote of term `T` to `c`, holding the log `L`;
  * `leader T`, `elog T`, `llog T` -- who won term `T`, the winner's log at that moment, and
    the log it has reached since;
  * `acked v T k` -- while in term `T`, node `v` held the first `k` entries of `llog T`.

  A message on a wire is a fact about the history, so an implementation that sends messages is
  read here by what its messages say. A crash changes nothing: everything is on disk or past.

  * `Step 𝒮 n` -- the eight things node `n` can do;
  * `Le` -- the history only grows (`le_of_step`, `Le.trans`);
  * `Frame n` -- what the steps of the others leave to `n` (`frame_of_step`).
-/
import Mathlib.Data.Finset.Card
import Mathlib.Data.List.Infix
import Mathlib.Logic.Function.Basic
import Mathlib.Logic.Relation

namespace Replication

/-! ## 1. Settings and logs -/

/-- The parameters of a group of nodes `N` that replicates entries `E`: the term an entry is
    stamped with, and which sets of nodes are quorums. -/
structure Setting (N E : Type) where
  stamp : E → ℕ
  Quorum : Finset N → Prop
  meet : ∀ {Q R : Finset N}, Quorum Q → Quorum R → ∃ v, v ∈ Q ∧ v ∈ R

variable {N E : Type} (𝒮 : Setting N E)

/-- The stamp of the last entry, `0` for the empty log. -/
def Setting.lastStamp (l : List E) : ℕ := (l.getLast?.map 𝒮.stamp).getD 0

/-- **The up-to-date order**: a later last stamp wins, equal last stamps compare lengths. -/
def Setting.UpToDate (L M : List E) : Prop :=
  𝒮.lastStamp M < 𝒮.lastStamp L ∨ 𝒮.lastStamp M = 𝒮.lastStamp L ∧ M.length ≤ L.length

theorem Setting.upToDate_refl (L : List E) : 𝒮.UpToDate L L := .inr ⟨rfl, Nat.le_refl _⟩

/-! ## 2. States and steps -/

/-- A state of the group: what is on the disks, and the history. -/
structure State (N E : Type) where
  term : N → ℕ
  vote : N → Option N
  log : N → List E
  cand : N → ℕ → List E → Prop
  voted : N → ℕ → N → List E → Prop
  leader : ℕ → Option N
  elog : ℕ → List E
  llog : ℕ → List E
  acked : N → ℕ → ℕ → Prop

/-- Nothing has happened. -/
def State.zero : State N E where
  term _ := 0
  vote _ := none
  log _ := []
  cand _ _ _ := False
  voted _ _ _ _ := False
  leader _ := none
  elog _ := []
  llog _ := []
  acked _ _ _ := False

namespace State

variable [DecidableEq N] (s : State N E) (n : N)

/-- `n` stands for election in the next term and votes for itself. -/
def campaign : State N E :=
  { s with
    term := Function.update s.term n (s.term n + 1)
    vote := Function.update s.vote n (some n)
    cand := fun c T L => s.cand c T L ∨ (c = n ∧ T = s.term n + 1 ∧ L = s.log n)
    voted := fun v T c L => s.voted v T c L ∨ (v = n ∧ T = s.term n + 1 ∧ c = n ∧ L = s.log n) }

/-- `n` moves to the term `T`, in which it has not voted. -/
def observe (T : ℕ) : State N E :=
  { s with term := Function.update s.term n T, vote := Function.update s.vote n none }

/-- `n` gives its vote to `c`. -/
def grant (c : N) : State N E :=
  { s with
    vote := Function.update s.vote n (some c)
    voted := fun v T d L => s.voted v T d L ∨ (v = n ∧ T = s.term n ∧ d = c ∧ L = s.log n) }

/-- `n` wins its term. -/
def win : State N E :=
  { s with
    leader := Function.update s.leader (s.term n) (some n)
    elog := Function.update s.elog (s.term n) (s.log n)
    llog := Function.update s.llog (s.term n) (s.log n) }

/-- `n` appends an entry as the leader of its term. -/
def propose (e : E) : State N E :=
  { s with
    log := Function.update s.log n (s.log n ++ [e])
    llog := Function.update s.llog (s.term n) (s.llog (s.term n) ++ [e]) }

/-- `n` replaces its log. -/
def setLog (l : List E) : State N E := { s with log := Function.update s.log n l }

/-- `n` acknowledges the first `k` entries of its leader's log. -/
def ack (k : ℕ) : State N E :=
  { s with acked := fun v T j => s.acked v T j ∨ (v = n ∧ T = s.term n ∧ j ≤ k) }

end State

/-- **What node `n` can do.** A follower's log moves towards its leader's log only: it drops
    the suffix from a conflicting entry on, or takes over the next entries. -/
inductive Step [DecidableEq N] (n : N) : State N E → State N E → Prop where
  | campaign (s : State N E) : Step n s (s.campaign n)
  | observe (s : State N E) (T : ℕ) (h : s.term n < T) : Step n s (s.observe n T)
  | grant (s : State N E) (c : N) (L : List E) (hc : s.cand c (s.term n) L)
      (hv : s.vote n = none ∨ s.vote n = some c) (hu : 𝒮.UpToDate L (s.log n)) :
      Step n s (s.grant n c)
  | win (s : State N E) (Q : Finset N) (hq : 𝒮.Quorum Q)
      (hv : ∀ v ∈ Q, ∃ L, s.voted v (s.term n) n L) (hc : s.cand n (s.term n) (s.log n))
      (hl : s.leader (s.term n) = none) : Step n s (s.win n)
  | propose (s : State N E) (e : E) (hl : s.leader (s.term n) = some n)
      (he : 𝒮.stamp e = s.term n) : Step n s (s.propose n e)
  | truncate (s : State N E) (l : N) (i : ℕ) (e f : E) (hl : s.leader (s.term n) = some l)
      (hn : l ≠ n) (hp : (s.log n).take i <+: s.llog (s.term n)) (he : (s.log n)[i]? = some e)
      (hf : (s.llog (s.term n))[i]? = some f) (hne : 𝒮.stamp e ≠ 𝒮.stamp f) :
      Step n s (s.setLog n ((s.log n).take i))
  | extend (s : State N E) (l : N) (m : List E) (hl : s.leader (s.term n) = some l) (hn : l ≠ n)
      (hp : s.log n <+: m) (hm : m <+: s.llog (s.term n)) : Step n s (s.setLog n m)
  | ack (s : State N E) (l : N) (k : ℕ) (hl : s.leader (s.term n) = some l)
      (hk : k ≤ (s.llog (s.term n)).length) (hp : (s.llog (s.term n)).take k <+: s.log n) :
      Step n s (s.ack n k)

/-! ## 3. The history only grows -/

/-- `t` is a later state than `s`. -/
structure Le (s t : State N E) : Prop where
  term : ∀ n, s.term n ≤ t.term n
  vote : ∀ n c, t.term n = s.term n → s.vote n = some c → t.vote n = some c
  cand : ∀ {c T L}, s.cand c T L → t.cand c T L
  voted : ∀ {v T c L}, s.voted v T c L → t.voted v T c L
  leader : ∀ {T l}, s.leader T = some l → t.leader T = some l
  elog : ∀ {T l}, s.leader T = some l → t.elog T = s.elog T
  llog : ∀ {T l}, s.leader T = some l → s.llog T <+: t.llog T
  acked : ∀ {v T k}, s.acked v T k → t.acked v T k

theorem Le.refl (s : State N E) : Le s s :=
  ⟨fun _ => Nat.le_refl _, fun _ _ _ h => h, id, id, id, fun _ => rfl,
    fun _ => List.prefix_refl _, id⟩

theorem Le.trans {s t u : State N E} (h : Le s t) (k : Le t u) : Le s u where
  term n := (h.term n).trans (k.term n)
  vote n c e hv := by
    have h1 := h.term n
    have h2 := k.term n
    exact k.vote n c (by omega) (h.vote n c (by omega) hv)
  cand hc := k.cand (h.cand hc)
  voted hv := k.voted (h.voted hv)
  leader hl := k.leader (h.leader hl)
  elog hl := (k.elog (h.leader hl)).trans (h.elog hl)
  llog hl := (h.llog hl).trans (k.llog (h.leader hl))
  acked ha := k.acked (h.acked ha)

/-- What the first `k` entries of a leader's log are does not change any more. -/
theorem Le.take_llog {s t : State N E} (h : Le s t) {T k : ℕ} {l : N}
    (hl : s.leader T = some l) (hk : k ≤ (s.llog T).length) :
    (t.llog T).take k = (s.llog T).take k := by
  obtain ⟨m, hm⟩ := h.llog hl
  rw [← hm, List.take_append_of_le_length hk]

/-- An entry of a leader's log stays where it is. -/
theorem Le.getElem_llog {s t : State N E} (h : Le s t) {T i : ℕ} {l : N} {e : E}
    (hl : s.leader T = some l) (he : (s.llog T)[i]? = some e) : (t.llog T)[i]? = some e := by
  obtain ⟨m, hm⟩ := h.llog hl
  rw [← hm, List.getElem?_append_left (List.getElem?_eq_some_iff.mp he).1]
  exact he

/-- What the steps of the other nodes leave to `n`: a later state, with `n`'s disk as it was
    and no term newly won by `n`. -/
structure Frame (n : N) (s t : State N E) : Prop extends Le s t where
  own_term : t.term n = s.term n
  own_vote : t.vote n = s.vote n
  own_log : t.log n = s.log n
  own_win : ∀ {T}, t.leader T = some n → s.leader T = some n

theorem Frame.refl (n : N) (s : State N E) : Frame n s s := ⟨Le.refl s, rfl, rfl, rfl, id⟩

theorem Frame.trans {n : N} {s t u : State N E} (h : Frame n s t) (k : Frame n t u) :
    Frame n s u :=
  ⟨h.toLe.trans k.toLe, k.own_term.trans h.own_term, k.own_vote.trans h.own_vote,
    k.own_log.trans h.own_log, fun hl => h.own_win (k.own_win hl)⟩

section Steps

variable [DecidableEq N] {𝒮}

/-- **Every step leads to a later state.** -/
theorem le_of_step {n : N} {s t : State N E} (h : Step 𝒮 n s t) : Le s t := by
  have hr := Le.refl s
  cases h with
  | campaign =>
      refine { hr with term := fun m => ?_, vote := fun m c e hv => ?_, cand := Or.inl, voted := Or.inl }
      · by_cases hm : m = n
        · subst hm; simp [State.campaign]
        · simp [State.campaign, Function.update_of_ne hm]
      · by_cases hm : m = n
        · subst hm; simp [State.campaign] at e
        · simp only [State.campaign, Function.update_of_ne hm]; exact hv
  | observe T hT =>
      refine { hr with term := fun m => ?_, vote := fun m c e hv => ?_ }
      · by_cases hm : m = n
        · subst hm; simp only [State.observe, Function.update_self]; omega
        · simp [State.observe, Function.update_of_ne hm]
      · by_cases hm : m = n
        · subst hm; simp only [State.observe, Function.update_self] at e; omega
        · simp only [State.observe, Function.update_of_ne hm]; exact hv
  | grant c L hc hv hu =>
      refine { hr with vote := fun m d _ hd => ?_, voted := Or.inl }
      by_cases hm : m = n
      · subst hm
        simp only [State.grant, Function.update_self]
        rcases hv with hv | hv
        · rw [hv] at hd; cases hd
        · rw [← hd, hv]
      · simp only [State.grant, Function.update_of_ne hm]; exact hd
  | win Q hq hv hc hl =>
      have hne : ∀ {T l}, s.leader T = some l → T ≠ s.term n := by
        rintro T l hT rfl
        rw [hl] at hT; cases hT
      refine { hr with leader := fun hT => ?_, elog := fun hT => ?_, llog := fun hT => ?_ }
      · simp only [State.win, Function.update_of_ne (hne hT)]; exact hT
      · simp only [State.win, Function.update_of_ne (hne hT)]
      · simp only [State.win, Function.update_of_ne (hne hT)]; exact List.prefix_refl _
  | propose e hl he =>
      refine { hr with llog := fun {T l} hT => ?_ }
      by_cases hTn : T = s.term n
      · subst hTn; simp [State.propose]
      · simp only [State.propose, Function.update_of_ne hTn]; exact List.prefix_refl _
  | truncate => exact { hr with }
  | extend => exact { hr with }
  | ack => exact { hr with acked := Or.inl }

/-- **A step of another node leaves `n` its frame.** -/
theorem frame_of_step {n m : N} {s t : State N E} (h : Step 𝒮 m s t) (hnm : n ≠ m) :
    Frame n s t := by
  refine ⟨le_of_step h, ?_, ?_, ?_, fun {T} hl => ?_⟩
  · cases h <;> simp [State.campaign, State.observe, State.grant, State.win, State.propose,
      State.setLog, State.ack, Function.update_of_ne hnm]
  · cases h <;> simp [State.campaign, State.observe, State.grant, State.win, State.propose,
      State.setLog, State.ack, Function.update_of_ne hnm]
  · cases h <;> simp [State.campaign, State.observe, State.grant, State.win, State.propose,
      State.setLog, State.ack, Function.update_of_ne hnm]
  · cases h with
    | win Q hq hv hc hl' =>
        by_cases hT : T = s.term m
        · subst hT
          simp only [State.win, Function.update_self, Option.some.injEq] at hl
          exact absurd hl.symm hnm
        · simpa only [State.win, Function.update_of_ne hT] using hl
    | _ => exact hl

end Steps

end Replication
