/-
  File:      RaftRsm/Raft/TermRule.lean
  Subject:   A CORE THAT FOLLOWS, and what a higher term makes of it: the core `becomeFollower` and the
             term rule of `handle` end in, from any state.

  * `timed` -- the election timer drawn again;
  * `lowered`, `ends_becomeFollower` -- a follower in a term, its timers turned round if it led;
  * `lifted`, `ends_liftTerm_eq`, `lifted_cases` -- the term rule.
-/
import RaftRsm.Raft.Core

namespace Rsm.Raft

open Rsm.Rpc Rsm.Storage Process

variable {K : Ctx} {s t : RaftCore}

/-! ## 1. Following -/

/-- The core with its election timer drawn again. -/
def timed (K : Ctx) (s : RaftCore) : RaftCore :=
  { s with electionDeadline := some (K.now + K.cfg.draw (s.rng 0)), rng := fun k => s.rng (k + 1) }

theorem ends_resetElectionTimer : Ends s (resetElectionTimer K) (fun _ t => t = timed K s) := ends_write rfl

theorem ends_transition_eq (ev : TransitionEvent) : Ends s (transition ev) (fun _ t =>
    t = { s with out := s.out ++ [.transition s.currentTerm s.role ev s.log] }) :=
  meets_read_bind (ends_write rfl)

/-- The core in the term `T`, if that is higher. -/
def raised (s : RaftCore) (T : ℕ) : RaftCore :=
  if T > s.currentTerm then { s with currentTerm := T, votedFor := none, leaderId := none } else s

/-- **The core as a follower in the term `T`**: one that led has its timers the other way round. -/
def lowered (K : Ctx) (s : RaftCore) (T : ℕ) : RaftCore :=
  { (if s.role = .leader then timed K { raised s T with heartbeatDeadline := none } else raised s T) with
    role := .follower }

section Lowered

variable (K s) (T : ℕ)

theorem raised_eq : raised s T = { s with
    currentTerm := max s.currentTerm T
    votedFor := if T > s.currentTerm then none else s.votedFor
    leaderId := if T > s.currentTerm then none else s.leaderId } := by
  unfold raised
  split_ifs with h
  · rw [Nat.max_eq_right (Nat.le_of_lt h)]
  · rw [Nat.max_eq_left (Nat.not_lt.mp h)]

theorem lowered_eq : lowered K s T = { s with
    currentTerm := max s.currentTerm T
    votedFor := if T > s.currentTerm then none else s.votedFor
    leaderId := if T > s.currentTerm then none else s.leaderId
    role := .follower
    heartbeatDeadline := if s.role = .leader then none else s.heartbeatDeadline
    electionDeadline := if s.role = .leader then some (K.now + K.cfg.draw (s.rng 0)) else s.electionDeadline
    rng := if s.role = .leader then fun k => s.rng (k + 1) else s.rng } := by
  unfold lowered timed
  rw [raised_eq]
  split_ifs <;> rfl

end Lowered

theorem ends_becomeFollower (T : ℕ) (ev : TransitionEvent) : Ends s (becomeFollower K T ev) (fun _ t =>
    t = { lowered K s T with
      out := s.out ++ [.transition (lowered K s T).currentTerm .follower ev s.log] }) := by
  have htail : ∀ {t : RaftCore}, Ends t (do Prog.write fun s => { s with role := .follower }
                                            transition ev) (fun _ u =>
      u = { t with role := .follower, out := t.out ++ [.transition t.currentTerm .follower ev t.log] }) :=
    ends_write_bind (ends_transition_eq ev)
  have hdown : ∀ {t : RaftCore}, Ends t (do Prog.write fun s => { s with heartbeatDeadline := none }
                                            resetElectionTimer K) (fun _ u =>
      u = timed K { t with heartbeatDeadline := none }) := ends_write_bind ends_resetElectionTimer
  have hraise : Ends s (do persistTermAndVote T none
                           Prog.write fun s => { s with leaderId := none }) (fun _ u =>
      u = { s with currentTerm := T, votedFor := none, leaderId := none }) := ends_write_bind (ends_write rfl)
  -- the term first, then the timers of a core that led
  have hturn : ∀ {t : RaftCore}, t = raised s T → Ends t (do
      let s ← Prog.read
      Prog.when (s.role = .leader) do
        Prog.write fun s => { s with heartbeatDeadline := none }
        resetElectionTimer K
      Prog.write fun s => { s with role := .follower }
      transition ev) (fun _ u => u = { lowered K s T with
        out := s.out ++ [.transition (lowered K s T).currentTerm .follower ev s.log] }) := by
    rintro t rfl
    have hrole : (raised s T).role = s.role := by rw [raised_eq]
    refine meets_read_bind (meets_bind (meets_when (fun hr => ?_) fun hr => ?_))
    · rw [hrole] at hr
      refine meets_mono hdown fun _ _ t ht => ?_
      subst ht
      refine meets_mono htail fun _ _ u hu => ?_
      rw [hu, lowered, if_pos hr]
      simp only [timed, raised_eq]
    · rw [hrole] at hr
      refine meets_mono htail fun _ _ u hu => ?_
      rw [hu, lowered, if_neg hr]
      simp only [raised_eq]
  refine meets_read_bind (meets_bind (meets_when (fun hT => ?_) fun hT => ?_))
  · refine meets_mono hraise fun _ _ t ht => ?_
    exact hturn (by rw [ht, raised, if_pos hT])
  · exact hturn (by rw [raised, if_neg hT])

/-! ## 2. The term rule -/

/-- The core when it comes to look at the message. -/
def lifted (K : Ctx) (s : RaftCore) (m : Message) : RaftCore :=
  match termOf m with
  | none => s
  | some T =>
      if T > s.currentTerm then
        { lowered K s T with out := s.out ++ [.transition T .follower .higherTermSeen s.log] }
      else s

/-- The term rule does nothing, or makes a follower of a higher term. -/
theorem lifted_cases (K : Ctx) (s : RaftCore) (m : Message) : lifted K s m = s ∨ ∃ T > s.currentTerm,
    lifted K s m = { lowered K s T with out := s.out ++ [.transition T .follower .higherTermSeen s.log] } := by
  unfold lifted
  cases termOf m with
  | none => exact .inl rfl
  | some T =>
      dsimp only
      split_ifs with hT
      · exact .inr ⟨T, hT, rfl⟩
      · exact .inl rfl

theorem ends_liftTerm_eq (m : Message) : Ends s (liftTerm K m) (fun _ t => t = lifted K s m) := by
  unfold lifted
  refine meets_read_bind ?_
  cases termOf m with
  | none => exact meets_pure rfl
  | some T =>
      dsimp only
      refine meets_when (fun hT => ?_) fun hT => ?_
      · refine meets_mono (ends_becomeFollower T .higherTermSeen) fun _ _ t ht => ?_
        rw [ht, if_pos hT, lowered_eq, Nat.max_eq_right (Nat.le_of_lt hT)]
      · rw [if_neg hT]

end Rsm.Raft
