/-
  File:      RaftRsm/Raft/Turning.lean
  Subject:   A CORE THAT CAMPAIGNS OR LEADS: the core `startElection` and `becomeLeader` end in, from any
             state.

  * `led`, `ends_becomeLeader` -- a core that has won;
  * `campaigning`, `ends_startElection` -- a core that has asked for votes; alone it has won.
-/
import RaftRsm.Raft.Proposing

namespace Rsm.Raft

open Rsm.Rpc Rsm.Storage Process

variable {K : Ctx} {s t : RaftCore}

/-! ## 1. Leading -/

/-- **The core as the leader of its term.** -/
def led (K : Ctx) (s : RaftCore) : RaftCore :=
  { s with
    role := .leader
    leaderId := some K.self
    nextIndex := indexAll K.peers (s.log.lastIndex + 1)
    matchIndex := indexAll K.peers 0
    electionDeadline := none
    heartbeatDeadline := some (K.now + K.cfg.heartbeatInterval) }

theorem ends_sendHeartbeats : Ends s (sendHeartbeats K) (fun _ t =>
    ∃ o, t = { s with heartbeatDeadline := some (K.now + K.cfg.heartbeatInterval), out := s.out ++ o }) := by
  refine meets_bind (meets_mono ends_broadcast fun _ _ t ht => ?_)
  obtain ⟨o, rfl, -⟩ := ht
  exact ends_write ⟨o, rfl⟩

theorem ends_becomeLeader : Ends s (becomeLeader K) (fun _ t => ∃ o, t = { led K s with out := s.out ++ o }) := by
  refine ends_write_bind (meets_mono ends_sendHeartbeats fun _ _ t ht => ?_)
  obtain ⟨o, rfl⟩ := ht
  exact ⟨[_] ++ o, by rw [← List.append_assoc]; rfl⟩

/-! ## 2. Campaigning -/

/-- **The core as a candidate of the next term.** -/
def campaigning (K : Ctx) (s : RaftCore) : RaftCore :=
  { timed K s with
    currentTerm := s.currentTerm + 1
    votedFor := some K.self
    role := .candidate
    leaderId := none
    votesFrom := {K.self}
    heartbeatDeadline := none }

theorem ends_sendEach {l : List NodeId} {m : Message} : ∀ {s : RaftCore},
    Ends s (l.forM fun p => send p m) (fun _ t => ∃ o, t = { s with out := s.out ++ o }) := by
  induction l with
  | nil => exact fun {s} => meets_pure ⟨[], by rw [List.append_nil]⟩
  | cons p l ih =>
      intro s
      show Ends s (send p m >>= fun _ => l.forM fun p => send p m) _
      refine ends_write_bind (meets_mono ih fun _ _ t ht => ?_)
      obtain ⟨o, rfl⟩ := ht
      exact ⟨[_] ++ o, by rw [← List.append_assoc]⟩

/-- **An election**: a candidate, or at once the leader if it needs no vote but its own. The line of it
    is the first of the history that is new. -/
theorem ends_startElection : Ends s (startElection K) (fun _ t => ∃ o,
    t = { (if 1 ≥ K.majority then led K (campaigning K s) else campaigning K s) with
      out := s.out ++ (.transition (s.currentTerm + 1) .candidate .electionStarted s.log :: o) }) := by
  refine meets_read_bind (ends_write_bind (ends_write_bind ?_))
  refine meets_bind (meets_mono ends_resetElectionTimer fun _ _ t ht => ?_)
  have ht : t = campaigning K s := ht
  subst ht
  refine meets_bind (meets_mono (ends_transition_eq _) fun _ _ t ht => ?_)
  subst ht
  refine meets_read_bind (meets_bind (meets_mono ends_sendEach fun _ _ t ht => ?_))
  obtain ⟨o, rfl⟩ := ht
  have hvotes : ((campaigning K s).votesFrom.card ≥ K.majority) ↔ 1 ≥ K.majority := by
    rw [campaigning, Finset.card_singleton]
  refine meets_read_bind (meets_when (fun hm => ?_) fun hm => ?_)
  · refine meets_mono ends_becomeLeader fun _ _ t ht => ?_
    obtain ⟨o', rfl⟩ := ht
    have hout : s.out ++ [.transition (s.currentTerm + 1) .candidate .electionStarted s.log] ++ o ++ o' =
        s.out ++ (.transition (s.currentTerm + 1) .candidate .electionStarted s.log :: (o ++ o')) := by simp
    refine ⟨o ++ o', ?_⟩
    rw [if_pos (hvotes.mp hm)]
    exact congrArg (fun out => { led K (campaigning K s) with out := out }) hout
  · have hout : s.out ++ [.transition (s.currentTerm + 1) .candidate .electionStarted s.log] ++ o =
        s.out ++ (.transition (s.currentTerm + 1) .candidate .electionStarted s.log :: o) := by simp
    refine ⟨o, ?_⟩
    rw [if_neg (fun h => hm (hvotes.mpr h))]
    exact congrArg (fun out => { campaigning K s with out := out }) hout

end Rsm.Raft
