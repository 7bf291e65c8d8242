/-
  File:      RaftRsm/Raft/Proposing.lean
  Subject:   WHAT A PROPOSAL AND A HEARTBEAT DO to the core of a leader, and what they send.

  Both end with one AppendEntries to every peer and a new heartbeat deadline. A proposal has put its
  entries at the end of the log before; nothing else of the core changes but the commit and apply
  bookkeeping.

  * `ends_broadcast` -- one AppendEntries to every peer, built from the core as it is;
  * `Replicated K es s t` -- `s` has become `t` by appending `es` and telling every peer;
  * `ends_propose`, `ends_proposeBatch`, `ends_tick_leader` -- the three callers.
-/
import RaftRsm.Raft.Answers

namespace Rsm.Raft

open Rsm.Rpc Rsm.Storage Process

variable {K : Ctx} {s t u : RaftCore}

/-! ## 1. One message to every peer -/

/-- The messages of a broadcast from the core `s`. -/
def broadcast (K : Ctx) (s : RaftCore) : List (NodeId × Message) :=
  K.peers.map fun p => (p, .appendEntries (appendEntriesTo K s p))

/-- Only the history has grown, by lines with the messages `ms`. -/
def Told (s t : RaftCore) (ms : List (NodeId × Message)) : Prop :=
  ∃ o, t = { s with out := s.out ++ o } ∧ sends o = ms

theorem told_refl (s : RaftCore) : Told s s [] := ⟨[], by rw [List.append_nil], rfl⟩

theorem Told.trans {ms ms' : List (NodeId × Message)} (h : Told s t ms) (k : Told t u ms') :
    Told s u (ms ++ ms') := by
  obtain ⟨o, rfl, rfl⟩ := h
  obtain ⟨o', rfl, rfl⟩ := k
  exact ⟨o ++ o', by rw [← List.append_assoc], sends_append o o'⟩

/-- What is sent does not depend on the history. -/
theorem Told.appendEntriesTo {ms : List (NodeId × Message)} (h : Told s t ms) (p : NodeId) :
    appendEntriesTo K t p = appendEntriesTo K s p := by
  obtain ⟨o, rfl, -⟩ := h
  rfl

theorem ends_sendAll : ∀ {l : List NodeId} {s : RaftCore},
    Ends s (l.forM (sendAppendEntries K)) (fun _ t =>
      Told s t (l.map fun p => (p, .appendEntries (appendEntriesTo K s p))))
  | [], s => meets_pure (told_refl s)
  | p :: l, s => by
      show Ends s (sendAppendEntries K p >>= fun _ => l.forM (sendAppendEntries K)) _
      refine meets_bind (meets_mono (ends_sendAppendEntries p) fun _ _ t ht => ?_)
      have ht : Told s t [(p, .appendEntries (appendEntriesTo K s p))] := ht
      refine meets_mono ends_sendAll fun _ _ u hu => ?_
      simp only [ht.appendEntriesTo] at hu
      exact ht.trans hu

theorem ends_broadcast : Ends s (K.peers.forM (sendAppendEntries K)) (fun _ t => Told s t (broadcast K s)) :=
  ends_sendAll

/-! ## 2. Appending and telling everybody -/

theorem ends_append_eq : ∀ {es : List LogEntry} {s : RaftCore},
    Ends s (append es) (fun _ t => t = { s with log := s.log ++ es })
  | [], s => meets_pure (by rw [List.append_nil])
  | e :: es, s => by
      show Ends s (pushBack e >>= fun _ => append es) _
      refine ends_write_bind (meets_mono ends_append_eq fun _ _ t ht => ?_)
      rw [ht]
      simp only [InMemoryLog.pushBack_eq, List.append_assoc, List.singleton_append]

/-- **`s` has appended `es` and told every peer**: besides the log, the commit and apply bookkeeping
    and the heartbeat deadline everything is as it was. -/
def Replicated (K : Ctx) (es : List LogEntry) (s t : RaftCore) : Prop :=
  ∃ c m k o, sends o = broadcast K t ∧
    t = { s with
      log := s.log ++ es, commitIndex := c, sm := m, lastApplied := k
      heartbeatDeadline := some (K.now + K.cfg.heartbeatInterval), out := s.out ++ o }

section Replicated

variable {es : List LogEntry}

theorem Replicated.log (h : Replicated K es s t) : t.log = s.log ++ es := by
  obtain ⟨c, m, k, o, -, rfl⟩ := h
  rfl

theorem Replicated.role (h : Replicated K es s t) : t.role = s.role := by
  obtain ⟨c, m, k, o, -, rfl⟩ := h
  rfl

theorem Replicated.nextIndex (h : Replicated K es s t) : t.nextIndex = s.nextIndex := by
  obtain ⟨c, m, k, o, -, rfl⟩ := h
  rfl

end Replicated

/-- What follows an append: `s` is the core before it. -/
theorem ends_replicate {α : Type} {v : α} {es : List LogEntry} :
    Ends { s with log := s.log ++ es }
      (do advanceCommit K
          K.peers.forM (sendAppendEntries K)
          armHeartbeat K
          pure v)
      (fun r t => r = v ∧ Replicated K es s t) := by
  refine meets_bind (meets_mono ends_advanceCommit fun _ _ t ht => ?_)
  obtain ⟨c, m, k, o, ho, rfl⟩ := ht
  refine meets_bind (meets_mono ends_broadcast fun _ _ t ht => ?_)
  obtain ⟨o', rfl, ho'⟩ := ht
  refine ends_write_bind (meets_pure ⟨rfl, c, m, k, o ++ o', ?_, ?_⟩)
  · rw [sends_append, ho, ho']
    rfl
  · rw [← List.append_assoc]

/-- **A leader proposes one command.** -/
theorem ends_propose (h : s.role = .leader) (command : Bytes) :
    Ends s (propose K command) (fun v t => v = some (s.log.length + 1) ∧
      Replicated K [⟨s.currentTerm, command⟩] s t) := by
  refine meets_read_bind (meets_ite (fun hr => absurd h hr) fun _ => ?_)
  refine meets_bind (meets_mono ends_append_eq fun _ _ t ht => ?_)
  subst ht
  refine meets_read_bind (meets_mono ends_replicate fun v _ t ht => ⟨?_, ht.2⟩)
  rw [ht.1]
  simp only [InMemoryLog.lastIndex_eq, List.length_append, List.length_singleton]

/-- **A leader proposes a batch**, at consecutive indices. -/
theorem ends_proposeBatch (h : s.role = .leader) {commands : List Bytes} (hc : commands ≠ []) :
    Ends s (proposeBatch K commands) (fun v t => v = some (s.log.length + 1) ∧
      Replicated K (commands.map fun c => ⟨s.currentTerm, c⟩) s t) := by
  refine meets_read_bind (meets_ite (fun hr => ?_) fun _ => ?_)
  · exact absurd hr (not_or.mpr ⟨hc, not_not.mpr h⟩)
  refine meets_bind (meets_mono ends_append_eq fun _ _ t ht => ?_)
  subst ht
  refine meets_read_bind (meets_mono ends_replicate fun v _ t ht => ⟨?_, ht.2⟩)
  rw [ht.1]
  simp only [InMemoryLog.lastIndex_eq, List.length_append, List.length_map, Nat.add_sub_cancel]

theorem final_step_propose (K : Ctx) (command : Bytes) (s : RaftCore) :
    (step K (.propose command)).final s = (propose K command).final s := by
  unfold step
  rw [Prog.final_bind, Prog.final_pure]

/-- A core that does not lead refuses both, and nothing happens. -/
theorem ends_propose_refused (h : s.role ≠ .leader) (command : Bytes) :
    Ends s (propose K command) (fun v t => v = none ∧ t = s) :=
  meets_read_bind (meets_ite (fun _ => meets_pure ⟨rfl, rfl⟩) fun hr => absurd h hr)

theorem ends_proposeBatch_refused (h : s.role ≠ .leader) (commands : List Bytes) :
    Ends s (proposeBatch K commands) (fun v t => v = none ∧ t = s) :=
  meets_read_bind (meets_ite (fun _ => meets_pure ⟨rfl, rfl⟩) fun hr => absurd (.inr h) hr)

/-- **A leader's tick** is a heartbeat, or nothing. -/
theorem ends_tick_leader (h : s.role = .leader) :
    Ends s (tick K) (fun _ t => t = s ∨ Replicated K [] s t) := by
  refine meets_read_bind (meets_ite (fun hr => absurd h hr.1) fun _ => ?_)
  refine meets_when (fun _ => ?_) fun _ => .inl rfl
  refine meets_bind (meets_mono ends_broadcast fun _ _ t ht => ?_)
  obtain ⟨o, rfl, ho⟩ := ht
  refine ends_write (.inr ⟨s.commitIndex, s.sm, s.lastApplied, o, ho, ?_⟩)
  rw [List.append_nil]

end Rsm.Raft
