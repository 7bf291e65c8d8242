/-
  File:      RaftRsm/Raft/Calls.lean
  Subject:   EVERYTHING A CALL CAN DO to the role, the timers, the vote and the commit index of a core,
             from any state.

  * `Effect K s i t` -- one constructor for each thing that can happen; for a message, `s` is the core
    after the term rule (`seen`);
  * `ends_step` -- every call has one of these effects.

  The invariants of a core are read off `Effect` alone: `Timers` and `Exactness` do not look at the
  handlers again.
-/
import RaftRsm.Raft.Splicing
import RaftRsm.Raft.Batching

namespace Rsm.Raft

open Rsm.Rpc Rsm.Storage Process

variable {K : Ctx} {s t u : RaftCore} {p : NodeId}

/-! ## 1. Parts of a core that are left -/

/-- Only the log, the commit and apply bookkeeping and the history have changed. -/
def Stored (s t : RaftCore) : Prop :=
  ∃ l c m k o, t = { s with log := l, commitIndex := c, sm := m, lastApplied := k, out := s.out ++ o }

theorem Stored.trans (h : Stored s t) (k : Stored t u) : Stored s u := by
  obtain ⟨_, _, _, _, o, rfl⟩ := h
  obtain ⟨l, c, m, k, o', rfl⟩ := k
  exact ⟨l, c, m, k, o ++ o', by rw [← List.append_assoc]⟩

theorem Counted.stored (h : Counted s t) : Stored s t := by
  obtain ⟨c, m, k, o, -, rfl⟩ := h
  exact ⟨s.log, c, m, k, o, rfl⟩

theorem ends_send_stored (h : Stored s t) (m : Message) : Ends t (send p m) (fun _ => Stored s) :=
  ends_write (h.trans ⟨t.log, t.commitIndex, t.sm, t.lastApplied, [.send p m], rfl⟩)

theorem ends_acceptEntries_stored (ae : AppendEntries) (cur : ℕ) :
    Ends s (acceptEntries K p ae cur) (fun _ => Stored s) := by
  refine meets_bind (meets_mono ends_resolveConflicts_splice fun rest _ t ht => ?_)
  obtain ⟨l, ⟨o, -, rfl⟩, -⟩ := ht
  refine meets_bind (meets_mono ends_append_eq fun _ _ t ht => ?_)
  have h0 : Stored s t := ⟨l ++ rest, s.commitIndex, s.sm, s.lastApplied, o, ht⟩
  refine meets_read_bind (meets_bind (meets_when (fun _ => ?_) fun _ => ends_send_stored h0 _))
  refine meets_bind (meets_mono (ends_commitIndex _) fun _ _ u h1 => ?_)
  refine meets_mono ends_applyCommitted fun _ _ v h2 => ?_
  exact ends_send_stored ((h0.trans h1.stored).trans h2.counted.stored) _

theorem ends_checkEntries_stored (ae : AppendEntries) (cur : ℕ) :
    Ends s (checkEntries K p ae cur) (fun _ => Stored s) := by
  have hrefl : Stored s s := (noted_refl s).counted.stored
  refine meets_read_bind (meets_ite (fun _ => ends_send_stored hrefl _) fun _ => ?_)
  refine meets_bind (meets_mono (ends_termAt _) fun v _ t ht => ?_)
  have h0 := ht.2.counted.stored
  refine meets_ite (fun _ => ?_) fun _ => ?_
  · refine meets_bind (meets_mono ends_firstOfTerm fun w _ u hu => ?_)
    exact ends_send_stored (h0.trans hu.2.counted.stored) _
  · exact meets_mono (ends_acceptEntries_stored ae cur) fun _ _ u hu => h0.trans hu

/-- **The scan, whatever the apply sink does**: the commit index it finds. -/
theorem ends_advanceCommit_from : Ends s (advanceCommit K) (fun _ t =>
    ∃ m k o, t = { s with
      commitIndex := commitFrom K s s.log.length, sm := m, lastApplied := k, out := s.out ++ o }) := by
  refine meets_read_bind (ends_commitScan_from (Nat.le_refl _) (fun h => ?_) fun _ _ => ?_)
  · rw [InMemoryLog.lastIndex_eq] at h
    exact ⟨s.sm, s.lastApplied, [], by rw [h, List.append_nil]⟩
  · refine meets_mono ends_applyCommitted fun _ _ t ht => ?_
    obtain ⟨m, k, o, -, rfl⟩ := ht
    exact ⟨m, k, o, rfl⟩

/-! ## 2. Effects -/

/-- The core that looks at the input: a message comes after the term rule. -/
def seen (K : Ctx) (s : RaftCore) : Input → RaftCore
  | .handle _ m => lifted K s m
  | _ => s

theorem seen_cases (K : Ctx) (s : RaftCore) (i : Input) : seen K s i = s ∨ ∃ T > s.currentTerm,
    seen K s i = { lowered K s T with out := s.out ++ [.transition T .follower .higherTermSeen s.log] } := by
  cases i with
  | handle p m => exact lifted_cases K s m
  | _ => exact .inl rfl

/-- A core that follows the sender of an AppendEntries. -/
structure Followed (s t : RaftCore) : Prop where
  role : t.role = .follower
  timer : t.electionDeadline ≠ none
  beat : t.heartbeatDeadline = s.heartbeatDeadline
  vote : t.votedFor = s.votedFor

/-- A leader has counted its replicas again, with the match indices `μ`. -/
def counting (K : Ctx) (s : RaftCore) (μ ν : IndexMap) (m : List LogEntry) (k : ℕ) (o : List Output) :
    RaftCore :=
  { s with
    matchIndex := μ, nextIndex := ν
    commitIndex := commitFrom K { s with matchIndex := μ } s.log.length
    sm := m, lastApplied := k, out := s.out ++ o }

/-- A leader has appended `es` and told everybody. -/
def proposing (K : Ctx) (s : RaftCore) (es : List LogEntry) (m : List LogEntry) (k : ℕ) (o : List Output) :
    RaftCore :=
  { s with
    log := s.log ++ es
    commitIndex := commitFrom K { s with log := s.log ++ es } (s.log ++ es).length
    sm := m, lastApplied := k
    heartbeatDeadline := some (K.now + K.cfg.heartbeatInterval), out := s.out ++ o }

/-- **What the input `i` can do** to the core `s` that looks at it. -/
inductive Effect (K : Ctx) (s : RaftCore) : Input → RaftCore → Prop where
  | started : Effect K s .start (timed K s)
  /-- The votes, the next indices or what was applied; the history. -/
  | noted (i : Input) (V : Finset NodeId) (ν : IndexMap) (m : List LogEntry) (k : ℕ) (o : List Output) :
      Effect K s i { s with votesFrom := V, nextIndex := ν, sm := m, lastApplied := k, out := s.out ++ o }
  | beat (o : List Output) (hr : s.role = .leader) :
      Effect K s .tick { s with
        heartbeatDeadline := some (K.now + K.cfg.heartbeatInterval), out := s.out ++ o }
  | campaigned (o : List Output) (hr : s.role ≠ .leader) :
      Effect K s .tick { (if 1 ≥ K.majority then led K (campaigning K s) else campaigning K s) with
        out := s.out ++ (.transition (s.currentTerm + 1) .candidate .electionStarted s.log :: o) }
  | proposed (i : Input) (es : List LogEntry) (m : List LogEntry) (k : ℕ) (o : List Output) (hr : s.role = .leader)
      (hT : ∀ e ∈ es, e.term = s.currentTerm) : Effect K s i (proposing K s es m k o)
  | granted (p : NodeId) (rv : RequestVote) (hv : s.votedFor = none ∨ s.votedFor = some rv.candidateId) :
      Effect K s (.handle p (.requestVote rv)) { timed K s with
        votedFor := some rv.candidateId
        out := s.out ++ [.send p (.requestVoteReply ⟨s.currentTerm, true⟩)] }
  | won (p : NodeId) (r : RequestVoteReply) (V : Finset NodeId) (o : List Output) (hr : s.role = .candidate) :
      Effect K s (.handle p (.requestVoteReply r)) { led K { s with votesFrom := V } with out := s.out ++ o }
  | followed (p : NodeId) (ae : AppendEntries) (t : RaftCore) (hT : s.currentTerm ≤ ae.term)
      (hr : s.role ≠ .leader) (ht : Followed s t) : Effect K s (.handle p (.appendEntries ae)) t
  | acked (p : NodeId) (r : AppendEntriesReply) (μ ν : IndexMap) (m : List LogEntry) (k : ℕ) (o : List Output)
      (hr : s.role = .leader) : Effect K s (.handle p (.appendEntriesReply r)) (counting K s μ ν m k o)

theorem effect_told (i : Input) (o : List Output) : Effect K s i { s with out := s.out ++ o } :=
  .noted i s.votesFrom s.nextIndex s.sm s.lastApplied o

theorem effect_refl (i : Input) : Effect K s i s := by
  have h := effect_told (K := K) (s := s) i []
  rwa [List.append_nil] at h

/-! ## 3. Every call has one of them -/

theorem ends_onRequestVote_effect (rv : RequestVote) :
    Ends s (onRequestVote K p rv) (fun _ => Effect K s (.handle p (.requestVote rv))) := by
  refine meets_read_bind (meets_ite (fun _ => ends_write (effect_told _ _)) fun _ => ?_)
  refine meets_bind (meets_when (fun hg => ?_) fun _ => ends_write (effect_told _ _))
  have hg' := hg
  rw [Bool.and_eq_true, Bool.or_eq_true, beq_iff_eq, beq_iff_eq] at hg'
  have hgrant : Ends s (do persistTermAndVote s.currentTerm (some rv.candidateId); resetElectionTimer K)
      (fun _ t => t = { timed K s with votedFor := some rv.candidateId }) := ends_write_bind (ends_write rfl)
  refine meets_mono hgrant fun _ _ t ht => ?_
  subst ht
  rw [hg]
  exact ends_write (.granted p rv hg'.2)

theorem ends_onRequestVoteReply_effect (r : RequestVoteReply) :
    Ends s (onRequestVoteReply K p r) (fun _ => Effect K s (.handle p (.requestVoteReply r))) := by
  refine meets_read_bind (meets_when (fun hr => ends_write_bind ?_) fun _ => effect_refl _)
  refine meets_read_bind (meets_when (fun _ => ?_) fun _ => ?_)
  · refine meets_mono ends_becomeLeader fun _ _ t ht => ?_
    obtain ⟨o, rfl⟩ := ht
    exact .won p r _ o hr.1
  · have h := Effect.noted (K := K) (s := s) (.handle p (.requestVoteReply r)) (insert p s.votesFrom)
      s.nextIndex s.sm s.lastApplied []
    rwa [List.append_nil] at h

theorem ends_onAppendEntries_effect (ae : AppendEntries) :
    Ends s (onAppendEntries K p ae) (fun _ => Effect K s (.handle p (.appendEntries ae))) := by
  by_cases hT : ae.term < s.currentTerm
  · exact meets_read_bind (meets_ite (fun _ => ends_write (effect_told _ _)) fun h => absurd hT h)
  by_cases hr : s.role = .leader
  · exact meets_read_bind (meets_ite (fun h => absurd h hT) fun _ =>
      meets_ite (fun _ => ends_write (effect_told _ _)) fun h => absurd hr h)
  refine ends_onAppendEntries_ready (Nat.not_lt.mp hT) hr fun t ht => ?_
  refine meets_mono (ends_checkEntries_stored ae _) fun _ _ u hu => ?_
  obtain ⟨l, c, m, k, o, rfl⟩ := hu
  exact .followed p ae _ (Nat.not_lt.mp hT) hr ⟨ht.role, ht.timer, ht.beat, ht.vote⟩

theorem ends_onAppendEntriesReply_effect (r : AppendEntriesReply) :
    Ends s (onAppendEntriesReply K p r) (fun _ => Effect K s (.handle p (.appendEntriesReply r))) := by
  refine meets_read_bind (meets_ite (fun _ => meets_pure (effect_refl _)) fun hr => ?_)
  rw [not_not] at hr
  refine meets_ite (fun _ => meets_pure (effect_refl _)) fun _ => meets_ite (fun _ => ?_) fun _ => ?_
  · refine meets_ite (fun _ => ends_write (effect_told _ _)) fun _ => ?_
    refine meets_when (fun _ => ends_write_bind ?_) fun _ => effect_refl _
    refine meets_bind (meets_mono ends_advanceCommit_from fun _ _ t ht => ?_)
    obtain ⟨m, k, o, rfl⟩ := ht
    refine meets_read_bind (meets_when (fun _ => ?_) fun _ => .acked p r _ _ m k o hr)
    refine meets_mono (ends_sendAppendEntries p) fun _ _ u hu => ?_
    obtain ⟨o', rfl, -⟩ := hu
    have h := Effect.acked (K := K) p r (s.matchIndex.insert p r.conflictIndex)
      (s.nextIndex.insert p (r.conflictIndex + 1)) m k (o ++ o') hr
    rw [counting, ← List.append_assoc] at h
    exact h
  · refine meets_bind (meets_mono (ends_hintedNext r) fun ni _ t ht => ?_)
    obtain ⟨-, o, -, rfl⟩ := ht
    refine ends_write_bind (meets_mono (ends_sendAppendEntries p) fun _ _ u hu => ?_)
    obtain ⟨o', rfl, -⟩ := hu
    have h := fun ν => Effect.noted (K := K) (s := s) (.handle p (.appendEntriesReply r)) s.votesFrom ν s.sm
      s.lastApplied (o ++ o')
    simp only [← List.append_assoc] at h
    exact h _

theorem ends_dispatch_effect (m : Message) :
    Ends s (dispatch K p m) (fun _ => Effect K s (.handle p m)) := by
  cases m with
  | requestVote rv => exact ends_onRequestVote_effect rv
  | requestVoteReply r => exact ends_onRequestVoteReply_effect r
  | appendEntries ae => exact ends_onAppendEntries_effect ae
  | appendEntriesReply r => exact ends_onAppendEntriesReply_effect r
  | clientRequest req => exact meets_when (fun _ => ends_write (effect_told _ _)) fun _ => effect_refl _
  | clientReply r => exact meets_pure (effect_refl _)

/-- What follows an append of a leader. -/
theorem ends_replicate_effect {α : Type} {v : α} {es : List LogEntry} (i : Input) (hr : s.role = .leader)
    (hT : ∀ e ∈ es, e.term = s.currentTerm) :
    Ends { s with log := s.log ++ es }
      (do advanceCommit K
          K.peers.forM (sendAppendEntries K)
          armHeartbeat K
          pure v)
      (fun _ => Effect K s i) := by
  refine meets_bind (meets_mono ends_advanceCommit_from fun _ _ t ht => ?_)
  obtain ⟨m, k, o, rfl⟩ := ht
  refine meets_bind (meets_mono ends_broadcast fun _ _ t ht => ?_)
  obtain ⟨o', rfl, -⟩ := ht
  refine ends_write_bind (meets_pure ?_)
  have h := Effect.proposed (K := K) i es m k (o ++ o') hr hT
  rw [proposing, ← List.append_assoc] at h
  exact h

theorem ends_propose_effect (i : Input) (command : Bytes) :
    Ends s (propose K command) (fun _ => Effect K s i) := by
  refine meets_read_bind (meets_ite (fun _ => meets_pure (effect_refl i)) fun hr => ?_)
  rw [not_not] at hr
  refine meets_bind (meets_mono ends_append_eq fun _ _ t ht => ?_)
  subst ht
  refine meets_read_bind (ends_replicate_effect i hr fun e he => ?_)
  rw [List.mem_singleton.mp he]

theorem ends_proposeBatch_effect (i : Input) (commands : List Bytes) :
    Ends s (proposeBatch K commands) (fun _ => Effect K s i) := by
  refine meets_read_bind (meets_ite (fun _ => meets_pure (effect_refl i)) fun hr => ?_)
  rw [not_or, not_not] at hr
  refine meets_bind (meets_mono ends_append_eq fun _ _ t ht => ?_)
  subst ht
  refine meets_read_bind (ends_replicate_effect i hr.2 fun e he => ?_)
  obtain ⟨c, -, rfl⟩ := List.mem_map.mp he
  rfl

theorem ends_tick_effect : Ends s (tick K) (fun _ => Effect K s .tick) := by
  refine meets_read_bind (meets_ite (fun hr => ?_) fun _ => meets_when (fun hr => ?_) fun _ => effect_refl _)
  · refine meets_mono ends_startElection fun _ _ t ht => ?_
    obtain ⟨o, rfl⟩ := ht
    exact .campaigned o hr.1
  · refine meets_mono ends_sendHeartbeats fun _ _ t ht => ?_
    obtain ⟨o, rfl⟩ := ht
    exact .beat o hr.1

/-- **Every call has one of the effects.** -/
theorem ends_step (i : Input) : Ends s (step K i) (fun _ => Effect K (seen K s i) i) := by
  cases i with
  | start => exact ends_write .started
  | tick => exact ends_tick_effect
  | handle p m =>
      refine meets_bind (meets_mono (ends_liftTerm_eq m) fun _ _ t ht => ?_)
      subst ht
      exact ends_dispatch_effect m
  | propose command => exact meets_bind (meets_mono (ends_propose_effect _ command) fun _ _ _ ht => ht)
  | proposeBatch commands => exact meets_bind (meets_mono (ends_proposeBatch_effect _ commands) fun _ _ _ ht => ht)
  | pumpApply =>
      refine meets_mono ends_applyCommitted fun _ _ t ht => ?_
      obtain ⟨m, k, o, -, rfl⟩ := ht
      exact .noted .pumpApply s.votesFrom s.nextIndex m k o

end Rsm.Raft
