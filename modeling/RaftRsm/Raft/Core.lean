/-
  File:      RaftRsm/Raft/Core.lean
  Subject:   The Raft consensus state machine of one node (`raft/raft_core.{h,cpp}`).

  Every function of `RaftCore` is a program over the core's state: a write is one moment, and
  a node may crash after any of them. So a save of (term, vote), one entry pushed to the log, one
  truncation, one message sent and one entry applied are all separate moments; assignments to
  volatile members that follow each other directly are one.

  What the core does to its surroundings is kept as a history (`RaftCore.out`): messages sent,
  entries handed to the state machine, observer calls, and the error lines of the branches that
  the source takes to be impossible. A log accessor called out of range leaves a line too.
-/
import RaftRsm.Storage.Log
import RaftRsm.Process.Program
import Mathlib.Data.Finset.Card
import Std.Data.ExtTreeMap

namespace Rsm.Raft

open Rsm.Rpc Rsm.Storage Process

/-! ## 1. The state of a core -/

inductive Role where
  | follower
  | candidate
  | leader
  deriving DecidableEq, Repr

/-- The event names given to the transition observer. -/
inductive TransitionEvent where
  | higherTermSeen
  | leaderDiscovered
  | electionStarted
  | wonElection
  deriving DecidableEq, Repr

structure RaftConfig where
  electionTimeoutMin : ℕ := 150
  electionTimeoutMax : ℕ := 300
  heartbeatInterval : ℕ := 50
  deriving DecidableEq, Repr

/-- What a core shows to its surroundings. A transition is recorded with the log the observer
    finds at the call, as the fault harness's observer reads it. -/
inductive Output where
  | send (dest : NodeId) (m : Message)
  | transition (term : ℕ) (role : Role) (event : TransitionEvent) (log : InMemoryLog)
  | clientRequest (sender : NodeId) (req : ClientRequest)
  | apply (index : ℕ) (entry : LogEntry)
  | electionSafetyViolation (term : ℕ) (leaderId : NodeId)
  | logMatchingViolation (index : ℕ)
  | ackedBeyondLog (peer : NodeId) (ack : ℕ)
  | termAtOutOfRange (index : ℕ)
  | entryAtOutOfRange (index : ℕ)
  deriving DecidableEq, Repr

abbrev IndexMap := Std.ExtTreeMap NodeId ℕ

theorem IndexMap.getD_insert (m : IndexMap) (k p : NodeId) (v : ℕ) :
    (m.insert k v).getD p 0 = if k = p then v else m.getD p 0 := by
  rw [Std.ExtTreeMap.getD_insert]
  simp only [Std.LawfulEqCmp.compare_eq_iff_eq]

theorem IndexMap.mem_insert (m : IndexMap) (k p : NodeId) (v : ℕ) :
    p ∈ m.insert k v ↔ k = p ∨ p ∈ m := by
  rw [Std.ExtTreeMap.mem_insert, Std.LawfulEqCmp.compare_eq_iff_eq]

/-- The members of `RaftCore`. A deadline of `none` is `TimePoint::max()`. -/
structure RaftCore where
  -- durable: the persistent state and the log
  currentTerm : ℕ := 0
  votedFor : Option NodeId := none
  log : InMemoryLog := []
  -- volatile
  role : Role := .follower
  leaderId : Option NodeId := none
  votesFrom : Finset NodeId := ∅
  electionDeadline : Option ℕ := none
  heartbeatDeadline : Option ℕ := none
  commitIndex : ℕ := 0
  lastApplied : ℕ := 0
  nextIndex : IndexMap := ∅
  matchIndex : IndexMap := ∅
  /-- The draws the generator has still to give. -/
  rng : ℕ → ℕ := fun _ => 0
  /-- What this incarnation's state machine has been handed, in order. -/
  sm : List LogEntry := []
  /-- The history of all incarnations. -/
  out : List Output := []

/-- A restart keeps the persistent state and the log; everything else is as constructed. -/
def RaftCore.restart (s : RaftCore) (rng : ℕ → ℕ) : RaftCore :=
  { currentTerm := s.currentTerm, votedFor := s.votedFor, log := s.log, out := s.out, rng := rng }

/-- What a call finds around the core: who it is, its configuration, the clock, and the hooks the
    runtime has set. -/
structure Ctx where
  self : NodeId
  peers : List NodeId
  cfg : RaftConfig := {}
  now : ℕ := 0
  hasClientHandler : Bool := true
  applySink : Option (ℕ → LogEntry → Bool) := none

def Ctx.majority (K : Ctx) : ℕ := (K.peers.length + 1) / 2 + 1

/-- Higher last term wins; equal last terms compare the last index. -/
def candidateLogAtLeastAsUpToDate (candLastTerm : ℕ) (candLastIndex : ℕ)
    (myLastTerm : ℕ) (myLastIndex : ℕ) : Bool :=
  if candLastTerm ≠ myLastTerm then candLastTerm > myLastTerm
  else candLastIndex ≥ myLastIndex

/-! ## 2. Reads and writes -/

abbrev RaftM := Prog RaftCore

def emit (o : Output) : RaftM Unit := Prog.write fun s => { s with out := s.out ++ [o] }

def send (dest : NodeId) (m : Message) : RaftM Unit := emit (.send dest m)

def transition (event : TransitionEvent) : RaftM Unit := do
  let s ← Prog.read
  emit (.transition s.currentTerm s.role event s.log)

def termAt (i : ℕ) : RaftM ℕ := do
  let s ← Prog.read
  Prog.when (¬ i ≤ s.log.lastIndex) (emit (.termAtOutOfRange i))
  pure (s.log.termAt i)

def entryAt (i : ℕ) : RaftM LogEntry := do
  let s ← Prog.read
  Prog.when (¬ (1 ≤ i ∧ i ≤ s.log.lastIndex)) (emit (.entryAtOutOfRange i))
  pure (s.log.entryAt i)

def persistTermAndVote (term : ℕ) (votedFor : Option NodeId) : RaftM Unit :=
  Prog.write fun s => { s with currentTerm := term, votedFor := votedFor }

def pushBack (e : LogEntry) : RaftM Unit := Prog.write fun s => { s with log := s.log.pushBack e }

def append (entries : List LogEntry) : RaftM Unit := entries.forM pushBack

def truncateSuffixFrom (i : ℕ) : RaftM Unit :=
  Prog.write fun s => { s with log := s.log.truncateSuffixFrom i }

/-- One entry reaches the state machine, or the queue of the thread that owns it. -/
def handOver (index : ℕ) (entry : LogEntry) : RaftM Unit :=
  Prog.write fun s => { s with sm := s.sm ++ [entry], out := s.out ++ [.apply index entry] }

/-- One draw from `[electionTimeoutMin, electionTimeoutMax]`. -/
def RaftConfig.draw (cfg : RaftConfig) (r : ℕ) : ℕ :=
  cfg.electionTimeoutMin + r % (cfg.electionTimeoutMax - cfg.electionTimeoutMin + 1)

section

variable (K : Ctx)

def resetElectionTimer : RaftM Unit :=
  Prog.write fun s =>
    { s with electionDeadline := some (K.now + K.cfg.draw (s.rng 0)), rng := fun k => s.rng (k + 1) }

def armHeartbeat : RaftM Unit :=
  Prog.write fun s => { s with heartbeatDeadline := some (K.now + K.cfg.heartbeatInterval) }

/-! ## 3. Commit and apply -/

/-- The `while` of `applyCommitted`, with the number of entries still to go as fuel. -/
def applyLoop : ℕ → RaftM Unit
  | 0 => pure ()
  | k + 1 => do
      let s ← Prog.read
      if s.lastApplied < s.commitIndex then do
        let next := s.lastApplied + 1
        let entry ← entryAt next
        match K.applySink with
        | some sink =>
            if sink next entry then do
              handOver next entry
              Prog.write fun s => { s with lastApplied := next }
              applyLoop k
            else pure ()
        | none => do
            Prog.write fun s => { s with lastApplied := next }
            handOver next entry
            applyLoop k
      else pure ()

def applyCommitted : RaftM Unit := do
  let s ← Prog.read
  applyLoop K (s.commitIndex - s.lastApplied)

/-- The leader's own log counts. -/
def replicas (s : RaftCore) (n : ℕ) : ℕ :=
  1 + (s.matchIndex.toList.filter fun pm => n ≤ pm.2).length

/-- The `for` of `advanceCommit`, downwards from `n`. -/
def commitScan : ℕ → RaftM Unit
  | 0 => pure ()
  | n + 1 => do
      let s ← Prog.read
      if n + 1 > s.commitIndex then do
        let t ← termAt (n + 1)
        if t ≠ s.currentTerm then pure ()
        else if K.majority ≤ replicas s (n + 1) then do
          Prog.write fun s => { s with commitIndex := n + 1 }
          applyCommitted K
        else commitScan n
      else pure ()

def advanceCommit : RaftM Unit := do
  let s ← Prog.read
  commitScan K s.log.lastIndex

/-! ## 4. Sending the log -/

def sendAppendEntries (peer : NodeId) : RaftM Unit := do
  let s ← Prog.read
  let next := s.nextIndex.getD peer 0
  let prevLogTerm ← termAt (next - 1)
  send peer (.appendEntries
    { term := s.currentTerm, leaderId := K.self, prevLogIndex := next - 1,
      prevLogTerm := prevLogTerm, leaderCommit := s.commitIndex,
      entries := s.log.entriesSpan next })

def sendHeartbeats : RaftM Unit := do
  K.peers.forM (sendAppendEntries K)
  armHeartbeat K

def propose (command : Bytes) : RaftM (Option ℕ) := do
  let s ← Prog.read
  if s.role ≠ .leader then pure none
  else do
    append [{ term := s.currentTerm, command := command }]
    let s ← Prog.read
    let idx := s.log.lastIndex
    advanceCommit K
    K.peers.forM (sendAppendEntries K)
    armHeartbeat K
    pure (some idx)

def proposeBatch (commands : List Bytes) : RaftM (Option ℕ) := do
  let s ← Prog.read
  if commands = [] ∨ s.role ≠ .leader then pure none
  else do
    append (commands.map fun c => { term := s.currentTerm, command := c })
    let s ← Prog.read
    let first := s.log.lastIndex - commands.length + 1
    advanceCommit K
    K.peers.forM (sendAppendEntries K)
    armHeartbeat K
    pure (some first)

/-! ## 5. Roles -/

def becomeFollower (newTerm : ℕ) (event : TransitionEvent) : RaftM Unit := do
  let s ← Prog.read
  Prog.when (newTerm > s.currentTerm) do
    persistTermAndVote newTerm none
    Prog.write fun s => { s with leaderId := none }
  let s ← Prog.read
  Prog.when (s.role = .leader) do
    Prog.write fun s => { s with heartbeatDeadline := none }
    resetElectionTimer K
  Prog.write fun s => { s with role := .follower }
  transition event

/-- Every peer mapped to `i`. -/
def indexAll (peers : List NodeId) (i : ℕ) : IndexMap :=
  peers.foldl (fun m p => m.insert p i) ∅

/-- The assignments of `becomeLeader` and its observer call are one moment: nothing durable and no
    message lies between them, so the line is there whenever the role has been taken. -/
def becomeLeader : RaftM Unit := do
  Prog.write fun s =>
    { s with
      role := .leader
      leaderId := some K.self
      nextIndex := indexAll K.peers (s.log.lastIndex + 1)
      matchIndex := indexAll K.peers 0
      electionDeadline := none
      out := s.out ++ [.transition s.currentTerm .leader .wonElection s.log] }
  sendHeartbeats K

def startElection : RaftM Unit := do
  let s ← Prog.read
  persistTermAndVote (s.currentTerm + 1) (some K.self)
  Prog.write fun s =>
    { s with
      role := .candidate
      leaderId := none
      votesFrom := {K.self}
      heartbeatDeadline := none }
  resetElectionTimer K
  transition .electionStarted
  let s ← Prog.read
  K.peers.forM fun peer => send peer (.requestVote
    { term := s.currentTerm, candidateId := K.self, lastLogIndex := s.log.lastIndex,
      lastLogTerm := s.log.lastTerm })
  let s ← Prog.read
  Prog.when (s.votesFrom.card ≥ K.majority) (becomeLeader K)

/-- `now >= deadline`. -/
def due (now : ℕ) : Option ℕ → Bool
  | none => false
  | some deadline => now ≥ deadline

def tick : RaftM Unit := do
  let s ← Prog.read
  if s.role ≠ .leader ∧ due K.now s.electionDeadline then startElection K
  else Prog.when (s.role = .leader ∧ due K.now s.heartbeatDeadline) (sendHeartbeats K)

/-! ## 6. Votes -/

def onRequestVote (sender : NodeId) (rv : RequestVote) : RaftM Unit := do
  let s ← Prog.read
  if rv.term < s.currentTerm then
    send sender (.requestVoteReply { term := s.currentTerm, voteGranted := false })
  else do
    let grant : Bool :=
      candidateLogAtLeastAsUpToDate rv.lastLogTerm rv.lastLogIndex s.log.lastTerm s.log.lastIndex &&
        (s.votedFor == none || s.votedFor == some rv.candidateId)
    Prog.when grant do
      persistTermAndVote s.currentTerm (some rv.candidateId)
      resetElectionTimer K
    send sender (.requestVoteReply { term := s.currentTerm, voteGranted := grant })

def onRequestVoteReply (sender : NodeId) (r : RequestVoteReply) : RaftM Unit := do
  let s ← Prog.read
  Prog.when (s.role = .candidate ∧ r.term = s.currentTerm ∧ r.voteGranted) do
    Prog.write fun s => { s with votesFrom := insert sender s.votesFrom }
    let s ← Prog.read
    Prog.when (s.votesFrom.card ≥ K.majority) (becomeLeader K)

/-! ## 7. Replication -/

/-- The walk down to the first index of the conflicting term. -/
def firstOfTerm (conflictTerm : ℕ) : ℕ → RaftM ℕ
  | 0 => pure 0
  | 1 => pure 1
  | first + 2 => do
      let t ← termAt (first + 1)
      if t = conflictTerm then firstOfTerm conflictTerm (first + 1) else pure (first + 2)

/-- The walk over the incoming entries against the local log, from index `idx`. Returns the
    entries that are still to be appended. -/
def resolveConflicts (idx : ℕ) : List LogEntry → RaftM (List LogEntry)
  | [] => pure []
  | e :: es => do
      let s ← Prog.read
      if idx > s.log.lastIndex then pure (e :: es)
      else do
        let t ← termAt idx
        if t ≠ e.term then do
          Prog.when (idx ≤ s.commitIndex) (emit (.logMatchingViolation idx))
          truncateSuffixFrom idx
          pure (e :: es)
        else resolveConflicts (idx + 1) es

/-- `onAppendEntries` once the consistency check has passed. -/
def acceptEntries (sender : NodeId) (ae : AppendEntries) (cur : ℕ) : RaftM Unit := do
  let rest ← resolveConflicts (ae.prevLogIndex + 1) ae.entries
  append rest
  let s ← Prog.read
  let confirmedThrough := ae.prevLogIndex + ae.entries.length
  Prog.when (ae.leaderCommit > s.commitIndex) do
    Prog.write fun s => { s with commitIndex := min ae.leaderCommit confirmedThrough }
    applyCommitted K
  send sender (.appendEntriesReply
    { term := cur, success := true, conflictIndex := confirmedThrough, conflictTerm := 0 })

/-- The consistency check of `onAppendEntries`: the hints on a mismatch. -/
def checkEntries (sender : NodeId) (ae : AppendEntries) (cur : ℕ) : RaftM Unit := do
  let s ← Prog.read
  if ae.prevLogIndex > s.log.lastIndex then
    send sender (.appendEntriesReply
      { term := cur, success := false, conflictIndex := s.log.lastIndex + 1, conflictTerm := 0 })
  else do
    let conflictTerm ← termAt ae.prevLogIndex
    if conflictTerm ≠ ae.prevLogTerm then do
      let first ← firstOfTerm conflictTerm ae.prevLogIndex
      send sender (.appendEntriesReply
        { term := cur, success := false, conflictIndex := first, conflictTerm := conflictTerm })
    else acceptEntries K sender ae cur

def onAppendEntries (sender : NodeId) (ae : AppendEntries) : RaftM Unit := do
  let s ← Prog.read
  if ae.term < s.currentTerm then
    send sender (.appendEntriesReply
      { term := s.currentTerm, success := false, conflictIndex := 0, conflictTerm := 0 })
  else if s.role = .leader then emit (.electionSafetyViolation s.currentTerm ae.leaderId)
  else do
    Prog.write fun s => { s with leaderId := some ae.leaderId }
    Prog.when (s.role = .candidate) (becomeFollower K s.currentTerm .leaderDiscovered)
    resetElectionTimer K
    checkEntries K sender ae s.currentTerm

/-- The last index of the log with the follower's conflicting term, downwards from `i`; 0 if there
    is none. -/
def lastOfTerm (conflictTerm : ℕ) : ℕ → RaftM ℕ
  | 0 => pure 0
  | i + 1 => do
      let t ← termAt (i + 1)
      if t = conflictTerm then pure (i + 1) else lastOfTerm conflictTerm i

/-- The next index the conflict hint of a failed check asks for. -/
def hintedNext (r : AppendEntriesReply) : RaftM ℕ := do
  if r.conflictTerm = 0 then pure r.conflictIndex
  else do
    let s ← Prog.read
    let last ← lastOfTerm r.conflictTerm s.log.lastIndex
    pure (if last ≠ 0 then last + 1 else r.conflictIndex)

def onAppendEntriesReply (sender : NodeId) (r : AppendEntriesReply) : RaftM Unit := do
  let s ← Prog.read
  if s.role ≠ .leader then pure ()
  else if r.term ≠ s.currentTerm then pure ()
  else if r.success then
    if r.conflictIndex > s.log.lastIndex then emit (.ackedBeyondLog sender r.conflictIndex)
    else Prog.when (r.conflictIndex > s.matchIndex.getD sender 0) do
      Prog.write fun s =>
        { s with
          matchIndex := s.matchIndex.insert sender r.conflictIndex
          nextIndex := s.nextIndex.insert sender (r.conflictIndex + 1) }
      advanceCommit K
      let s ← Prog.read
      Prog.when (s.nextIndex.getD sender 0 ≤ s.log.lastIndex) (sendAppendEntries K sender)
  else do
    let ni ← hintedNext r
    Prog.write fun s =>
      { s with
        nextIndex := s.nextIndex.insert sender
          (max (max (min ni (s.nextIndex.getD sender 0)) (s.matchIndex.getD sender 0 + 1)) 1) }
    sendAppendEntries K sender

/-! ## 8. The inputs of a core -/

def dispatch (sender : NodeId) : Message → RaftM Unit
  | .requestVote rv => onRequestVote K sender rv
  | .requestVoteReply r => onRequestVoteReply K sender r
  | .appendEntries ae => onAppendEntries K sender ae
  | .appendEntriesReply r => onAppendEntriesReply K sender r
  | .clientRequest req => Prog.when K.hasClientHandler (emit (.clientRequest sender req))
  | .clientReply _ => pure ()

/-- The universal term rule: a higher term makes a follower of that term. -/
def liftTerm (m : Message) : RaftM Unit := do
  let s ← Prog.read
  match termOf m with
  | none => pure ()
  | some t => Prog.when (t > s.currentTerm) (becomeFollower K t .higherTermSeen)

def handle (sender : NodeId) (m : Message) : RaftM Unit := do
  liftTerm K m
  dispatch K sender m

/-- The calls the runtime makes. -/
inductive Input where
  | start
  | tick
  | handle (sender : NodeId) (m : Message)
  | propose (command : Bytes)
  | proposeBatch (commands : List Bytes)
  | pumpApply
  deriving DecidableEq, Repr

def step : Input → RaftM Unit
  | .start => resetElectionTimer K
  | .tick => tick K
  | .handle sender m => handle K sender m
  | .propose command => do let _ ← propose K command
  | .proposeBatch commands => do let _ ← proposeBatch K commands
  | .pumpApply => applyCommitted K

end

end Rsm.Raft
