/-
  File:      RaftRsm/Rpc/Messages.lean
  Subject:   The messages of the cluster (`rpc/messages.h`).

  The six message structs and their sum type. Node ids, terms and log indices are natural
  numbers: the development assumes that terms and indices do not reach `2^64 - 1`. Commands and
  results are byte strings.
-/
import Mathlib.Data.Nat.Notation
import Mathlib.Algebra.GroupWithZero.Nat

namespace Rsm.Rpc

abbrev NodeId := ℕ

/-- A command or a result: `std::vector<std::uint8_t>`. -/
abbrev Bytes := List UInt8

structure RequestVote where
  term : ℕ
  candidateId : NodeId
  lastLogIndex : ℕ
  lastLogTerm : ℕ
  deriving DecidableEq, Repr

structure RequestVoteReply where
  term : ℕ
  voteGranted : Bool
  deriving DecidableEq, Repr

structure LogEntry where
  term : ℕ
  command : Bytes
  deriving DecidableEq, Repr, Inhabited

structure AppendEntries where
  term : ℕ
  leaderId : NodeId
  prevLogIndex : ℕ
  prevLogTerm : ℕ
  leaderCommit : ℕ
  entries : List LogEntry
  deriving DecidableEq, Repr

/-- On failure `conflictIndex` and `conflictTerm` are the backtracking hints (`conflictTerm = 0`:
    log too short); on success `conflictIndex` is the last index the request vouched for. -/
structure AppendEntriesReply where
  term : ℕ
  success : Bool
  conflictIndex : ℕ
  conflictTerm : ℕ
  deriving DecidableEq, Repr

inductive ClientStatus where
  | ok
  | notLeader
  | error
  deriving DecidableEq, Repr

structure ClientRequest where
  clientId : ℕ
  seqNo : ℕ
  command : Bytes
  deriving DecidableEq, Repr

structure ClientReply where
  status : ClientStatus
  leaderHint : NodeId
  result : Bytes
  deriving DecidableEq, Repr

inductive Message where
  | requestVote (rv : RequestVote)
  | requestVoteReply (r : RequestVoteReply)
  | appendEntries (ae : AppendEntries)
  | appendEntriesReply (r : AppendEntriesReply)
  | clientRequest (req : ClientRequest)
  | clientReply (rep : ClientReply)
  deriving DecidableEq, Repr

/-- The term a message carries, for the universal term rule; client messages carry none. -/
def termOf : Message → Option ℕ
  | .requestVote rv => some rv.term
  | .requestVoteReply r => some r.term
  | .appendEntries ae => some ae.term
  | .appendEntriesReply r => some r.term
  | .clientRequest _ => none
  | .clientReply _ => none

end Rsm.Rpc
