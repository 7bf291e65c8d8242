/-
  File:      RaftRsm/Rpc/Codec.lean
  Subject:   The encoding of messages (`rpc/messages.cpp`).

  Encoders write through a `Writer`. Decoders read through a `Reader` into a message that is there
  already, and say whether they succeeded; on failure the message holds whatever was written into it
  until then. A vector of the pool has its back at the head of the list.
-/
import RaftRsm.Rpc.Wire

namespace Rsm.Rpc

/-! ## 1. Messages and their sizes -/

def kProtocolVersion : ℕ := 1

def kEnvelopeSize : ℕ := 12

/-- Hard cap on one message's payload. -/
def kMaxPayloadSize : ℕ := 16 * 1024 * 1024

/-- Minimum wire size of one log entry. -/
def kMinEntryWireSize : ℕ := 12

inductive MessageType where
  | requestVote
  | requestVoteReply
  | appendEntries
  | appendEntriesReply
  | clientRequest
  | clientReply
  deriving DecidableEq, Repr

namespace MessageType

def toByte : MessageType → ℕ
  | requestVote => 1
  | requestVoteReply => 2
  | appendEntries => 3
  | appendEntriesReply => 4
  | clientRequest => 5
  | clientReply => 6

/-- `validType` and the cast after it. -/
def ofByte : ℕ → Option MessageType
  | 1 => some requestVote
  | 2 => some requestVoteReply
  | 3 => some appendEntries
  | 4 => some appendEntriesReply
  | 5 => some clientRequest
  | 6 => some clientReply
  | _ => none

end MessageType

/-- `from` and the rest of the header. The default type of the source names no message. -/
structure Envelope where
  version : ℕ := kProtocolVersion
  type : MessageType := .requestVote
  from_ : NodeId := 0
  to_ : NodeId := 0
  payloadLength : ℕ := 0
  deriving DecidableEq, Repr

def typeOf : Message → MessageType
  | .requestVote _ => .requestVote
  | .requestVoteReply _ => .requestVoteReply
  | .appendEntries _ => .appendEntries
  | .appendEntriesReply _ => .appendEntriesReply
  | .clientRequest _ => .clientRequest
  | .clientReply _ => .clientReply

def payloadSize : Message → ℕ
  | .requestVote _ => 8 + 2 + 8 + 8
  | .requestVoteReply _ => 8 + 1
  | .appendEntries v =>
      v.entries.foldl (fun n e => n + (8 + 4 + e.command.length)) (8 + 2 + 8 + 8 + 8 + 4)
  | .appendEntriesReply _ => 8 + 1 + 8 + 8
  | .clientRequest v => 8 + 8 + 4 + v.command.length
  | .clientReply v => 1 + 2 + 4 + v.result.length

def encodedSize (m : Message) : ℕ := kEnvelopeSize + payloadSize m

def ClientStatus.toByte : ClientStatus → ℕ
  | .ok => 0
  | .notLeader => 1
  | .error => 2

def ClientStatus.ofByte : ℕ → Option ClientStatus
  | 0 => some .ok
  | 1 => some .notLeader
  | 2 => some .error
  | _ => none

/-! ## 2. Encoders -/

def encodeEnvelope (e : Envelope) (w : Writer) : Writer :=
  let w := w.u8 e.version
  let w := w.u8 e.type.toByte
  let w := w.u16 e.from_
  let w := w.u16 e.to_
  let w := w.u16 0
  w.u32 e.payloadLength

def RequestVote.encodePayload (m : RequestVote) (w : Writer) : Writer :=
  let w := w.u64 m.term
  let w := w.u16 m.candidateId
  let w := w.u64 m.lastLogIndex
  w.u64 m.lastLogTerm

def RequestVoteReply.encodePayload (m : RequestVoteReply) (w : Writer) : Writer :=
  let w := w.u64 m.term
  w.u8 (if m.voteGranted then 1 else 0)

/-- One round of the loop over the entries. -/
def encodeEntry (w : Writer) (e : LogEntry) : Writer :=
  let w := w.u64 e.term
  let w := w.u32 e.command.length
  w.bytes e.command

def AppendEntries.encodePayload (m : AppendEntries) (w : Writer) : Writer :=
  let w := w.u64 m.term
  let w := w.u16 m.leaderId
  let w := w.u64 m.prevLogIndex
  let w := w.u64 m.prevLogTerm
  let w := w.u64 m.leaderCommit
  let w := w.u32 m.entries.length
  m.entries.foldl encodeEntry w

def AppendEntriesReply.encodePayload (m : AppendEntriesReply) (w : Writer) : Writer :=
  let w := w.u64 m.term
  let w := w.u8 (if m.success then 1 else 0)
  let w := w.u64 m.conflictIndex
  w.u64 m.conflictTerm

def ClientRequest.encodePayload (m : ClientRequest) (w : Writer) : Writer :=
  let w := w.u64 m.clientId
  let w := w.u64 m.seqNo
  let w := w.u32 m.command.length
  w.bytes m.command

def ClientReply.encodePayload (m : ClientReply) (w : Writer) : Writer :=
  let w := w.u8 m.status.toByte
  let w := w.u16 m.leaderHint
  let w := w.u32 m.result.length
  w.bytes m.result

def encodePayload : Message → Writer → Writer
  | .requestVote v => v.encodePayload
  | .requestVoteReply v => v.encodePayload
  | .appendEntries v => v.encodePayload
  | .appendEntriesReply v => v.encodePayload
  | .clientRequest v => v.encodePayload
  | .clientReply v => v.encodePayload

/-- What is returned, and what was written to the front of a buffer of `size` bytes. -/
def encodeMessage (from_ to_ : NodeId) (m : Message) (size : ℕ) : ℕ × Bytes :=
  let psize := payloadSize m
  if psize > kMaxPayloadSize ∨ size < kEnvelopeSize + psize then (0, [])
  else
    let env : Envelope := { type := typeOf m, from_, to_, payloadLength := psize }
    let w := encodePayload m (encodeEnvelope env { size })
    (if w.ok then w.written else 0, w.out)

/-! ## 3. Decoders -/

def decodeBool (r : Reader) (out : Bool) : Bool × Bool × Reader :=
  let (v, r) := r.u8
  if !r.ok || v > 1 then (false, out, r) else (true, v == 1, r)

def decodeBlob (r : Reader) (out : Bytes) : Bool × Bytes × Reader :=
  let (len, r) := r.u32
  if !r.ok || len > r.remaining then (false, out, r)
  else match r.readBytes len with
    | (none, r) => (false, out, r)
    | (some b, r) => (true, b, r)

def RequestVote.decodePayload (r : Reader) : Bool × RequestVote × Reader :=
  let (term, r) := r.u64
  let (candidateId, r) := r.u16
  let (lastLogIndex, r) := r.u64
  let (lastLogTerm, r) := r.u64
  (r.ok, { term, candidateId, lastLogIndex, lastLogTerm }, r)

def RequestVoteReply.decodePayload (r : Reader) (m : RequestVoteReply) :
    Bool × RequestVoteReply × Reader :=
  let (term, r) := r.u64
  let m := { m with term }
  if !r.ok then (false, m, r)
  else
    let (good, voteGranted, r) := decodeBool r m.voteGranted
    (good, { m with voteGranted }, r)

def AppendEntriesReply.decodePayload (r : Reader) (m : AppendEntriesReply) :
    Bool × AppendEntriesReply × Reader :=
  let (term, r) := r.u64
  let m := { m with term }
  if !r.ok then (false, m, r)
  else
    let (good, success, r) := decodeBool r m.success
    let m := { m with success }
    if !good then (false, m, r)
    else
      let (conflictIndex, r) := r.u64
      let (conflictTerm, r) := r.u64
      (r.ok, { m with conflictIndex, conflictTerm }, r)

def ClientRequest.decodePayload (r : Reader) (m : ClientRequest) : Bool × ClientRequest × Reader :=
  let (clientId, r) := r.u64
  let (seqNo, r) := r.u64
  let m := { m with clientId, seqNo }
  if !r.ok then (false, m, r)
  else
    let (good, command, r) := decodeBlob r m.command
    (good, { m with command }, r)

def ClientReply.decodePayload (r : Reader) (m : ClientReply) : Bool × ClientReply × Reader :=
  let (status, r) := r.u8
  match ClientStatus.ofByte status with
  | none => (false, m, r)
  | some status =>
      if !r.ok then (false, m, r)
      else
        let (leaderHint, r) := r.u16
        let m := { m with status, leaderHint }
        let (good, result, r) := decodeBlob r m.result
        (good, { m with result }, r)

structure DecodePool where
  bufs : List Bytes := []
  entryLists : List (List LogEntry) := []
  deriving DecidableEq, Repr

namespace DecodePool

def getBuf (pool : DecodePool) : Bytes × DecodePool :=
  match pool.bufs with
  | [] => ([], pool)
  | b :: bufs => (b, { pool with bufs })

/-- `putBuf` of the commands of some entries, from the last to the first. -/
def putCommands (pool : DecodePool) (entries : List LogEntry) : DecodePool :=
  { pool with bufs := entries.map LogEntry.command ++ pool.bufs }

end DecodePool

/-- One entry, over the one that is there. -/
def decodeEntry (r : Reader) (e : LogEntry) : Bool × LogEntry × Reader :=
  let (term, r) := r.u64
  let e := { e with term }
  if !r.ok then (false, e, r)
  else
    let (good, command, r) := decodeBlob r e.command
    (good, { e with command }, r)

/-- The entry that the loop reads into, with what stands behind it: one is pushed where the vector
    has no more. -/
def nextSlot (rest : List LogEntry) (pool : DecodePool) : LogEntry × List LogEntry × DecodePool :=
  match rest with
  | [] => (⟨0, pool.getBuf.1⟩, [], pool.getBuf.2)
  | e :: rest => (e, rest, pool)

/-- The loop over the entries, with `k` of them to read: `done` was read, and `rest` is what stands
    behind it in the vector. -/
def decodeEntries : ℕ → Reader → List LogEntry → List LogEntry → DecodePool →
    Bool × List LogEntry × DecodePool × Reader
  | 0, r, done, rest, pool => (true, done ++ rest, pool, r)
  | k + 1, r, done, rest, pool =>
      let (e, rest, pool) := nextSlot rest pool
      let (good, e, r) := decodeEntry r e
      if !good then (false, done ++ e :: rest, pool, r)
      else decodeEntries k r (done ++ [e]) rest pool

def AppendEntries.decodePayloadInto (r : Reader) (m : AppendEntries) (pool : DecodePool) :
    Bool × AppendEntries × DecodePool × Reader :=
  let (term, r) := r.u64
  let (leaderId, r) := r.u16
  let (prevLogIndex, r) := r.u64
  let (prevLogTerm, r) := r.u64
  let (leaderCommit, r) := r.u64
  let m := { m with term, leaderId, prevLogIndex, prevLogTerm, leaderCommit }
  let (count, r) := r.u32
  if !r.ok then (false, m, pool, r)
  else if count > r.remaining / kMinEntryWireSize then (false, m, pool, r)
  else
    let pool := pool.putCommands (m.entries.drop count)
    let (good, entries, pool, r) := decodeEntries count r [] (m.entries.take count) pool
    (good, { m with entries }, pool, r)

/-- The buffers of an alternative that the message leaves. -/
def salvage (m : Message) (pool : DecodePool) : DecodePool :=
  match m with
  | .appendEntries ae =>
      let pool := { pool with bufs := (ae.entries.map LogEntry.command).reverse ++ pool.bufs }
      { pool with entryLists := [] :: pool.entryLists }
  | .clientRequest cr => { pool with bufs := cr.command :: pool.bufs }
  | .clientReply rep => { pool with bufs := rep.result :: pool.bufs }
  | _ => pool

/-- `alternativeFor<RequestVoteReply>`, and so on for the other types. -/
def requestVoteReplyFor (msg : Message) (pool : DecodePool) : RequestVoteReply × DecodePool :=
  match msg with
  | .requestVoteReply m => (m, pool)
  | _ => (⟨0, false⟩, salvage msg pool)

def appendEntriesFor (msg : Message) (pool : DecodePool) : AppendEntries × DecodePool :=
  match msg with
  | .appendEntries m => (m, pool)
  | _ =>
      let pool := salvage msg pool
      match pool.entryLists with
      | [] => (⟨0, 0, 0, 0, 0, []⟩, pool)
      | entries :: entryLists => (⟨0, 0, 0, 0, 0, entries⟩, { pool with entryLists })

def appendEntriesReplyFor (msg : Message) (pool : DecodePool) : AppendEntriesReply × DecodePool :=
  match msg with
  | .appendEntriesReply m => (m, pool)
  | _ => (⟨0, false, 0, 0⟩, salvage msg pool)

def clientRequestFor (msg : Message) (pool : DecodePool) : ClientRequest × DecodePool :=
  match msg with
  | .clientRequest m => (m, pool)
  | _ =>
      let (command, pool) := (salvage msg pool).getBuf
      (⟨0, 0, command⟩, pool)

def clientReplyFor (msg : Message) (pool : DecodePool) : ClientReply × DecodePool :=
  match msg with
  | .clientReply m => (m, pool)
  | _ =>
      let (result, pool) := (salvage msg pool).getBuf
      (⟨.ok, 0, result⟩, pool)

structure DecodedMessage where
  envelope : Envelope := {}
  message : Message := .requestVote ⟨0, 0, 0, 0⟩
  deriving DecidableEq, Repr

/-- `decodeIntoAlternative`, at the type of the envelope. -/
def decodeIntoAlternative (t : MessageType) (r : Reader) (out : Message) (pool : DecodePool) :
    Bool × Message × DecodePool × Reader :=
  match t with
  | .requestVote =>
      let (good, m, r) := RequestVote.decodePayload r
      let pool := match out with
        | .requestVote _ => pool
        | _ => salvage out pool
      (good, .requestVote m, pool, r)
  | .requestVoteReply =>
      let (m, pool) := requestVoteReplyFor out pool
      let (good, m, r) := RequestVoteReply.decodePayload r m
      (good, .requestVoteReply m, pool, r)
  | .appendEntries =>
      let (m, pool) := appendEntriesFor out pool
      let (good, m, pool, r) := AppendEntries.decodePayloadInto r m pool
      (good, .appendEntries m, pool, r)
  | .appendEntriesReply =>
      let (m, pool) := appendEntriesReplyFor out pool
      let (good, m, r) := AppendEntriesReply.decodePayload r m
      (good, .appendEntriesReply m, pool, r)
  | .clientRequest =>
      let (m, pool) := clientRequestFor out pool
      let (good, m, r) := ClientRequest.decodePayload r m
      (good, .clientRequest m, pool, r)
  | .clientReply =>
      let (m, pool) := clientReplyFor out pool
      let (good, m, r) := ClientReply.decodePayload r m
      (good, .clientReply m, pool, r)

def decodeMessageInto (frame : Bytes) (out : DecodedMessage) (pool : DecodePool) :
    Bool × DecodedMessage × DecodePool :=
  if frame.length < kEnvelopeSize ∨ frame.length > kEnvelopeSize + kMaxPayloadSize then
    (false, out, pool)
  else
    let r : Reader := { rest := frame }
    let (version, r) := r.u8
    let (rawType, r) := r.u8
    let (from_, r) := r.u16
    let (to_, r) := r.u16
    let (reserved, r) := r.u16
    let (payloadLength, r) := r.u32
    let env := { out.envelope with version, from_, to_, payloadLength }
    if !r.ok || version != kProtocolVersion || reserved != 0 then (false, { out with envelope := env }, pool)
    else match MessageType.ofByte rawType with
      | none => (false, { out with envelope := env }, pool)
      | some type =>
          if payloadLength != frame.length - kEnvelopeSize then
            (false, { out with envelope := env }, pool)
          else
            let (good, message, pool, r) := decodeIntoAlternative type r out.message pool
            (good && r.exhausted, { envelope := { env with type }, message }, pool)

def decodeMessage (frame : Bytes) : Option DecodedMessage :=
  match decodeMessageInto frame {} {} with
  | (false, _, _) => none
  | (true, out, _) => some out

end Rsm.Rpc
