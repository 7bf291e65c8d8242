/-
  File:      RaftRsm/Transport/Outbound.lean
  Subject:   WHAT LEAVES A NODE: the frame of an outbound message (`runtime/node_runtime.cpp`,
             `sendFromPipeline`), and which AppendEntries have one.

  One AppendEntries carries everything from the peer's next index to the end of the log; the cap of
  the codec is for one message. A ClientRequest has 20 bytes around its command, an AppendEntries 38
  and 12 more for each entry: a command that was let in need not fit into the message that
  replicates it.

  * `sendFromPipeline` -- the frame in the ring, empty where the message does not encode;
  * `append_entries_sendable_iff` -- an AppendEntries is sent if and only if the backlog of the peer
    leaves room for its header.
-/
import RaftRsm.Client.Service
import RaftRsm.Raft.Proposing
import RaftRsm.Raft.Safety
import RaftRsm.Rpc.CodecLaws
import RaftRsm.Transport.Frame

namespace Rsm.Transport

open Rsm.Rpc Rsm.Raft Rsm.Raft.Cluster Rsm.Storage Process

/-! ## 1. Frames -/

/-- The frame in the slot of the ring. An empty one is what a failed encoding leaves: the thread that
    sends skips it. -/
def sendFromPipeline (self to_ : NodeId) (m : Message) : Bytes :=
  let (bodyLen, body) := encodeMessage self to_ m (encodedSize m)
  if bodyLen = 0 then [] else writeLengthPrefix bodyLen ++ body

/-- **A message encodes if and only if it is within the cap**, given room for it. -/
theorem encodeMessage_ne_zero_iff (from_ to_ : NodeId) (m : Message) :
    (encodeMessage from_ to_ m (encodedSize m)).1 ≠ 0 ↔ payloadSize m ≤ kMaxPayloadSize := by
  constructor
  · intro h
    by_contra hp
    have hno : payloadSize m > kMaxPayloadSize ∨ encodedSize m < kEnvelopeSize + payloadSize m :=
      .inl (Nat.lt_of_not_le hp)
    rw [show encodeMessage from_ to_ m (encodedSize m) = (0, []) from if_pos hno] at h
    exact h rfl
  · intro hp
    rw [encodeMessage_eq from_ to_ hp (Nat.le_refl _)]
    unfold encodedSize kEnvelopeSize
    dsimp only
    omega

theorem sendFromPipeline_ne_nil_iff (self to_ : NodeId) (m : Message) :
    sendFromPipeline self to_ m ≠ [] ↔ payloadSize m ≤ kMaxPayloadSize := by
  rw [← encodeMessage_ne_zero_iff self to_ m]
  unfold sendFromPipeline
  dsimp only
  by_cases h : (encodeMessage self to_ m (encodedSize m)).1 = 0
  · rw [if_pos h]
    simp only [ne_eq, not_true, h]
  · rw [if_neg h]
    simp only [ne_eq, h, not_false_eq_true, writeLengthPrefix, List.cons_append, reduceCtorEq]

/-! ## 2. The backlog of a peer -/

/-- The bytes that the entries from the next index of `p` on take in an AppendEntries. -/
def backlog (s : RaftCore) (p : NodeId) : ℕ :=
  ((s.log.entriesSpan (s.nextIndex.getD p 0)).map fun e => kMinEntryWireSize + e.command.length).sum

theorem payloadSize_appendEntriesTo (K : Ctx) (s : RaftCore) (p : NodeId) :
    payloadSize (.appendEntries (appendEntriesTo K s p)) = 38 + backlog s p := by
  unfold payloadSize backlog
  dsimp only
  rw [foldl_entrySize, List.length_flatMap]
  simp only [length_entryBytes]
  rfl

/-- **When an AppendEntries can be sent.** `sendAppendEntries` sends one message to `p`; it is within
    the cap, encodes and has a frame if and only if what `p` has still to get leaves room for the 38
    bytes of the header. -/
theorem append_entries_sendable_iff (K : Ctx) (s : RaftCore) (p : NodeId) :
    ∃ m, Told s ((sendAppendEntries K p).final s) [(p, m)] ∧
      m = .appendEntries (appendEntriesTo K s p) ∧
      ((payloadSize m ≤ kMaxPayloadSize ∧ (encodeMessage K.self p m (encodedSize m)).1 ≠ 0 ∧
          sendFromPipeline K.self p m ≠ []) ↔
        backlog s p ≤ kMaxPayloadSize - 38) := by
  refine ⟨_, ends_final (ends_sendAppendEntries p), rfl, ?_⟩
  rw [encodeMessage_ne_zero_iff, sendFromPipeline_ne_nil_iff, and_self, and_self,
    payloadSize_appendEntriesTo]
  unfold kMaxPayloadSize
  omega

/-- Of three entries node 2 has the first: the other two make a frame of 4 + 12 + 38 + 27 bytes. -/
example :
    let s : RaftCore :=
      { currentTerm := 1, role := .leader, log := [⟨1, [7]⟩, ⟨1, [8]⟩, ⟨1, [9, 9]⟩],
        nextIndex := (∅ : IndexMap).insert 2 2 }
    let m := Message.appendEntries (appendEntriesTo (trioCall 1 1000 .tick).1 s 2)
    backlog s 2 = 27 ∧ (encodeMessage 1 2 m (encodedSize m)).1 = kEnvelopeSize + 65 ∧
      (sendFromPipeline 1 2 m).length = 4 + kEnvelopeSize + 65 := by
  decide +kernel

/-! ## 3. A command that cannot be replicated -/

/-- A request of client 1 with `n` bytes behind its identity. -/
def paddedRequest (n : ℕ) : ClientRequest :=
  { clientId := 1, seqNo := 1, command := leBytes 8 1 ++ (leBytes 8 1 ++ List.replicate n 0) }

theorem length_paddedRequest (n : ℕ) : (paddedRequest n).command.length = 16 + n := by
  simp only [paddedRequest, List.length_append, length_leBytes, List.length_replicate]
  omega

theorem payloadSize_paddedRequest (n : ℕ) :
    payloadSize (.clientRequest (paddedRequest n)) = 36 + n := by
  show 8 + 8 + 4 + (paddedRequest n).command.length = 36 + n
  rw [length_paddedRequest]
  omega

/-- Node 1 of three wins term 1. -/
def trioLeads : NodeId → RaftCore :=
  play trio.system.init
    [trioCall 1 0 .start, trioCall 1 1000 .tick,
     trioCall 2 1000 (.handle 1 (.requestVote ⟨1, 1, 0, 0⟩)),
     trioCall 1 1000 (.handle 2 (.requestVoteReply ⟨1, true⟩))]

theorem trioLeads_reachable : trio.system.Reachable (resting trioLeads) :=
  reach_play (C := trio) (x := trio.system.init) (by decide +kernel)

/-- It then proposes `command`, and its clock ticks at the times `ts`. -/
def trioTicks (command : Bytes) (ts : List ℕ) : NodeId → RaftCore :=
  play (call trioLeads (trioCall 1 1000 .tick).1 (.propose command))
    (ts.map fun now => trioCall 1 now .tick)

/-- Node 1 leads term 1 and its log is `command`, which no peer has acknowledged. -/
structure Stuck (command : Bytes) (s : RaftCore) : Prop where
  role : s.role = .leader
  log : s.log = [⟨1, command⟩]
  next : s.nextIndex = (trioLeads 1).nextIndex

section Stuck

variable {command : Bytes} {s t : RaftCore}

theorem Stuck.replicated {K : Ctx} (h : Stuck command s) (ht : Replicated K [] s t) :
    Stuck command t :=
  ⟨ht.role.trans h.role, by rw [ht.log, h.log]; rfl, ht.nextIndex.trans h.next⟩

theorem stuck_tick (h : Stuck command s) (K : Ctx) : Stuck command ((step K .tick).final s) := by
  rcases ends_final (ends_tick_leader (K := K) h.role) with ht | ht
  · rw [show (step K .tick).final s = s from ht]
    exact h
  · exact h.replicated ht

theorem stuck_ticks (ts : List ℕ) : ∀ {x : NodeId → RaftCore}, Stuck command (x 1) →
    Stuck command (play x (ts.map fun now => trioCall 1 now .tick) 1) := by
  induction ts with
  | nil => exact fun h => h
  | cons now ts ih =>
      intro x h
      refine ih ?_
      show Stuck command (call x (trioCall 1 now .tick).1 .tick 1)
      unfold call trioCall
      rw [Function.update_self]
      exact stuck_tick h _

theorem stuck_trioTicks (command : Bytes) (ts : List ℕ) : Stuck command (trioTicks command ts 1) := by
  refine stuck_ticks ts ?_
  have hrole : (trioLeads 1).role = .leader := by decide +kernel
  have hterm : (trioLeads 1).currentTerm = 1 := by decide +kernel
  have hlog : (trioLeads 1).log = [] := by decide +kernel
  show Stuck command (call trioLeads (trioCall 1 1000 .tick).1 (.propose command) 1)
  unfold call
  rw [show (trioCall 1 1000 .tick).1.self = 1 from rfl, Function.update_self, final_step_propose]
  obtain ⟨-, ht⟩ := ends_final (ends_propose (K := (trioCall 1 1000 .tick).1) hrole command)
  exact ⟨ht.role.trans hrole, ht.log.trans (by rw [hlog, hterm]; rfl), ht.nextIndex⟩

theorem playable_ticks (ts : List ℕ) : ∀ x : NodeId → RaftCore,
    trio.Playable x (ts.map fun now => trioCall 1 now .tick) := by
  induction ts with
  | nil => exact fun _ => trivial
  | cons now ts ih =>
      have hself : (1 : NodeId) ∈ trio.ids := by decide
      exact fun x => ⟨hself, rfl, trivial, ih _⟩

theorem trioTicks_reachable (command : Bytes) (ts : List ℕ) :
    trio.system.Reachable (resting (trioTicks command ts)) := by
  have hpropose : trio.Playable trioLeads [((trioCall 1 1000 .tick).1, .propose command)] :=
    ⟨by decide, rfl, trivial, trivial⟩
  exact (trioLeads_reachable.trans (reach_play hpropose)).trans (reach_play (playable_ticks ts _))

/-- The service lets a request with its own identity in front through to a leader. -/
theorem onClientRequest_paddedRequest (n : ℕ) :
    (Client.ClientService.onClientRequest {} (trioLeads 1) 9 (paddedRequest n)).2 = .propose := by
  have hrole : (trioLeads 1).role = .leader := by decide +kernel
  have hid : Client.decodePrefix (paddedRequest n).command =
      some ((paddedRequest n).clientId, (paddedRequest n).seqNo) :=
    Client.decodePrefix_leBytes (by decide) (by decide) _
  unfold Client.ClientService.onClientRequest
  dsimp only
  rw [if_neg (not_not.mpr hrole), if_neg (not_not.mpr hid), if_neg (by decide)]

/-- What the two peers have still to get. -/
theorem Stuck.backlog (h : Stuck command s) {p : NodeId} (hp : p ∈ trio.peers 1) :
    backlog s p = 12 + command.length := by
  have hnext : ∀ q ∈ trio.peers 1, (trioLeads 1).nextIndex.getD q 0 = 1 := by decide +kernel
  unfold Transport.backlog
  rw [h.log, h.next, hnext p hp, InMemoryLog.entriesSpan_succ]
  simp only [List.drop_zero, List.map_cons, List.map_nil, List.sum_cons, List.sum_nil, Nat.add_zero]
  rfl

end Stuck

/-- **A request at the cap starves both peers for good.** `decodeMessage` lets it in and the service
    proposes it; from then on, however often the clock ticks, no AppendEntries to a peer encodes. -/
theorem largest_request_starves :
    (∃ b envelope, decodeMessage b = some ⟨envelope, .clientRequest (paddedRequest 16777180)⟩) ∧
    (Client.ClientService.onClientRequest {} (trioLeads 1) 9 (paddedRequest 16777180)).2 = .propose ∧
    (∀ ts, trio.system.Reachable (resting (trioTicks (paddedRequest 16777180).command ts))) ∧
    ∀ ts, (trioTicks (paddedRequest 16777180).command ts 1).role = .leader ∧
      (trioTicks (paddedRequest 16777180).command ts 1).log =
        [⟨1, (paddedRequest 16777180).command⟩] ∧
      ∀ p ∈ trio.peers 1, ∀ K m, m = Message.appendEntries
          (appendEntriesTo K (trioTicks (paddedRequest 16777180).command ts 1) p) →
        payloadSize m = kMaxPayloadSize + 30 ∧ (encodeMessage 1 p m (encodedSize m)).1 = 0 ∧
          sendFromPipeline 1 p m = [] := by
  have htyped : (Message.clientRequest (paddedRequest 16777180)).Typed := by
    show (1 : ℕ) < 2 ^ 64 ∧ (1 : ℕ) < 2 ^ 64
    decide
  refine ⟨⟨_, _, decodeMessage_eq_some.mpr ⟨9, 1, .clientRequest (paddedRequest 16777180),
    by decide, by decide, htyped, ?_, rfl, rfl⟩⟩, onClientRequest_paddedRequest _, trioTicks_reachable _, fun ts => ?_⟩
  · rw [payloadSize_paddedRequest]
    decide
  have hs := stuck_trioTicks (paddedRequest 16777180).command ts
  refine ⟨hs.role, hs.log, ?_⟩
  rintro p hp K m rfl
  have hsize : payloadSize (.appendEntries (appendEntriesTo K
      (trioTicks (paddedRequest 16777180).command ts 1) p)) = kMaxPayloadSize + 30 := by
    rw [payloadSize_appendEntriesTo, hs.backlog hp, length_paddedRequest]
    rfl
  have hlarge : ¬ payloadSize (.appendEntries (appendEntriesTo K
      (trioTicks (paddedRequest 16777180).command ts 1) p)) ≤ kMaxPayloadSize := by
    rw [hsize]
    exact Nat.not_le.mpr (Nat.lt_add_of_pos_right (by decide))
  refine ⟨hsize, ?_, ?_⟩
  · by_contra hne
    exact hlarge ((encodeMessage_ne_zero_iff 1 p _).mp hne)
  · by_contra hne
    exact hlarge ((sendFromPipeline_ne_nil_iff 1 p _).mp hne)

end Rsm.Transport
