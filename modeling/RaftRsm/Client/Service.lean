/-
  File:      RaftRsm/Client/Service.lean
  Subject:   The node side of a client session (`client/client_service.{h,cpp}`).

  The service runs on the Raft thread and calls into the core; what it does is cut at those calls.
  `onClientRequest` and `flushIfDue` say how they go on (`Next`), and `proposed` and `flushed` are
  what follows when `core_.propose` or `core_.proposeBatch` has returned. `onApplied` runs on the
  thread that applies.

  * `Asked A s` -- whatever the service remembers was asked of it, in the sense of `A`;
  * `asked_onClientRequest`, `asked_proposed`, `asked_flushed`, `asked_onApplied` -- every function
    keeps this, and an OK reply answers a request with the identity of the applied entry.
-/
import RaftRsm.Rpc.Wire
import RaftRsm.Raft.Core
import Mathlib.Tactic.SplitIfs

namespace Rsm.Client

open Rsm.Rpc Rsm.Raft

/-! ## 1. The pending table -/

structure Pending where
  replyTo : NodeId := 0
  clientId : ℕ := 0
  seqNo : ℕ := 0
  deriving DecidableEq, Repr

namespace PendingTable

structure Slot where
  index : ℕ := 0
  p : Pending := {}
  used : Bool := false
  deriving DecidableEq, Repr

/-- `std::bit_ceil` of the default capacity. -/
def capacity : ℕ := 8192

end PendingTable

/-- The slots, by number. -/
structure PendingTable where
  slots : ℕ → PendingTable.Slot := fun _ => {}

namespace PendingTable

/-- `index & (slots_.size() - 1)`. -/
def slotOf (index : ℕ) : ℕ := index &&& (capacity - 1)

def put (t : PendingTable) (index : ℕ) (p : Pending) : PendingTable :=
  ⟨Function.update t.slots (slotOf index) ⟨index, p, true⟩⟩

def take (t : PendingTable) (index : ℕ) : Option (Pending × PendingTable) :=
  let s := t.slots (slotOf index)
  if !s.used || s.index ≠ index then none
  else some (s.p, ⟨Function.update t.slots (slotOf index) { s with used := false }⟩)

end PendingTable

/-! ## 2. The service -/

def kSessionPrefixSize : ℕ := 16

/-- The session prefix of a replicated command. -/
def decodePrefix (command : Bytes) : Option (ℕ × ℕ) :=
  if command.length < kSessionPrefixSize then none
  else
    let r : Reader := ⟨command, true⟩
    let (clientId, r) := r.u64
    let (seqNo, r) := r.u64
    if r.ok then some (clientId, seqNo) else none

/-- A command is built with the identity in front. -/
theorem decodePrefix_leBytes {clientId seqNo : ℕ} (hc : clientId < 2 ^ 64) (hs : seqNo < 2 ^ 64)
    (rest : Bytes) :
    decodePrefix (leBytes 8 clientId ++ (leBytes 8 seqNo ++ rest)) = some (clientId, seqNo) := by
  have hlen : ¬ (leBytes 8 clientId ++ (leBytes 8 seqNo ++ rest)).length < kSessionPrefixSize := by
    simp only [List.length_append, length_leBytes, kSessionPrefixSize]
    omega
  unfold decodePrefix Reader.u64
  dsimp only
  rw [if_neg hlen, Reader.uint_leBytes_of_lt (n := 8) hc, Reader.uint_leBytes_of_lt (n := 8) hs]
  exact if_pos rfl

structure Batching where
  maxBatch : ℕ := 1
  linger : ℕ := 0
  deriving DecidableEq, Repr

structure Buffered where
  src : NodeId
  clientId : ℕ
  seqNo : ℕ
  command : Bytes
  deriving DecidableEq, Repr

structure ClientService where
  pending : PendingTable := {}
  leaderHint : NodeId := 0
  batching : Batching := {}
  buffer : List Buffered := []
  batchDeadline : Option ℕ := none
  deadlineArmed : Bool := false

/-- How a function of the service goes on. -/
inductive Next where
  | done
  | reply (r : ClientReply)
  | propose
  | flushBatch
  deriving DecidableEq, Repr

namespace ClientService

def onClientRequest (s : ClientService) (core : RaftCore) (src : NodeId) (req : ClientRequest) :
    ClientService × Next :=
  let s := { s with leaderHint := core.leaderId.getD 0 }
  if core.role ≠ .leader then (s, .reply ⟨.notLeader, core.leaderId.getD 0, []⟩)
  else if decodePrefix req.command ≠ some (req.clientId, req.seqNo) then (s, .reply ⟨.error, 0, []⟩)
  else if s.batching.maxBatch > 1 then
    let s := { s with buffer := s.buffer ++ [⟨src, req.clientId, req.seqNo, req.command⟩] }
    if s.buffer.length ≥ s.batching.maxBatch then (s, .flushBatch) else (s, .done)
  else (s, .propose)

/-- `onClientRequest` once `core_.propose` has returned. -/
def proposed (s : ClientService) (src : NodeId) (req : ClientRequest) :
    Option ℕ → ClientService × List (NodeId × ClientReply)
  | none => (s, [(src, ⟨.notLeader, 0, []⟩)])
  | some index => ({ s with pending := s.pending.put index ⟨src, req.clientId, req.seqNo⟩ }, [])

def flushIfDue (s : ClientService) (now : ℕ) : ClientService × Next :=
  if s.buffer = [] then (s, .done)
  else
    let s := if !s.deadlineArmed then
        { s with batchDeadline := some (now + s.batching.linger), deadlineArmed := true }
      else s
    if due now s.batchDeadline then (s, .flushBatch) else (s, .done)

/-- The commands `flushBatch` proposes. -/
def flushScratch (s : ClientService) : List Bytes := s.buffer.map Buffered.command

def putAll (t : PendingTable) : ℕ → List Buffered → PendingTable
  | _, [] => t
  | i, b :: l => putAll (t.put i ⟨b.src, b.clientId, b.seqNo⟩) (i + 1) l

/-- `flushBatch` once `core_.proposeBatch` has returned. -/
def flushed (s : ClientService) (core : RaftCore) (first : Option ℕ) :
    ClientService × List (NodeId × ClientReply) :=
  let s' := { s with buffer := [], deadlineArmed := false, batchDeadline := none }
  match first with
  | none => (s', s.buffer.map fun b => (b.src, ⟨.notLeader, core.leaderId.getD 0, []⟩))
  | some first => ({ s' with pending := putAll s.pending first s.buffer }, [])

def onApplied (s : ClientService) (self : NodeId) (index : ℕ) (entry : LogEntry) (result : Bytes) :
    ClientService × List (NodeId × ClientReply) :=
  match s.pending.take index with
  | none => (s, [])
  | some (p, t) =>
      let s := { s with pending := t }
      if decodePrefix entry.command = some (p.clientId, p.seqNo) then
        (s, [(p.replyTo, ⟨.ok, self, result⟩)])
      else (s, [(p.replyTo, ⟨.notLeader, s.leaderHint, []⟩)])

end ClientService

/-! ## 3. What the service remembers was asked -/

/-- The request behind an identity: who asked, and with which numbers. -/
def Known (A : NodeId → ClientRequest → Prop) (p : Pending) : Prop :=
  ∃ req, A p.replyTo req ∧ req.clientId = p.clientId ∧ req.seqNo = p.seqNo

/-- **Everything in the table and in the buffer was asked**; what is buffered has passed the check of
    its prefix. -/
structure Asked (A : NodeId → ClientRequest → Prop) (s : ClientService) : Prop where
  pending : ∀ k, (s.pending.slots k).used = true → Known A (s.pending.slots k).p
  buffer : ∀ b ∈ s.buffer, A b.src ⟨b.clientId, b.seqNo, b.command⟩ ∧
    decodePrefix b.command = some (b.clientId, b.seqNo)

section Asked

variable {A A' : NodeId → ClientRequest → Prop} {s : ClientService} {src : NodeId}
  {req : ClientRequest}

theorem Known.mono {p : Pending} (h : Known A p) (hA : ∀ m r, A m r → A' m r) : Known A' p := by
  obtain ⟨req, hr, h1, h2⟩ := h
  exact ⟨req, hA _ _ hr, h1, h2⟩

theorem Asked.mono (h : Asked A s) (hA : ∀ m r, A m r → A' m r) : Asked A' s :=
  ⟨fun k hk => (h.pending k hk).mono hA, fun b hb => ⟨hA _ _ (h.buffer b hb).1, (h.buffer b hb).2⟩⟩

/-- What is not from `u` is all that counts if nothing is from `u`. -/
theorem Asked.narrow (h : Asked A s) {u : NodeId} (hA : ∀ m r, m ≠ u → A m r → A' m r)
    (hp : ∀ k, (s.pending.slots k).used = true → (s.pending.slots k).p.replyTo ≠ u)
    (hb : ∀ b ∈ s.buffer, b.src ≠ u) : Asked A' s := by
  refine ⟨fun k hk => ?_, fun b hmem => ?_⟩
  · obtain ⟨req, hr, hid⟩ := h.pending k hk
    exact ⟨req, hA _ _ (hp k hk) hr, hid⟩
  · obtain ⟨hr, hid⟩ := h.buffer b hmem
    exact ⟨hA _ _ (hb b hmem) hr, hid⟩

theorem asked_init (b : Batching) : Asked A { batching := b } :=
  ⟨fun _ hk => absurd hk Bool.false_ne_true, fun _ hb => (List.not_mem_nil hb).elim⟩

/-- The table and the buffer are all that counts. -/
theorem Asked.congr {t : ClientService} (h : Asked A s) (hp : t.pending = s.pending)
    (hb : t.buffer = s.buffer) : Asked A t := by
  refine ⟨?_, ?_⟩
  · rw [hp]
    exact h.pending
  · rw [hb]
    exact h.buffer

theorem known_put {t : PendingTable} (h : ∀ k, (t.slots k).used = true → Known A (t.slots k).p)
    {p : Pending} (hp : Known A p) (i : ℕ) :
    ∀ k, ((t.put i p).slots k).used = true → Known A ((t.put i p).slots k).p := by
  intro k hk
  unfold PendingTable.put at hk ⊢
  dsimp only at hk ⊢
  by_cases hki : k = PendingTable.slotOf i
  · subst hki
    rw [Function.update_self]
    exact hp
  · rw [Function.update_of_ne hki] at hk ⊢
    exact h k hk

theorem known_putAll {l : List Buffered} (hl : ∀ b ∈ l, A b.src ⟨b.clientId, b.seqNo, b.command⟩) :
    ∀ {t : PendingTable} {i : ℕ}, (∀ k, (t.slots k).used = true → Known A (t.slots k).p) →
      ∀ k, ((ClientService.putAll t i l).slots k).used = true →
        Known A ((ClientService.putAll t i l).slots k).p := by
  induction l with
  | nil => exact fun h => h
  | cons b l ih =>
      intro t i h
      have hb : Known A ⟨b.src, b.clientId, b.seqNo⟩ := ⟨_, hl b List.mem_cons_self, rfl, rfl⟩
      exact ih (fun c hc => hl c (List.mem_cons_of_mem b hc)) (known_put h hb i)

/-- What `onClientRequest` decides: an error reply, or the request's prefix is its identity. -/
theorem asked_onClientRequest (h : Asked A s) (core : RaftCore) (hA : A src req) :
    Asked A (s.onClientRequest core src req).1 ∧
    (∀ r, (s.onClientRequest core src req).2 = .reply r → r.status ≠ .ok) ∧
    ((s.onClientRequest core src req).2 = .propose →
      decodePrefix req.command = some (req.clientId, req.seqNo)) := by
  unfold ClientService.onClientRequest
  dsimp only
  have h' : Asked A { s with leaderHint := core.leaderId.getD 0 } := h.congr rfl rfl
  have hbuf : decodePrefix req.command = some (req.clientId, req.seqNo) →
      ∀ b ∈ s.buffer ++ [⟨src, req.clientId, req.seqNo, req.command⟩],
        A b.src ⟨b.clientId, b.seqNo, b.command⟩ ∧
          decodePrefix b.command = some (b.clientId, b.seqNo) := by
    intro hid b hb
    rcases List.mem_append.mp hb with hb | hb
    · exact h.buffer b hb
    · rw [List.mem_singleton.mp hb]
      exact ⟨hA, hid⟩
  split_ifs with h1 h2 h3 h4
  · refine ⟨h', ?_, False.elim⟩
    intro r hr he
    cases hr
    cases he
  · refine ⟨h', ?_, False.elim⟩
    intro r hr he
    cases hr
    cases he
  · refine ⟨⟨h.pending, hbuf (not_not.mp h2)⟩, ?_, False.elim⟩
    intro r hr
    cases hr
  · refine ⟨⟨h.pending, hbuf (not_not.mp h2)⟩, ?_, False.elim⟩
    intro r hr
    cases hr
  · refine ⟨h', ?_, fun _ => not_not.mp h2⟩
    intro r hr
    cases hr

theorem asked_proposed (h : Asked A s) (hA : A src req) (i : Option ℕ) :
    Asked A (s.proposed src req i).1 ∧
    ∀ q ∈ (s.proposed src req i).2, q.2.status ≠ .ok := by
  cases i with
  | none =>
      refine ⟨h, fun q hq he => ?_⟩
      rw [List.mem_singleton.mp hq] at he
      cases he
  | some i =>
      exact ⟨⟨known_put h.pending ⟨req, hA, rfl, rfl⟩ i, h.buffer⟩,
        fun q hq => (List.not_mem_nil hq).elim⟩

theorem asked_flushIfDue (h : Asked A s) (now : ℕ) : Asked A (s.flushIfDue now).1 := by
  unfold ClientService.flushIfDue
  dsimp only
  split_ifs <;> exact h.congr rfl rfl

theorem asked_flushed (h : Asked A s) (core : RaftCore) (first : Option ℕ) :
    Asked A (s.flushed core first).1 ∧
    ∀ q ∈ (s.flushed core first).2, q.2.status ≠ .ok := by
  cases first with
  | none =>
      refine ⟨⟨h.pending, fun _ hb => (List.not_mem_nil hb).elim⟩, fun q hq he => ?_⟩
      obtain ⟨b, -, rfl⟩ := List.mem_map.mp hq
      cases he
  | some first =>
      exact ⟨⟨known_putAll (fun b hb => (h.buffer b hb).1) h.pending,
        fun _ hb => (List.not_mem_nil hb).elim⟩, fun q hq => (List.not_mem_nil hq).elim⟩

/-- What a pending entry was put in for, when it is taken out. -/
theorem known_take {t t' : PendingTable} {i : ℕ} {p : Pending}
    (h : ∀ k, (t.slots k).used = true → Known A (t.slots k).p) (ht : t.take i = some (p, t')) :
    Known A p ∧ ∀ k, (t'.slots k).used = true → Known A (t'.slots k).p := by
  unfold PendingTable.take at ht
  dsimp only at ht
  split at ht
  · cases ht
  · rename_i hu
    rw [Bool.or_eq_true, not_or] at hu
    obtain ⟨hp, ht'⟩ := Prod.mk.inj (Option.some.inj ht)
    have hused : (t.slots (PendingTable.slotOf i)).used = true := by
      simpa using hu.1
    refine ⟨hp ▸ h _ hused, fun k hk => ?_⟩
    rw [← ht'] at hk ⊢
    dsimp only at hk ⊢
    by_cases hki : k = PendingTable.slotOf i
    · subst hki
      rw [Function.update_self] at hk
      cases hk
    · rw [Function.update_of_ne hki] at hk ⊢
      exact h k hk

/-- **An OK reply answers a request that has the identity of the applied entry.** -/
theorem asked_onApplied (h : Asked A s) (self : NodeId) (index : ℕ) (entry : LogEntry)
    (result : Bytes) :
    Asked A (s.onApplied self index entry result).1 ∧
    ∀ q ∈ (s.onApplied self index entry result).2, q.2.status = .ok →
      q.2.result = result ∧ ∃ req, A q.1 req ∧
        decodePrefix entry.command = some (req.clientId, req.seqNo) := by
  unfold ClientService.onApplied
  cases ht : s.pending.take index with
  | none => exact ⟨h, fun q hq => (List.not_mem_nil hq).elim⟩
  | some pt =>
      obtain ⟨p, t⟩ := pt
      obtain ⟨hp, ht⟩ := known_take h.pending ht
      dsimp only
      split_ifs with hid
      · refine ⟨⟨ht, h.buffer⟩, fun q hq _ => ?_⟩
        rw [List.mem_singleton.mp hq]
        obtain ⟨req, hA, h1, h2⟩ := hp
        exact ⟨rfl, req, hA, by rw [h1, h2]; exact hid⟩
      · refine ⟨⟨ht, h.buffer⟩, fun q hq he => ?_⟩
        rw [List.mem_singleton.mp hq] at he
        cases he

end Asked

end Rsm.Client
