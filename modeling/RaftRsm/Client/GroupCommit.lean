/-
  File:      RaftRsm/Client/GroupCommit.lean
  Subject:   GROUP COMMIT LOSES, DUPLICATES AND REORDERS NO REQUEST. The pending entries of a batch all
             survive its flush if and only if the table has room for the batch.

  A service with `maxBatch > 1` and the core under it, in any sequence of events. Between two events
  the core may become any other core: another role, another term, another log.

  * `Host`, `Event`, `Host.step` -- the service with its core, and one event;
  * `arrived`, `flushes` -- along a run: the requests that have passed the validation of a leader, in
    order of arrival, and the hosts as `flushBatch` finds them;
  * `Sealed K h` -- what `flushBatch` makes of its batch;
  * `host_step` -- every event; `Tidy` -- the invariant of the deadline;
  * `group_commit_exact` -- every request in exactly one place, in order, and not beyond its deadline;
  * `oversized_flush` -- a batch of 8193 requests overwrites its own first pending entry.
-/
import RaftRsm.Client.Service
import RaftRsm.Raft.Proposing

namespace Rsm.Client

open Rsm.Rpc Rsm.Raft Process

/-! ## 1. The service and its core -/

structure Host where
  core : RaftCore
  service : ClientService

/-- What may happen. A call into the core is made in surroundings of its own. -/
inductive Event where
  | request (K : Ctx) (src : NodeId) (req : ClientRequest)
  | flushIfDue (K : Ctx) (now : ℕ)
  | core (c : RaftCore)
  | applied (self : NodeId) (index : ℕ) (entry : LogEntry) (result : Bytes)

namespace Host

/-- The body of `flushBatch`, with a batch that is not empty. -/
def flushBatch (K : Ctx) (h : Host) : Host × List (NodeId × ClientReply) :=
  let call := proposeBatch K h.service.flushScratch
  let core := call.final h.core
  let r := h.service.flushed core (call.value h.core)
  (⟨core, r.1⟩, r.2)

/-- How `onClientRequest` ends. -/
def goOn (K : Ctx) (src : NodeId) (req : ClientRequest) (h : Host) : Next → Host × List (NodeId × ClientReply)
  | .done => (h, [])
  | .reply r => (h, [(src, r)])
  | .propose =>
      let call := propose K req.command
      let r := h.service.proposed src req (call.value h.core)
      (⟨call.final h.core, r.1⟩, r.2)
  | .flushBatch => flushBatch K h

/-- The host in the middle of an event, with what the service has decided. -/
def decide (h : Host) : Event → Host × Next
  | .request _ src req =>
      let r := h.service.onClientRequest h.core src req
      (⟨h.core, r.1⟩, r.2)
  | .flushIfDue _ now =>
      let r := h.service.flushIfDue now
      (⟨h.core, r.1⟩, r.2)
  | .core c => (⟨c, h.service⟩, .done)
  | .applied self index entry result =>
      (⟨h.core, (h.service.onApplied self index entry result).1⟩, .done)

/-- **One event**, and the replies it sends. -/
def step (h : Host) : Event → Host × List (NodeId × ClientReply)
  | .request K src req => goOn K src req (h.decide (.request K src req)).1 (h.decide (.request K src req)).2
  | .flushIfDue K now =>
      let d := h.decide (.flushIfDue K now)
      if d.2 = .flushBatch then flushBatch K d.1 else (d.1, [])
  | .core c => ((h.decide (.core c)).1, [])
  | .applied self index entry result =>
      ((h.decide (.applied self index entry result)).1, (h.service.onApplied self index entry result).2)

/-- The host after a sequence of events. -/
def run (h : Host) : List Event → Host
  | [] => h
  | e :: es => run (h.step e).1 es

/-- The request that an event brings, if it passes the validation of a leader. -/
def accepted (h : Host) : Event → List Buffered
  | .request _ src req =>
      if h.core.role = .leader ∧ decodePrefix req.command = some (req.clientId, req.seqNo) then
        [⟨src, req.clientId, req.seqNo, req.command⟩]
      else []
  | _ => []

/-- The flush that an event makes: its surroundings, and the host as `flushBatch` finds it. -/
def flush (h : Host) : Event → List (Ctx × Host)
  | .request K src req =>
      if (h.decide (.request K src req)).2 = .flushBatch then [(K, (h.decide (.request K src req)).1)] else []
  | .flushIfDue K now =>
      if (h.decide (.flushIfDue K now)).2 = .flushBatch then [(K, (h.decide (.flushIfDue K now)).1)] else []
  | _ => []

/-- **The requests that have passed the validation of a leader**, in order of arrival. -/
def arrived (h : Host) : List Event → List Buffered
  | [] => []
  | e :: es => h.accepted e ++ arrived (h.step e).1 es

/-- **The flushes of a run**, in order. -/
def flushes (h : Host) : List Event → List (Ctx × Host)
  | [] => []
  | e :: es => h.flush e ++ flushes (h.step e).1 es

theorem run_append (h : Host) (es fs : List Event) : h.run (es ++ fs) = (h.run es).run fs := by
  induction es generalizing h with
  | nil => rfl
  | cons e es ih => exact ih _

theorem arrived_append (h : Host) (es fs : List Event) :
    h.arrived (es ++ fs) = h.arrived es ++ (h.run es).arrived fs := by
  induction es generalizing h with
  | nil => rfl
  | cons e es ih =>
      rw [List.cons_append, arrived, arrived, ih, List.append_assoc]
      rfl

theorem flushes_append (h : Host) (es fs : List Event) :
    h.flushes (es ++ fs) = h.flushes es ++ (h.run es).flushes fs := by
  induction es generalizing h with
  | nil => rfl
  | cons e es ih =>
      rw [List.cons_append, flushes, flushes, ih, List.append_assoc]
      rfl

end Host

/-- The batch of a flush. -/
def batchOf (f : Ctx × Host) : List Buffered := f.2.service.buffer

/-- All that a run has flushed, in order. -/
def flushedBy (h : Host) (es : List Event) : List Buffered := ((h.flushes es).map batchOf).flatten

/-! ## 2. What a flush makes of its batch -/

/-- What is recorded for a batch whose first command got the index `i`. -/
def records : ℕ → List Buffered → List (ℕ × Pending)
  | _, [] => []
  | i, b :: l => (i, ⟨b.src, b.clientId, b.seqNo⟩) :: records (i + 1) l

theorem putAll_records : ∀ (l : List Buffered) (t : PendingTable) (i : ℕ),
    ClientService.putAll t i l = (records i l).foldl (fun t x => t.put x.1 x.2) t
  | [], _, _ => rfl
  | b :: l, t, i => putAll_records l (t.put i ⟨b.src, b.clientId, b.seqNo⟩) (i + 1)

theorem slotOf_eq (i : ℕ) : PendingTable.slotOf i = i % PendingTable.capacity :=
  Nat.and_two_pow_sub_one_eq_mod i 13

/-- A batch does not touch the slots of other indices. -/
theorem putAll_other {k : ℕ} : ∀ {l : List Buffered} {t : PendingTable} {i : ℕ},
    (∀ j, i ≤ j → j < i + l.length → PendingTable.slotOf j ≠ k) → (ClientService.putAll t i l).slots k = t.slots k
  | [], _, _, _ => rfl
  | b :: l, t, i, h => by
      have hne : k ≠ PendingTable.slotOf i := fun hk => h i (Nat.le_refl _) (by simp) hk.symm
      have hrest := putAll_other (k := k) (l := l) (t := t.put i ⟨b.src, b.clientId, b.seqNo⟩) (i := i + 1)
        fun j h1 h2 => h j (Nat.le_of_succ_le h1) (by rw [List.length_cons]; omega)
      refine Eq.trans hrest ?_
      exact Function.update_of_ne hne _ _

/-- **The table holds what was recorded last in each slot**: of a batch all but what the table has no
    room for. -/
theorem putAll_holds : ∀ {l : List Buffered} {t : PendingTable} {i k : ℕ} {b : Buffered}, l[k]? = some b →
    l.length ≤ k + PendingTable.capacity →
    (ClientService.putAll t i l).slots (PendingTable.slotOf (i + k)) = ⟨i + k, ⟨b.src, b.clientId, b.seqNo⟩, true⟩
  | c :: l, t, i, 0, b, hb, hle => by
      obtain rfl := Option.some.inj hb
      have hroom : ∀ j, i + 1 ≤ j → j < i + 1 + l.length → PendingTable.slotOf j ≠ PendingTable.slotOf i := by
        intro j h1 h2 heq
        rw [slotOf_eq, slotOf_eq] at heq
        rw [List.length_cons] at hle
        have hmod : (j - i) % PendingTable.capacity = 0 := Nat.sub_mod_eq_zero_of_mod_eq heq
        have hpos : PendingTable.capacity ≤ j - i := Nat.le_of_dvd (by omega) (Nat.dvd_of_mod_eq_zero hmod)
        omega
      refine (putAll_other hroom).trans ?_
      exact Function.update_self _ _ _
  | c :: l, t, i, k + 1, b, hb, hle => by
      have hrest := putAll_holds (l := l) (t := t.put i ⟨c.src, c.clientId, c.seqNo⟩) (i := i + 1) (k := k)
        hb (by rw [List.length_cons] at hle; omega)
      rw [Nat.add_assoc i 1 k, Nat.add_comm 1 k] at hrest
      exact hrest

/-- A slot holds the last entry of the batch that falls into it. -/
theorem putAll_last {l : List Buffered} {t : PendingTable} {i k : ℕ} (hk : k < l.length) :
    ∃ q p, l.length ≤ k + PendingTable.capacity * q + PendingTable.capacity ∧
      (ClientService.putAll t i l).slots (PendingTable.slotOf (i + k)) =
        ⟨i + (k + PendingTable.capacity * q), p, true⟩ := by
  obtain ⟨q, hq⟩ : ∃ q, q = (l.length - 1 - k) / PendingTable.capacity := ⟨_, rfl⟩
  have hdiv := Nat.div_add_mod (l.length - 1 - k) PendingTable.capacity
  have hmod := Nat.mod_lt (l.length - 1 - k) (y := PendingTable.capacity) (by decide)
  rw [← hq] at hdiv
  have hlast : k + PendingTable.capacity * q < l.length := by omega
  have hroom : l.length ≤ k + PendingTable.capacity * q + PendingTable.capacity := by omega
  have hsame : PendingTable.slotOf (i + (k + PendingTable.capacity * q)) = PendingTable.slotOf (i + k) := by
    rw [slotOf_eq, slotOf_eq, ← Nat.add_assoc, Nat.add_mul_mod_self_left]
  have hheld := putAll_holds (t := t) (i := i) (List.getElem?_eq_getElem hlast) hroom
  rw [hsame] at hheld
  exact ⟨q, _, hroom, hheld⟩

/-- What the table has no room for is overwritten by a later entry of the batch. -/
theorem putAll_lost {l : List Buffered} {t : PendingTable} {i k : ℕ}
    (hlong : k + PendingTable.capacity < l.length) :
    ((ClientService.putAll t i l).slots (PendingTable.slotOf (i + k))).index ≠ i + k := by
  obtain ⟨q, b, hroom, hslot⟩ := putAll_last (t := t) (i := i) (k := k) (l := l) (by omega)
  rw [hslot]
  dsimp only
  intro he
  have hq : PendingTable.capacity * q = 0 := by omega
  omega

theorem putAll_holds_iff {l : List Buffered} {t : PendingTable} {i k : ℕ} {b : Buffered} (hb : l[k]? = some b) :
    (ClientService.putAll t i l).slots (PendingTable.slotOf (i + k)) = ⟨i + k, ⟨b.src, b.clientId, b.seqNo⟩, true⟩ ↔
    l.length ≤ k + PendingTable.capacity := by
  refine ⟨fun hslot => ?_, putAll_holds hb⟩
  by_contra hlong
  exact putAll_lost (t := t) (i := i) (Nat.lt_of_not_le hlong) (by rw [hslot])

/-- **What `flushBatch` makes of its batch.** While the node leads, the commands go to the end of the
    log, in order and at consecutive indices, and each gets a pending entry under its index; nobody is
    answered. Otherwise the core and the table stay and every sender is answered once. In both cases
    the buffer is empty and the deadline disarmed. -/
structure Sealed (K : Ctx) (h : Host) : Prop where
  batch : h.service.buffer ≠ []
  proposed : h.core.role = .leader →
    (h.flushBatch K).1.core.log =
      h.core.log ++ h.service.buffer.map (fun b => ⟨h.core.currentTerm, b.command⟩) ∧
    (h.flushBatch K).1.service.pending =
      (records (h.core.log.length + 1) h.service.buffer).foldl (fun t x => t.put x.1 x.2) h.service.pending ∧
    (h.flushBatch K).2 = []
  refused : h.core.role ≠ .leader →
    (h.flushBatch K).1.core = h.core ∧ (h.flushBatch K).1.service.pending = h.service.pending ∧
    (h.flushBatch K).2 = h.service.buffer.map fun b => (b.src, ⟨.notLeader, h.core.leaderId.getD 0, []⟩)
  service : (h.flushBatch K).1.service = { h.service with
    pending := (h.flushBatch K).1.service.pending, buffer := [], batchDeadline := none, deadlineArmed := false }

theorem sealed_flushBatch (K : Ctx) {h : Host} (hne : h.service.buffer ≠ []) : Sealed K h := by
  have hcmds : h.service.flushScratch ≠ [] := fun hn => hne (List.map_eq_nil_iff.mp hn)
  refine ⟨hne, fun hr => ?_, fun hr => ?_, ?_⟩
  · obtain ⟨hv, hrep⟩ := ends_final (ends_proposeBatch (K := K) hr hcmds)
    refine ⟨?_, ?_, ?_⟩
    · refine hrep.log.trans ?_
      rw [ClientService.flushScratch, List.map_map]
      rfl
    · unfold Host.flushBatch
      dsimp only
      rw [hv, ← putAll_records]
      rfl
    · unfold Host.flushBatch
      dsimp only
      rw [hv]
      rfl
  · obtain ⟨hv, hcore⟩ := ends_final (ends_proposeBatch_refused (K := K) hr h.service.flushScratch)
    refine ⟨hcore, ?_, ?_⟩
    · unfold Host.flushBatch
      dsimp only
      rw [hv]
      rfl
    · unfold Host.flushBatch
      dsimp only
      rw [hv, hcore]
      rfl
  · unfold Host.flushBatch ClientService.flushed
    dsimp only
    cases (proposeBatch K h.service.flushScratch).value h.core <;> rfl

/-! ## 3. One event -/

/-- An event that flushes: the batch is what was buffered, with the request the event brings. -/
structure Flushed (h : Host) (e : Event) (K : Ctx) (g : Host) : Prop where
  flush : h.flush e = [(K, g)]
  step : h.step e = g.flushBatch K
  core : g.core = h.core
  pending : g.service.pending = h.service.pending
  batching : g.service.batching = h.service.batching
  buffer : g.service.buffer = h.service.buffer ++ h.accepted e
  batch : g.service.buffer ≠ []

/-- **An event that does not flush**: a request that a leader has validated is buffered and not
    answered, any other request is answered at once, and the log and the table do not change by what
    the service does. -/
structure Kept (h : Host) (e : Event) (g : Host) (out : List (NodeId × ClientReply)) : Prop where
  flush : h.flush e = []
  step : h.step e = (g, out)
  batching : g.service.batching = h.service.batching
  buffer : g.service.buffer = h.service.buffer ++ h.accepted e
  core : (∀ c, e ≠ .core c) → g.core = h.core
  pending : (∀ n i x r, e ≠ .applied n i x r) → g.service.pending = h.service.pending
  replies : ∀ K src req, e = .request K src req →
    (h.accepted e ≠ [] ∧ out = []) ∨ (h.accepted e = [] ∧ ∃ r, out = [(src, r)] ∧ r.status ≠ .ok)
  deadline : (∀ K now, e ≠ .flushIfDue K now) ∨ h.service.buffer = [] →
    g.service.deadlineArmed = h.service.deadlineArmed ∧ g.service.batchDeadline = h.service.batchDeadline
  armed : ∀ K now, e = .flushIfDue K now → h.service.buffer ≠ [] → g.service.deadlineArmed = true ∧
    g.service.batchDeadline =
      (if h.service.deadlineArmed then h.service.batchDeadline else some (now + h.service.batching.linger)) ∧
    due now g.service.batchDeadline = false

section Step

variable {h : Host} {K : Ctx} {src : NodeId} {req : ClientRequest} {now : ℕ} {s : ClientService} {n : Next}

theorem step_request (hon : h.service.onClientRequest h.core src req = (s, n)) :
    h.step (.request K src req) = Host.goOn K src req ⟨h.core, s⟩ n ∧
    h.flush (.request K src req) = if n = .flushBatch then [(K, ⟨h.core, s⟩)] else [] := by
  simp only [Host.step, Host.flush, Host.decide, hon, and_self]

theorem step_flushIfDue (hon : h.service.flushIfDue now = (s, n)) :
    h.step (.flushIfDue K now) =
      (if n = .flushBatch then Host.flushBatch K ⟨h.core, s⟩ else (⟨h.core, s⟩, [])) ∧
    h.flush (.flushIfDue K now) = if n = .flushBatch then [(K, ⟨h.core, s⟩)] else [] := by
  simp only [Host.step, Host.flush, Host.decide, hon, and_self]

/-- A request that is answered at once. -/
theorem kept_reply {l : NodeId} {r : ClientReply} (ha : h.accepted (.request K src req) = [])
    (hon : h.service.onClientRequest h.core src req = ({ h.service with leaderHint := l }, .reply r))
    (hr : r.status ≠ .ok) :
    Kept h (.request K src req) ⟨h.core, { h.service with leaderHint := l }⟩ [(src, r)] := by
  obtain ⟨hstep, hflush⟩ := step_request (K := K) hon
  refine ⟨hflush, hstep, rfl, ?_, fun _ => rfl, fun _ => rfl, fun _ src' _ he => ?_, fun _ => ⟨rfl, rfl⟩,
    fun _ _ he => ?_⟩
  · rw [ha, List.append_nil]
  · cases he
    exact .inr ⟨ha, r, rfl, hr⟩
  · cases he

/-- A request that a leader has validated is buffered. -/
theorem onClientRequest_buffered (src : NodeId) (req : ClientRequest)
    (hb : 1 < h.service.batching.maxBatch) (hr : h.core.role = .leader)
    (hid : decodePrefix req.command = some (req.clientId, req.seqNo)) :
    h.service.onClientRequest h.core src req =
      ({ h.service with
          leaderHint := h.core.leaderId.getD 0
          buffer := h.service.buffer ++ [⟨src, req.clientId, req.seqNo, req.command⟩] },
        if h.service.batching.maxBatch ≤ h.service.buffer.length + 1 then .flushBatch else .done) := by
  unfold ClientService.onClientRequest
  dsimp only
  rw [if_neg (not_not.mpr hr), if_neg (not_not.mpr hid), if_pos hb, List.length_append, List.length_singleton]
  split_ifs <;> rfl

/-- **A client request.** -/
theorem host_request (hb : 1 < h.service.batching.maxBatch) (K : Ctx) (src : NodeId) (req : ClientRequest) :
    (∃ g, Flushed h (.request K src req) K g) ∨ ∃ g out, Kept h (.request K src req) g out := by
  have hacc : h.accepted (.request K src req) =
      if h.core.role = .leader ∧ decodePrefix req.command = some (req.clientId, req.seqNo) then
        [⟨src, req.clientId, req.seqNo, req.command⟩]
      else [] := rfl
  by_cases hr : h.core.role = .leader
  swap
  · refine .inr ⟨_, _, kept_reply (r := ⟨.notLeader, h.core.leaderId.getD 0, []⟩) ?_ (if_pos hr) fun he => ?_⟩
    · exact if_neg fun hh => hr hh.1
    · cases he
  by_cases hid : decodePrefix req.command = some (req.clientId, req.seqNo)
  swap
  · have hon : h.service.onClientRequest h.core src req =
        ({ h.service with leaderHint := h.core.leaderId.getD 0 }, .reply ⟨.error, 0, []⟩) :=
      (if_neg (not_not.mpr hr)).trans (if_pos hid)
    refine .inr ⟨_, _, kept_reply ?_ hon fun he => ?_⟩
    · exact if_neg fun hh => hid hh.2
    · cases he
  rw [if_pos ⟨hr, hid⟩] at hacc
  obtain ⟨hstep, hflush⟩ := step_request (K := K) (onClientRequest_buffered src req hb hr hid)
  by_cases hfull : h.service.batching.maxBatch ≤ h.service.buffer.length + 1
  · rw [if_pos hfull] at hstep hflush
    refine .inl ⟨_, hflush, hstep, rfl, rfl, rfl, ?_, ?_⟩
    · rw [hacc]
    · exact List.append_ne_nil_of_right_ne_nil _ (List.cons_ne_nil _ _)
  · rw [if_neg hfull] at hstep hflush
    refine .inr ⟨_, _, hflush, hstep, rfl, ?_, fun _ => rfl, fun _ => rfl, fun _ _ _ _ => ?_,
      fun _ => ⟨rfl, rfl⟩, fun _ _ he => ?_⟩
    · rw [hacc]
    · rw [hacc]
      exact .inl ⟨List.cons_ne_nil _ _, rfl⟩
    · cases he

theorem arm_eq (s : ClientService) (now : ℕ) :
    (if !s.deadlineArmed then
      { s with batchDeadline := some (now + s.batching.linger), deadlineArmed := true }
    else s) =
      { s with
        batchDeadline := if s.deadlineArmed then s.batchDeadline else some (now + s.batching.linger)
        deadlineArmed := true } := by
  obtain ⟨pending, leaderHint, batching, buffer, batchDeadline, deadlineArmed⟩ := s
  cases deadlineArmed <;> rfl

/-- **A look at the deadline.** -/
theorem host_flushIfDue (h : Host) (K : Ctx) (now : ℕ) :
    (∃ g, Flushed h (.flushIfDue K now) K g) ∨ ∃ g out, Kept h (.flushIfDue K now) g out := by
  by_cases hemp : h.service.buffer = []
  · have hon : h.service.flushIfDue now = (h.service, .done) := if_pos hemp
    obtain ⟨hstep, hflush⟩ := step_flushIfDue (K := K) hon
    refine .inr ⟨_, _, hflush, hstep, rfl, (List.append_nil _).symm, fun _ => rfl, fun _ => rfl,
      fun _ _ _ he => ?_, fun _ => ⟨rfl, rfl⟩, fun _ _ _ hne => absurd hemp hne⟩
    cases he
  generalize hd : (if h.service.deadlineArmed then h.service.batchDeadline
    else some (now + h.service.batching.linger)) = d
  have hon : h.service.flushIfDue now = ({ h.service with batchDeadline := d, deadlineArmed := true },
      if due now d then .flushBatch else .done) := by
    unfold ClientService.flushIfDue
    rw [if_neg hemp, arm_eq, hd]
    dsimp only
    split_ifs <;> rfl
  obtain ⟨hstep, hflush⟩ := step_flushIfDue (K := K) hon
  by_cases hdue : due now d = true
  · rw [if_pos hdue] at hstep hflush
    exact .inl ⟨_, hflush, hstep, rfl, rfl, rfl, (List.append_nil _).symm, hemp⟩
  · rw [if_neg hdue] at hstep hflush
    refine .inr ⟨_, _, hflush, hstep, rfl, (List.append_nil _).symm, fun _ => rfl, fun _ => rfl,
      fun _ _ _ he => ?_, fun hor => ?_, fun K' now' he _ => ?_⟩
    · cases he
    · exact (hor.elim (fun hne => hne K now rfl) hemp).elim
    · cases he
      exact ⟨rfl, hd.symm, Bool.eq_false_iff.mpr hdue⟩

/-- `onApplied` changes the table only. -/
theorem onApplied_service (s : ClientService) (self : NodeId) (index : ℕ) (entry : LogEntry) (result : Bytes) :
    (s.onApplied self index entry result).1 =
      { s with pending := (s.onApplied self index entry result).1.pending } := by
  unfold ClientService.onApplied
  cases s.pending.take index with
  | none => rfl
  | some pt =>
      dsimp only
      split_ifs <;> rfl

/-- **Every event flushes or keeps.** -/
theorem host_step (hb : 1 < h.service.batching.maxBatch) (e : Event) :
    (∃ K g, Flushed h e K g) ∨ ∃ g out, Kept h e g out := by
  cases e with
  | request K src req => exact (host_request hb K src req).imp (fun ⟨g, hg⟩ => ⟨K, g, hg⟩) id
  | flushIfDue K now => exact (host_flushIfDue h K now).imp (fun ⟨g, hg⟩ => ⟨K, g, hg⟩) id
  | core c =>
      refine .inr ⟨_, _, rfl, rfl, rfl, (List.append_nil _).symm, fun hne => absurd rfl (hne c), fun _ => rfl,
        fun _ _ _ he => ?_, fun _ => ⟨rfl, rfl⟩, fun _ _ he => ?_⟩ <;> cases he
  | applied self index entry result =>
      have hsame := onApplied_service h.service self index entry result
      refine .inr ⟨_, _, rfl, rfl, ?_, ?_, fun _ => rfl, fun hne => absurd rfl (hne self index entry result),
        fun _ _ _ he => ?_, fun _ => ?_, fun _ _ he => ?_⟩
      · exact (congrArg ClientService.batching hsame :)
      · exact (congrArg ClientService.buffer hsame :).trans (List.append_nil _).symm
      · cases he
      · exact ⟨(congrArg ClientService.deadlineArmed hsame :), (congrArg ClientService.batchDeadline hsame :)⟩
      · cases he

end Step

/-! ## 4. Whole runs -/

/-- The times at which the runtime has looked at the deadline. -/
def times (es : List Event) : List ℕ := es.filterMap fun
  | .flushIfDue _ now => some now
  | _ => none

theorem times_append (es fs : List Event) : times (es ++ fs) = times es ++ times fs := List.filterMap_append

/-- **A deadline is armed for what is buffered now**, `linger` after a look at it. -/
structure Tidy (b : Batching) (ts : List ℕ) (s : ClientService) : Prop where
  batching : s.batching = b
  armed : s.deadlineArmed = true → s.buffer ≠ [] ∧ ∃ t ∈ ts, s.batchDeadline = some (t + b.linger)

section Runs

variable {b : Batching} {h : Host} {ts : List ℕ}

theorem flushBatch_empties {K : Ctx} {g : Host} (hg : g.service.buffer ≠ []) :
    (g.flushBatch K).1.service.buffer = [] ∧ (g.flushBatch K).1.service.deadlineArmed = false ∧
    (g.flushBatch K).1.service.batching = g.service.batching := by
  have hs := (sealed_flushBatch K hg).service
  exact ⟨(congrArg ClientService.buffer hs :), (congrArg ClientService.deadlineArmed hs :),
    (congrArg ClientService.batching hs :)⟩

theorem Tidy.step (hb : 1 < b.maxBatch) (ht : Tidy b ts h.service) (e : Event) :
    Tidy b (ts ++ times [e]) (h.step e).1.service := by
  rcases host_step (by rw [ht.batching]; exact hb) e with ⟨K, g, hg⟩ | ⟨g, out, hg⟩
  · obtain ⟨-, harm, hbat⟩ := flushBatch_empties (K := K) hg.batch
    rw [hg.step]
    refine ⟨hbat.trans (hg.batching.trans ht.batching), fun ha => ?_⟩
    rw [harm] at ha
    cases ha
  · rw [hg.step]
    refine ⟨hg.batching.trans ht.batching, fun ha => ?_⟩
    have hgrow : h.service.buffer ≠ [] → g.service.buffer ≠ [] := fun hne => by
      rw [hg.buffer]
      exact List.append_ne_nil_of_left_ne_nil hne _
    have hkeep : h.service.deadlineArmed = true →
        ∃ t ∈ ts ++ times [e], h.service.batchDeadline = some (t + b.linger) := fun ha' => by
      obtain ⟨t, ht', hd⟩ := (ht.armed ha').2
      exact ⟨t, List.mem_append_left _ ht', hd⟩
    by_cases hlook : (∀ K now, e ≠ .flushIfDue K now) ∨ h.service.buffer = []
    · obtain ⟨harm, hdead⟩ := hg.deadline hlook
      rw [harm] at ha
      rw [hdead]
      exact ⟨hgrow (ht.armed ha).1, hkeep ha⟩
    · rw [not_or] at hlook
      obtain ⟨hlook, hne⟩ := hlook
      simp only [not_forall, not_not] at hlook
      obtain ⟨K, now, rfl⟩ := hlook
      obtain ⟨-, hdead, -⟩ := hg.armed K now rfl hne
      refine ⟨hgrow hne, ?_⟩
      rw [hdead]
      by_cases ha' : h.service.deadlineArmed = true
      · rw [if_pos ha']
        exact hkeep ha'
      · rw [if_neg ha', ht.batching]
        exact ⟨now, List.mem_append_right _ List.mem_cons_self, rfl⟩

theorem Tidy.run (hb : 1 < b.maxBatch) : ∀ (es : List Event) {h : Host} {ts : List ℕ},
    Tidy b ts h.service → Tidy b (ts ++ times es) (h.run es).service
  | [], _, _, ht => by
      rw [times, List.filterMap_nil, List.append_nil]
      exact ht
  | e :: es, _, _, ht => by
      have hrest := (ht.step hb e).run hb es
      rw [List.append_assoc, ← times_append] at hrest
      exact hrest

theorem flushedBy_append (h : Host) (es fs : List Event) :
    flushedBy h (es ++ fs) = flushedBy h es ++ flushedBy (h.run es) fs := by
  unfold flushedBy
  rw [Host.flushes_append, List.map_append, List.flatten_append]

theorem flushedBy_cons (h : Host) (e : Event) (es : List Event) :
    flushedBy h (e :: es) = ((h.flush e).map batchOf).flatten ++ flushedBy (h.step e).1 es :=
  flushedBy_append h [e] es |>.trans (by
    unfold flushedBy
    rw [Host.flushes, Host.flushes, List.append_nil]
    rfl)

/-- **What was buffered and what arrives is flushed or buffered**, each once and in order. -/
theorem accounted (hb : 1 < b.maxBatch) : ∀ (es : List Event) {h : Host}, h.service.batching = b →
    h.service.buffer ++ h.arrived es = flushedBy h es ++ (h.run es).service.buffer
  | [], _, _ => List.append_nil _
  | e :: es, h, hh => by
      rw [flushedBy_cons, Host.arrived, ← List.append_assoc]
      rcases host_step (by rw [hh]; exact hb) e with ⟨K, g, hg⟩ | ⟨g, out, hg⟩
      · obtain ⟨hemp, -, hbat⟩ := flushBatch_empties (K := K) hg.batch
        have hrest := accounted hb es (h := (h.step e).1)
          (by rw [hg.step, hbat, hg.batching, hh])
        rw [← hg.step] at hemp
        rw [hemp, List.nil_append] at hrest
        rw [← hg.buffer, hrest, hg.flush, List.append_assoc]
        simp only [List.map_cons, List.map_nil, List.flatten_cons, List.flatten_nil, List.append_nil]
        rfl
      · have hrest := accounted hb es (h := (h.step e).1) (by rw [hg.step, hg.batching, hh])
        have hbuf : (h.step e).1.service.buffer = h.service.buffer ++ h.accepted e := by
          rw [hg.step]
          exact hg.buffer
        rw [← hbuf, hrest, hg.flush]
        rfl

theorem sealed_flushes (hb : 1 < b.maxBatch) : ∀ {es : List Event} {h : Host}, h.service.batching = b →
    ∀ f ∈ h.flushes es, Sealed f.1 f.2
  | [], _, _, _, hf => (List.not_mem_nil hf).elim
  | e :: es, h, hh, f, hf => by
      rcases host_step (by rw [hh]; exact hb) e with ⟨K, g, hg⟩ | ⟨g, out, hg⟩
      · rw [Host.flushes, hg.flush] at hf
        rcases List.mem_cons.mp hf with rfl | hf
        · exact sealed_flushBatch K hg.batch
        · obtain ⟨-, -, hbat⟩ := flushBatch_empties (K := K) hg.batch
          exact sealed_flushes hb (by rw [hg.step, hbat, hg.batching, hh]) f hf
      · rw [Host.flushes, hg.flush] at hf
        exact sealed_flushes hb (by rw [hg.step, hg.batching, hh]) f hf

/-- **A look leaves nothing behind that is due.** -/
theorem look_flushIfDue (ht : Tidy b ts h.service) (K : Ctx) (now : ℕ) :
    (h.step (.flushIfDue K now)).1.service.buffer = [] ∨
    ∃ d, (h.step (.flushIfDue K now)).1.service.batchDeadline = some d ∧ now < d := by
  rcases host_flushIfDue h K now with ⟨g, hg⟩ | ⟨g, out, hg⟩
  · rw [hg.step]
    exact .inl (flushBatch_empties hg.batch).1
  · rw [hg.step]
    by_cases hemp : h.service.buffer = []
    · left
      rw [hg.buffer, hemp]
      rfl
    · obtain ⟨-, hdead, hdue⟩ := hg.armed K now rfl hemp
      have hsome : ∃ d, g.service.batchDeadline = some d := by
        rw [hdead]
        by_cases ha : h.service.deadlineArmed = true
        · obtain ⟨t, -, hd⟩ := (ht.armed ha).2
          rw [if_pos ha]
          exact ⟨_, hd⟩
        · rw [if_neg ha]
          exact ⟨_, rfl⟩
      obtain ⟨d, hd⟩ := hsome
      rw [hd] at hdue
      exact .inr ⟨d, hd, Nat.lt_of_not_le (of_decide_eq_false hdue)⟩

/-- Once a deadline is armed, what is buffered is flushed by the first look at or after it. -/
theorem flushed_by_deadline (hb : 1 < b.maxBatch) {K : Ctx} {d now : ℕ} (hnow : d ≤ now) :
    ∀ (es : List Event) {h : Host}, h.service.batching = b → h.service.buffer ≠ [] →
      h.service.deadlineArmed = true → h.service.batchDeadline = some d →
      h.service.buffer.length ≤ (flushedBy h (es ++ [.flushIfDue K now])).length
  | [], h, hh, hne, ha, hd => by
      rw [List.nil_append, flushedBy_cons, List.length_append]
      rcases host_flushIfDue h K now with ⟨g, hg⟩ | ⟨g, out, hg⟩
      · rw [hg.flush]
        simp only [List.map_cons, List.map_nil, List.flatten_cons, List.flatten_nil, List.append_nil, batchOf,
          hg.buffer, List.length_append]
        omega
      · obtain ⟨-, hdead, hdue⟩ := hg.armed K now rfl hne
        rw [hdead, if_pos ha, hd] at hdue
        exact absurd hnow (of_decide_eq_false hdue)
  | e :: es, h, hh, hne, ha, hd => by
      rw [List.cons_append, flushedBy_cons, List.length_append]
      rcases host_step (by rw [hh]; exact hb) e with ⟨K', g, hg⟩ | ⟨g, out, hg⟩
      · rw [hg.flush]
        simp only [List.map_cons, List.map_nil, List.flatten_cons, List.flatten_nil, List.append_nil, batchOf,
          hg.buffer, List.length_append]
        omega
      · have hbuf : h.service.buffer.length ≤ g.service.buffer.length := by
          rw [hg.buffer, List.length_append]
          omega
        have hne' : g.service.buffer ≠ [] := by
          rw [hg.buffer]
          exact List.append_ne_nil_of_left_ne_nil hne _
        have hkept : g.service.deadlineArmed = true ∧ g.service.batchDeadline = some d := by
          by_cases hlook : (∀ K now, e ≠ .flushIfDue K now) ∨ h.service.buffer = []
          · obtain ⟨h1, h2⟩ := hg.deadline hlook
            exact ⟨h1.trans ha, h2.trans hd⟩
          · rw [not_or] at hlook
            simp only [not_forall, not_not] at hlook
            obtain ⟨⟨K', now', rfl⟩, -⟩ := hlook
            obtain ⟨h1, h2, -⟩ := hg.armed K' now' rfl hne
            rw [if_pos ha] at h2
            exact ⟨h1, h2.trans hd⟩
        have hrest := flushed_by_deadline hb hnow (K := K) es (hg.batching.trans hh) hne'
          hkept.1 hkept.2
        rw [hg.step]
        dsimp only
        omega

/-- **Nothing waits beyond its deadline**: what had arrived before a look has been flushed by the first
    look that comes `linger` later. -/
theorem arrived_flushed (hb : 1 < b.maxBatch) (hh : h.service = { batching := b }) {es fs : List Event}
    {K K' : Ctx} {t t' : ℕ} (htimes : (times (es ++ .flushIfDue K t :: (fs ++ [.flushIfDue K' t']))).Pairwise (· ≤ ·))
    (hle : t + b.linger ≤ t') :
    h.arrived es <+: flushedBy h (es ++ .flushIfDue K t :: (fs ++ [.flushIfDue K' t'])) := by
  have hbat : h.service.batching = b := by rw [hh]
  have htidy : Tidy b [] h.service := by
    rw [hh]
    exact ⟨rfl, fun ha => (Bool.false_ne_true ha).elim⟩
  have hpre : Tidy b (times es) (h.run es).service := htidy.run hb es
  -- what is buffered before the first look is flushed by the second
  have hwait : (h.run es).service.buffer.length ≤
      (flushedBy (h.run es) (.flushIfDue K t :: (fs ++ [.flushIfDue K' t']))).length := by
    rw [flushedBy_cons, List.length_append]
    rcases host_flushIfDue (h.run es) K t with ⟨g, hg⟩ | ⟨g, out, hg⟩
    · rw [hg.flush]
      simp only [List.map_cons, List.map_nil, List.flatten_cons, List.flatten_nil, List.append_nil, batchOf,
        hg.buffer, List.length_append]
      omega
    · by_cases hemp : (h.run es).service.buffer = []
      · rw [hemp]
        exact Nat.zero_le _
      obtain ⟨harm, hdead, -⟩ := hg.armed K t rfl hemp
      have hsoon : ∃ d, g.service.batchDeadline = some d ∧ d ≤ t' := by
        rw [hdead]
        by_cases ha : (h.run es).service.deadlineArmed = true
        · obtain ⟨u, hu, hd⟩ := (hpre.armed ha).2
          rw [times_append, List.pairwise_append] at htimes
          have hut : u ≤ t := htimes.2.2 u hu t List.mem_cons_self
          rw [if_pos ha]
          exact ⟨_, hd, by omega⟩
        · rw [if_neg ha, hpre.batching]
          exact ⟨_, rfl, hle⟩
      obtain ⟨d, hd, hdt⟩ := hsoon
      have hbuf : g.service.buffer = (h.run es).service.buffer := hg.buffer.trans (List.append_nil _)
      have hrest := flushed_by_deadline hb hdt (K := K') fs
        (hg.batching.trans hpre.batching) (by rw [hbuf]; exact hemp) harm hd
      rw [hg.step]
      rw [hbuf] at hrest
      dsimp only
      omega
  have hacc : ∀ fs, h.arrived fs = flushedBy h fs ++ (h.run fs).service.buffer := by
    intro fs
    rw [← accounted hb fs hbat, hh]
    rfl
  have hwhole := hacc (es ++ .flushIfDue K t :: (fs ++ [.flushIfDue K' t']))
  refine List.prefix_of_prefix_length_le ( List.prefix_append _ ((h.run es).arrived (.flushIfDue K t ::
    (fs ++ [.flushIfDue K' t'])))) ?_ ?_
  · rw [← Host.arrived_append, hwhole]
    exact List.prefix_append _ _
  · rw [hacc es, flushedBy_append, List.length_append, List.length_append]
    omega

end Runs

/-! ## 5. The result -/

/-- **Group commit loses, duplicates and reorders nothing.** After any events, the requests that have
    passed the validation of a leader are, in order of arrival, the batches of the flushes and then the
    buffer. Every flush has proposed its batch as a whole or answered all of it (`Sealed`), and the
    table holds the pending entry of a proposed request exactly if fewer than `capacity` requests come
    after it in the batch: all of them, if the batch is no larger than the table. What comes next
    flushes all that is buffered, or proposes nothing and answers nobody who is buffered. A look leaves nothing behind
    that is due, and nothing waits for longer than `linger` after the first look at it. -/
theorem group_commit_exact {b : Batching} (hb : 1 < b.maxBatch) (c : RaftCore) (es : List Event) :
    let h : Host := ⟨c, { batching := b }⟩
    h.arrived es = flushedBy h es ++ (h.run es).service.buffer ∧
    (∀ f ∈ h.flushes es, Sealed f.1 f.2 ∧
      (f.2.core.role = .leader → ∀ k r, (batchOf f)[k]? = some r →
        ((f.2.flushBatch f.1).1.service.pending.slots (PendingTable.slotOf (f.2.core.log.length + 1 + k)) =
            ⟨f.2.core.log.length + 1 + k, ⟨r.src, r.clientId, r.seqNo⟩, true⟩ ↔
          (batchOf f).length ≤ k + PendingTable.capacity))) ∧
    (∀ e, (∃ K g, Flushed (h.run es) e K g) ∨ ∃ g out, Kept (h.run es) e g out) ∧
    (∀ K now, ((h.run es).step (.flushIfDue K now)).1.service.buffer = [] ∨
      ∃ d, ((h.run es).step (.flushIfDue K now)).1.service.batchDeadline = some d ∧ now < d) ∧
    ∀ es₁ es₂ K₁ t₁ K₂ t₂, es = es₁ ++ .flushIfDue K₁ t₁ :: (es₂ ++ [.flushIfDue K₂ t₂]) →
      (times es).Pairwise (· ≤ ·) → t₁ + b.linger ≤ t₂ → h.arrived es₁ <+: flushedBy h es := by
  intro h
  have htidy : Tidy b [] h.service := ⟨rfl, fun ha => (Bool.false_ne_true ha).elim⟩
  have hrun : Tidy b (times es) (h.run es).service := htidy.run hb es
  refine ⟨accounted hb es (h := h) rfl, fun f hf => ?_, fun e => ?_, fun K now => look_flushIfDue hrun K now, ?_⟩
  · have hs := sealed_flushes hb (h := h) rfl f hf
    refine ⟨hs, fun hr k r hk => ?_⟩
    rw [(hs.proposed hr).2.1, ← putAll_records]
    exact putAll_holds_iff hk
  · exact host_step (by rw [hrun.batching]; exact hb) e
  · rintro es₁ es₂ K₁ t₁ K₂ t₂ rfl htimes hle
    exact arrived_flushed hb rfl htimes hle

/-- A leader, and the requests of client 9. -/
def leading : RaftCore := { role := .leader, currentTerm := 1 }

def numbered (n : ℕ) : ClientRequest := ⟨9, n, leBytes 8 9 ++ leBytes 8 n⟩

def atTime (now : ℕ) : Ctx := ⟨1, [2, 3], {}, now, true, none⟩

/-- Two requests fill a batch. The next one waits from the look at time 3 on, and a linger of 5 later
    the node does not lead any more; a request that comes in between is answered at once. -/
def lingering : List Event :=
  [.request (atTime 0) 100 (numbered 1), .request (atTime 1) 101 (numbered 2),
    .request (atTime 2) 100 (numbered 3), .flushIfDue (atTime 3) 3,
    .core { leading with role := .follower, currentTerm := 2 }, .request (atTime 4) 102 (numbered 4),
    .flushIfDue (atTime 8) 8]

def pairHost : Host := ⟨leading, { batching := ⟨2, 5⟩ }⟩

theorem group_commit_exact_lingering :
    (pairHost.arrived (lingering.take 3)).map Buffered.seqNo = [1, 2, 3] ∧
    (pairHost.flushes lingering).map (fun f => (batchOf f).map Buffered.src) = [[100, 101], [100]] ∧
    pairHost.arrived lingering = flushedBy pairHost lingering ∧
    pairHost.arrived (lingering.take 3) <+: flushedBy pairHost lingering := by
  have hbuf : (pairHost.run lingering).service.buffer = [] := by decide +kernel
  obtain ⟨hacc, -, -, -, hdue⟩ := group_commit_exact (b := ⟨2, 5⟩) (by decide) leading lingering
  refine ⟨by decide +kernel, by decide +kernel, ?_, ?_⟩
  · refine hacc.trans ?_
    rw [show (Host.run ⟨leading, { batching := ⟨2, 5⟩ }⟩ lingering).service.buffer = [] from hbuf,
      List.append_nil]
    rfl
  · exact hdue (lingering.take 3) (lingering.drop 4 |>.take 2) _ 3 _ 8 rfl (by decide) (by decide)

/-! ## 6. A batch that is larger than the table -/

theorem decodePrefix_numbered {n : ℕ} (hn : n < 2 ^ 64) :
    decodePrefix (numbered n).command = some ((numbered n).clientId, (numbered n).seqNo) := by
  have h9 : 9 < 2 ^ 64 := by decide
  have h := decodePrefix_leBytes h9 hn []
  rw [List.append_nil] at h
  exact h

/-- **A batch that is larger than the table**: its first pending entry is gone. -/
theorem flushBatch_lost {K : Ctx} {h : Host} (hr : h.core.role = .leader)
    (hlong : PendingTable.capacity < h.service.buffer.length) :
    (h.flushBatch K).1.service.pending.take (h.core.log.length + 1) = none := by
  have hne : h.service.buffer ≠ [] := List.ne_nil_of_length_pos (Nat.zero_lt_of_lt hlong)
  rw [((sealed_flushBatch K hne).proposed hr).2.1, ← putAll_records]
  have hlost := putAll_lost (t := h.service.pending) (i := h.core.log.length + 1) (k := 0)
    (by rw [Nat.zero_add]; exact hlong)
  unfold PendingTable.take
  exact if_pos (by rw [decide_eq_true hlost, Bool.or_true])

def bufferedFrom (src : NodeId) (r : ClientRequest) : Buffered := ⟨src, r.clientId, r.seqNo, r.command⟩

/-- Requests that do not fill the buffer are buffered. -/
theorem run_buffered (K : Ctx) (src : NodeId) : ∀ (reqs : List ClientRequest) {h : Host},
    h.core.role = .leader → 1 < h.service.batching.maxBatch →
    h.service.leaderHint = h.core.leaderId.getD 0 →
    (∀ r ∈ reqs, decodePrefix r.command = some (r.clientId, r.seqNo)) →
    h.service.buffer.length + reqs.length < h.service.batching.maxBatch →
    h.run (reqs.map (.request K src)) =
      ⟨h.core, { h.service with buffer := h.service.buffer ++ reqs.map (bufferedFrom src) }⟩
  | [], h, _, _, _, _, _ => by
      rw [List.map_nil, List.map_nil, List.append_nil]
      rfl
  | r :: reqs, h, hr, hb, hhint, hid, hroom => by
      rw [List.length_cons] at hroom
      obtain ⟨hstep, -⟩ := step_request (K := K) (onClientRequest_buffered src r hb hr
        (hid r List.mem_cons_self))
      rw [if_neg (by omega)] at hstep
      rw [List.map_cons, Host.run, hstep]
      refine Eq.trans (run_buffered K src reqs ?_ ?_ ?_ (fun r' hr' => hid r' (List.mem_cons_of_mem _ hr')) ?_) ?_
      · exact hr
      · exact hb
      · rfl
      · dsimp only [Host.goOn]
        rw [List.length_append, List.length_singleton]
        omega
      · dsimp only [Host.goOn]
        rw [← hhint, List.append_assoc]
        rfl

/-- Those that fill it are flushed with it. -/
theorem run_filled (K : Ctx) (src : NodeId) (reqs : List ClientRequest) (r : ClientRequest) {h : Host}
    (hr : h.core.role = .leader) (hb : 1 < h.service.batching.maxBatch)
    (hhint : h.service.leaderHint = h.core.leaderId.getD 0)
    (hid : ∀ q ∈ reqs ++ [r], decodePrefix q.command = some (q.clientId, q.seqNo))
    (hfull : h.service.buffer.length + reqs.length + 1 = h.service.batching.maxBatch) :
    h.run ((reqs ++ [r]).map (.request K src)) = (Host.flushBatch K
      ⟨h.core, { h.service with buffer := h.service.buffer ++ (reqs ++ [r]).map (bufferedFrom src) }⟩).1 := by
  have hbuf := run_buffered K src reqs hr hb hhint
    (fun q hq => hid q (List.mem_append_left _ hq)) (by omega)
  rw [List.map_append, Host.run_append, hbuf, List.map_append, ← List.append_assoc]
  obtain ⟨hstep, -⟩ := step_request (K := K) (onClientRequest_buffered src r
    (h := ⟨h.core, { h.service with buffer := h.service.buffer ++ reqs.map (bufferedFrom src) }⟩) hb hr
    (hid r (List.mem_append_right _ (List.mem_singleton_self r))))
  rw [if_pos (by dsimp only; rw [List.length_append, List.length_map]; omega)] at hstep
  rw [List.map_singleton, Host.run, Host.run, hstep, ← hhint]
  rfl

/-- The requests `1, …, n` of client 9. -/
def requests (n : ℕ) : List ClientRequest := (List.range n).map fun i => numbered (i + 1)

theorem requests_valid {n : ℕ} (hn : n < 2 ^ 64) :
    ∀ r ∈ requests n, decodePrefix r.command = some (r.clientId, r.seqNo) := by
  intro r hr
  obtain ⟨i, hi, rfl⟩ := List.mem_map.mp hr
  have := List.mem_range.mp hi
  exact decodePrefix_numbered (by omega)

/-- A leader who waits for `n` requests. -/
def waiting (n : ℕ) : Host := ⟨leading, { batching := ⟨n, 0⟩ }⟩

theorem waiting_flush {m : ℕ} (hm : PendingTable.capacity < m) (hsmall : m < 2 ^ 64) {g : Host}
    (hg : g = (waiting m).run ((requests m).map (.request (atTime 0) 100))) :
    g.service.buffer = [] ∧ g.core.log = (requests m).map (fun r => ⟨1, r.command⟩) ∧
    g.service.pending.take 1 = none ∧
    ∀ self entry result, g.service.onApplied self 1 entry result = (g.service, []) := by
  obtain ⟨n, rfl⟩ : ∃ n, m = n + 1 := ⟨m - 1, by omega⟩
  have hlen : ∀ k, (requests k).length = k := fun k => by rw [requests, List.length_map, List.length_range]
  have hsplit : requests (n + 1) = requests n ++ [numbered (n + 1)] := by
    simp only [requests, List.range_succ, List.map_append, List.map_cons, List.map_nil]
  have hrun := run_filled (atTime 0) 100 (requests n) (numbered (n + 1)) (h := waiting (n + 1))
    rfl (lt_trans (by decide) hm) rfl
    (by rw [← hsplit]; exact requests_valid hsmall) (by rw [hlen]; exact Nat.zero_add _ ▸ rfl)
  rw [← hsplit, ← hg] at hrun
  generalize hf : Host.mk (waiting (n + 1)).core _ = f at hrun
  have hbuf : f.service.buffer = (requests (n + 1)).map (bufferedFrom 100) := by
    rw [← hf]
    rfl
  have hlong : f.service.buffer.length = n + 1 := by rw [hbuf, List.length_map, hlen]
  have hlead : f.core = leading := by rw [← hf]; rfl
  have hne : f.service.buffer ≠ [] := List.ne_nil_of_length_pos (by omega)
  have hlog := ((sealed_flushBatch (atTime 0) hne).proposed (by rw [hlead]; rfl)).1
  have hlost := flushBatch_lost (K := atTime 0) (h := f) (by rw [hlead]; rfl) (by omega)
  rw [hlead] at hlog hlost
  rw [hrun]
  refine ⟨(flushBatch_empties hne).1, ?_, hlost, fun self entry result => ?_⟩
  · rw [hlog, hbuf, List.map_map]
    rfl
  · unfold ClientService.onApplied
    rw [show (f.flushBatch (atTime 0)).1.service.pending.take 1 = none from hlost]

/-- **The flush of 8193 requests**: all of them are in the log and none is in the buffer, but there is
    no pending entry for the first one, so that nobody is answered when it is applied. -/
theorem oversized_flush :
    let g := (waiting 8193).run ((requests 8193).map (.request (atTime 0) 100))
    g.service.buffer = [] ∧ g.core.log = (requests 8193).map (fun r => ⟨1, r.command⟩) ∧
    g.service.pending.take 1 = none ∧
    ∀ self entry result, g.service.onApplied self 1 entry result = (g.service, []) := by
  exact waiting_flush (by decide) (by decide) rfl

end Rsm.Client
