/-
  File:      RaftRsm/Runtime/WakeGate.lean
  Subject:   The gate that a consumer of the rings sleeps on (`runtime/wake_gate.h`), step by step.

  Each read-modify-write and load of `state_`, each read of a source of work by `hasWork`, each acquire and
  release of the mutex, the wait on the condition variable and `notify_all` is one step; what a thread does in
  between with its own variables goes with the step before it. The wait gives the mutex back and parks
  at once. Who is parked goes on when it has been notified, for no reason, or as its deadline has passed.

  A source of work is what one read of `hasWork` sees: a ring, or a stop flag, as in
  `NodeRuntime::raftLoop`, which asks the one and then the other. What a producer publishes need not be
  visible at once: a ring with several producers shows nothing until its first position has been handed over.

  * `notify`, `waitUntil`, `gate` -- the threads: any number of producers, and one consumer;
  * `Produces`, `Consumes` -- what one step of each can do;
  * `History` -- what a trace tells: of each source, the publications since which it has had work; of each
    producer, which of its publications it has notified for;
  * `outline` -- the invariant: until the first notify of a wait, work that came after it was looked for has
    not been notified for, and as long as the consumer may park or is parked, no notify for it is complete;
  * **`no_lost_wakeup`** -- a parked consumer has work only if its notify is still under way.
-/
import RaftRsm.Process.Threads
import RaftRsm.Words.Counter
import Mathlib.Data.List.Infix
import Mathlib.Order.Basic

namespace Rsm.Runtime

open Process Words

/-! ## 1. The source -/

/-- The gate, and the work that its consumer asks for. A thread is a producer `some i`, or the consumer
    `none`. -/
structure WakeGate (ι J : Type) where
  state : BitVec 64 := 0
  /-- Who holds the mutex. -/
  mu : Option (Option ι) := none
  /-- The consumer waits on the condition variable, and has not been notified. -/
  parked : Bool := false
  /-- What a read of each source by `hasWork` sees. -/
  work : J → Bool

namespace WakeGate

def kEpochShift : ℕ := 32
def kEpochInc : BitVec 64 := 1 <<< kEpochShift
def kWaiterInc : BitVec 64 := 1
def kWaiterMask : BitVec 64 := kEpochInc - 1

theorem kEpochInc_eq : kEpochInc = count 64 (2 ^ kEpochShift) := by decide

theorem kWaiterMask_eq : kWaiterMask = count 64 (2 ^ kEpochShift - 1) := by decide

/-- What the callers of a gate and its two counters let be seen. -/
inductive Event (ι J : Type) where
  | silent
  /-- The producer `i` has published to the source `j`, which now has work or not. -/
  | published (i : ι) (j : J) (b : Bool)
  /-- A `notify` of `i` has moved the epoch, and there is a waiter. -/
  | bumped (i : ι)
  /-- A `notify` of `i` has moved the epoch, and has returned as there is no waiter. -/
  | passed (i : ι)
  /-- A `notify` of `i` that had a waiter has returned. -/
  | notified (i : ι)
  /-- The consumer has taken work from the source `j`, which still has work or not. -/
  | drained (j : J) (b : Bool)
  /-- The consumer has registered as a waiter. -/
  | registered
  /-- `waitUntil` has returned. -/
  | left
  deriving DecidableEq, Repr

/-- Where a producer is: before it has the mutex, before `notify_all`, or before it gives the mutex back. -/
inductive Producer where
  | idle
  | lock
  | wake
  | unlock
  deriving DecidableEq, Repr

/-- Where the consumer is: at the reads of `hasWork` before it has the mutex, and before the mutex if none
    is left; at the load of the predicate, and at its reads of `hasWork`; parked, and before it has the mutex
    again; before it gives the mutex back, and before it leaves. `last` tells that its deadline has passed. -/
inductive Consumer (J : Type) where
  | idle
  | check (epoch : BitVec 64) (rest : List J)
  | load (epoch : BitVec 64) (last : Bool)
  | recheck (epoch : BitVec 64) (last : Bool) (rest : List J)
  | parked (epoch : BitVec 64)
  | relock (epoch : BitVec 64) (last : Bool)
  | unlock
  | leave
  deriving DecidableEq, Repr

/-- A producer publishes, or calls `notify`, or the call goes on. -/
inductive ProducerCall (J : Type) where
  | publish (j : J) (b : Bool)
  | notify
  | resume

/-- The consumer takes work, or calls `waitUntil`, or the call goes on; it may wake for no reason, or as
    its deadline has passed. -/
inductive ConsumerCall (J : Type) where
  | drain (j : J) (b : Bool)
  | waitUntil
  | resume
  | spurious
  | timeout

variable {ι J : Type} [DecidableEq J]

/-- One step of the producer `i`, which publishes and calls `notify`. -/
def notify (i : ι) : ProducerCall J → Producer → WakeGate ι J → Option (Producer × WakeGate ι J × Event ι J)
  | .publish j b, .idle, g => some (.idle, { g with work := Function.update g.work j b }, .published i j b)
  | .notify, .idle, g =>
      if g.state &&& kWaiterMask ≠ 0 then some (.lock, { g with state := g.state + kEpochInc }, .bumped i)
      else some (.idle, { g with state := g.state + kEpochInc }, .passed i)
  | .resume, .lock, g => if g.mu = none then some (.wake, { g with mu := some (some i) }, .silent) else none
  | .resume, .wake, g => some (.unlock, { g with parked := false }, .silent)
  | .resume, .unlock, g => some (.idle, { g with mu := none }, .notified i)
  | _, _, _ => none

/-- One step of the consumer, which takes work and calls `waitUntil`; `hasWork` asks the sources in order.
    `wait_until` with a predicate asks it before it parks, and once more after its deadline. -/
def waitUntil (sources : List J) : ConsumerCall J → Consumer J → WakeGate ι J →
    Option (Consumer J × WakeGate ι J × Event ι J)
  | .drain j b, .idle, g => some (.idle, { g with work := Function.update g.work j b }, .drained j b)
  | .waitUntil, .idle, g =>
      some (.check (g.state >>> kEpochShift) sources, { g with state := g.state + kWaiterInc }, .registered)
  | .resume, .check epoch (j :: rest), g =>
      if g.work j then some (.leave, g, .silent) else some (.check epoch rest, g, .silent)
  | .resume, .check epoch [], g =>
      if g.mu = none then some (.load epoch false, { g with mu := some none }, .silent) else none
  | .resume, .load epoch last, g =>
      if g.state >>> kEpochShift ≠ epoch then some (.unlock, g, .silent)
      else some (.recheck epoch last sources, g, .silent)
  | .resume, .recheck epoch last (j :: rest), g =>
      if g.work j then some (.unlock, g, .silent) else some (.recheck epoch last rest, g, .silent)
  | .resume, .recheck epoch last [], g =>
      if last then some (.leave, { g with mu := none }, .silent)
      else some (.parked epoch, { g with mu := none, parked := true }, .silent)
  | .resume, .parked epoch, g => if g.parked then none else some (.relock epoch false, g, .silent)
  | .spurious, .parked epoch, g => some (.relock epoch false, { g with parked := false }, .silent)
  | .timeout, .parked epoch, g => some (.relock epoch true, { g with parked := false }, .silent)
  | .resume, .relock epoch last, g =>
      if g.mu = none then some (.load epoch last, { g with mu := some none }, .silent) else none
  | .resume, .unlock, g => some (.leave, { g with mu := none }, .silent)
  | .resume, .leave, g => some (.idle, { g with state := g.state - kWaiterInc }, .left)
  | _, _, _ => none

abbrev Call (J : Type) : Option ι → Type
  | some _ => ProducerCall J
  | none => ConsumerCall J

abbrev Pc (J : Type) : Option ι → Type
  | some _ => Producer
  | none => Consumer J

/-- **The threads.** -/
def gate (ι : Type) (sources : List J) : Threads (Option ι) (WakeGate ι J) (Event ι J) (Call J) (Pc J) where
  move
    | some i => notify i
    | none => waitUntil sources

/-- A new gate, everyone idle, with whatever work there is. -/
def start (ι : Type) {J : Type} (work : J → Bool) : Threads.World (WakeGate ι J) (Pc J : Option ι → Type) where
  mem := { work }
  pc
    | some _ => Producer.idle
    | none => Consumer.idle

/-- The consumer is blocked in the wait on the condition variable. -/
def Blocked (w : Threads.World (WakeGate ι J) (Pc J : Option ι → Type)) : Prop :=
  (∃ epoch, w.pc none = Consumer.parked epoch) ∧ w.mem.parked = true

/-! ## 2. What one step can do -/

/-- One step of the producer `i`. -/
inductive Produces (i : ι) : Producer → WakeGate ι J → Producer → WakeGate ι J → Event ι J → Prop where
  | publish (j : J) (b : Bool) (g : WakeGate ι J) :
      Produces i .idle g .idle { g with work := Function.update g.work j b } (.published i j b)
  | bump (g : WakeGate ι J) (h : g.state &&& kWaiterMask ≠ 0) :
      Produces i .idle g .lock { g with state := g.state + kEpochInc } (.bumped i)
  | pass (g : WakeGate ι J) (h : g.state &&& kWaiterMask = 0) :
      Produces i .idle g .idle { g with state := g.state + kEpochInc } (.passed i)
  | acquire (g : WakeGate ι J) (h : g.mu = none) :
      Produces i .lock g .wake { g with mu := some (some i) } .silent
  | notifyAll (g : WakeGate ι J) : Produces i .wake g .unlock { g with parked := false } .silent
  | release (g : WakeGate ι J) : Produces i .unlock g .idle { g with mu := none } (.notified i)

theorem produces {i : ι} {c : ProducerCall J} {p p' : Producer} {g g' : WakeGate ι J} {e : Event ι J}
    (h : notify i c p g = some (p', g', e)) : Produces i p g p' g' e := by
  unfold notify at h
  split at h
  · cases h
    exact .publish _ _ _
  · split_ifs at h with hwaiter
    · obtain ⟨rfl, hrest⟩ := Prod.mk.inj (Option.some.inj h)
      obtain ⟨rfl, rfl⟩ := Prod.mk.inj hrest
      exact .bump _ hwaiter
    · obtain ⟨rfl, hrest⟩ := Prod.mk.inj (Option.some.inj h)
      obtain ⟨rfl, rfl⟩ := Prod.mk.inj hrest
      exact .pass _ (not_not.mp hwaiter)
  · split_ifs at h with hmu
    cases h
    exact .acquire _ hmu
  · cases h
    exact .notifyAll _
  · cases h
    exact .release _
  · cases h

/-- One step of the consumer. -/
inductive Consumes (sources : List J) :
    Consumer J → WakeGate ι J → Consumer J → WakeGate ι J → Event ι J → Prop where
  | drain (j : J) (b : Bool) (g : WakeGate ι J) :
      Consumes sources .idle g .idle { g with work := Function.update g.work j b } (.drained j b)
  | register (g : WakeGate ι J) :
      Consumes sources .idle g (.check (g.state >>> kEpochShift) sources)
        { g with state := g.state + kWaiterInc } .registered
  | found (epoch : BitVec 64) (j : J) (rest : List J) (g : WakeGate ι J) (h : g.work j = true) :
      Consumes sources (.check epoch (j :: rest)) g .leave g .silent
  | nothing (epoch : BitVec 64) (j : J) (rest : List J) (g : WakeGate ι J) (h : g.work j = false) :
      Consumes sources (.check epoch (j :: rest)) g (.check epoch rest) g .silent
  | acquire (epoch : BitVec 64) (g : WakeGate ι J) (h : g.mu = none) :
      Consumes sources (.check epoch []) g (.load epoch false) { g with mu := some none } .silent
  | moved (epoch : BitVec 64) (last : Bool) (g : WakeGate ι J) (h : g.state >>> kEpochShift ≠ epoch) :
      Consumes sources (.load epoch last) g .unlock g .silent
  | same (epoch : BitVec 64) (last : Bool) (g : WakeGate ι J) (h : g.state >>> kEpochShift = epoch) :
      Consumes sources (.load epoch last) g (.recheck epoch last sources) g .silent
  | foundLate (epoch : BitVec 64) (last : Bool) (j : J) (rest : List J) (g : WakeGate ι J) (h : g.work j = true) :
      Consumes sources (.recheck epoch last (j :: rest)) g .unlock g .silent
  | nothingLate (epoch : BitVec 64) (last : Bool) (j : J) (rest : List J) (g : WakeGate ι J)
      (h : g.work j = false) :
      Consumes sources (.recheck epoch last (j :: rest)) g (.recheck epoch last rest) g .silent
  | late (epoch : BitVec 64) (g : WakeGate ι J) :
      Consumes sources (.recheck epoch true []) g .leave { g with mu := none } .silent
  | park (epoch : BitVec 64) (g : WakeGate ι J) :
      Consumes sources (.recheck epoch false []) g (.parked epoch) { g with mu := none, parked := true } .silent
  | notified (epoch : BitVec 64) (g : WakeGate ι J) (h : g.parked = false) :
      Consumes sources (.parked epoch) g (.relock epoch false) g .silent
  | woken (epoch : BitVec 64) (last : Bool) (g : WakeGate ι J) :
      Consumes sources (.parked epoch) g (.relock epoch last) { g with parked := false } .silent
  | reacquire (epoch : BitVec 64) (last : Bool) (g : WakeGate ι J) (h : g.mu = none) :
      Consumes sources (.relock epoch last) g (.load epoch last) { g with mu := some none } .silent
  | release (g : WakeGate ι J) : Consumes sources .unlock g .leave { g with mu := none } .silent
  | leave (g : WakeGate ι J) :
      Consumes sources .leave g .idle { g with state := g.state - kWaiterInc } .left

theorem consumes {sources : List J} {c : ConsumerCall J} {q q' : Consumer J} {g g' : WakeGate ι J} {e : Event ι J}
    (h : waitUntil sources c q g = some (q', g', e)) : Consumes sources q g q' g' e := by
  unfold waitUntil at h
  split at h
  · cases h
    exact .drain _ _ _
  · cases h
    exact .register _
  · split_ifs at h with hwork
    · cases h
      exact .found _ _ _ _ hwork
    · cases h
      exact .nothing _ _ _ _ (Bool.eq_false_iff.mpr hwork)
  · split_ifs at h with hmu
    cases h
    exact .acquire _ _ hmu
  · split_ifs at h with hepoch
    · cases h
      exact .moved _ _ _ hepoch
    · cases h
      exact .same _ _ _ (not_not.mp hepoch)
  · split_ifs at h with hwork
    · cases h
      exact .foundLate _ _ _ _ _ hwork
    · cases h
      exact .nothingLate _ _ _ _ _ (Bool.eq_false_iff.mpr hwork)
  · split_ifs at h with hlast
    · cases h
      cases hlast
      exact .late _ _
    · cases h
      cases Bool.eq_false_iff.mpr hlast
      exact .park _ _
  · split_ifs at h with hparked
    cases h
    exact .notified _ _ (Bool.eq_false_iff.mpr hparked)
  · cases h
    exact .woken _ _ _
  · cases h
    exact .woken _ _ _
  · split_ifs at h with hmu
    cases h
    exact .reacquire _ _ _ hmu
  · cases h
    exact .release _
  · cases h
    exact .leave _
  · cases h

/-! ## 3. What a run lets be seen -/

/-- **What a trace tells**: of each source the publications since which it has had work, each as a producer
    and the number of its publication; of each producer how many publications it has made, how many before
    the last notify it has begun, and how many before the last it has completed; how often the epoch has
    moved, whether the consumer waits, and how often the epoch has moved in the current wait. -/
structure History (ι J : Type) where
  tickets : J → List (ι × ℕ) := fun _ => []
  published : ι → ℕ := fun _ => 0
  started : ι → ℕ := fun _ => 0
  completed : ι → ℕ := fun _ => 0
  epochs : ℕ := 0
  registered : Bool := false
  during : ℕ := 0

section History

variable [DecidableEq ι]

/-- The epoch moves, for a notify that `i` has begun. -/
def History.begin (h : History ι J) (i : ι) : History ι J :=
  { h with
    started := Function.update h.started i (h.published i)
    epochs := h.epochs + 1
    during := if h.registered then h.during + 1 else h.during }

def History.add (h : History ι J) : Event ι J → History ι J
  | .published i j b =>
      { h with
        tickets := Function.update h.tickets j (if b then h.tickets j ++ [(i, h.published i)] else [])
        published := Function.update h.published i (h.published i + 1) }
  | .bumped i => h.begin i
  | .passed i => { h.begin i with completed := Function.update h.completed i (h.published i) }
  | .notified i => { h with completed := Function.update h.completed i (h.started i) }
  | .drained j b => { h with tickets := Function.update h.tickets j (if b then h.tickets j else []) }
  | .registered => { h with registered := true, during := 0 }
  | .left => { h with registered := false }
  | .silent => h

def history (τ : List (Event ι J)) : History ι J := τ.foldl History.add {}

theorem history_snoc (τ : List (Event ι J)) (e : Event ι J) : history (τ ++ [e]) = (history τ).add e :=
  List.foldl_concat _ _ _ _

/-- **In every wait the epoch moves fewer than `2 ^ 32` times.** -/
def FewNotifies (τ : List (Event ι J)) : Prop := ∀ τ', τ' <+: τ → (history τ').during < 2 ^ 32

theorem FewNotifies.of_snoc {τ : List (Event ι J)} {e : Event ι J} (h : FewNotifies (τ ++ [e])) : FewNotifies τ :=
  fun _ hτ => h _ (hτ.trans (List.prefix_append _ _))

theorem History.during_add_le (h : History ι J) (e : Event ι J) : (h.add e).during ≤ h.during + 1 := by
  have hbegin : ∀ i, (h.begin i).during ≤ h.during + 1 := by
    intro i
    show (if h.registered then h.during + 1 else h.during) ≤ _
    split_ifs
    · exact le_refl _
    · exact Nat.le_succ _
  cases e with
  | bumped i => exact hbegin i
  | passed i => exact hbegin i
  | registered => exact Nat.zero_le _
  | silent | published | notified | drained | left => exact Nat.le_succ _

/-- A short run has few notifies. -/
theorem fewNotifies_of_length {τ : List (Event ι J)} (hτ : τ.length < 2 ^ 32) : FewNotifies τ := by
  have hle : ∀ τ : List (Event ι J), (history τ).during ≤ τ.length := by
    intro τ
    induction τ using List.reverseRecOn with
    | nil => exact le_refl _
    | append_singleton τ e ih =>
        rw [history_snoc, List.length_append, List.length_singleton]
        exact ((history τ).during_add_le e).trans (Nat.succ_le_succ ih)
  intro τ' hτ'
  exact lt_of_le_of_lt ((hle τ').trans hτ'.length_le) hτ

end History

/-! ## 4. The outline -/

section Outline

variable [DecidableEq ι]

/-- **The gate after a trace**: the word holds the number of epochs and that of waiters, a source with
    publications since which it has had work has work, and no producer has notified for more than it has
    published. -/
structure Memory (h : History ι J) (g : WakeGate ι J) : Prop where
  state : g.state = packed 64 kEpochShift h.epochs (if h.registered then 1 else 0)
  work : ∀ j, h.tickets j ≠ [] → g.work j = true
  completed : ∀ i, h.completed i ≤ h.started i
  started : ∀ i, h.started i ≤ h.published i
  during : h.during ≤ h.epochs

/-- If a source has work, it is of publications past the bound of their producers. -/
def Past (f : ι → ℕ) (tickets : List (ι × ℕ)) (work : Bool) : Prop :=
  (work = true → tickets ≠ []) ∧ ∀ x ∈ tickets, f x.1 ≤ x.2

/-- The consumer waits, and has the epoch of the time it registered. -/
def Registered (h : History ι J) (epoch : BitVec 64) : Prop :=
  h.registered = true ∧ epoch = packed 64 kEpochShift (h.epochs - h.during) 0 >>> kEpochShift

/-- **Until the first notify of the wait**, no notify has begun for the work that there is. -/
def Quiet (sources : List J) (h : History ι J) (g : WakeGate ι J) : Prop :=
  h.during = 0 → ∀ j ∈ sources, Past h.started (h.tickets j) (g.work j)

/-- **No notify is complete** for the work that there is. -/
def Awaited (sources : List J) (h : History ι J) (g : WakeGate ι J) : Prop :=
  ∀ j ∈ sources, Past h.completed (h.tickets j) (g.work j)

def ProducerAt (i : ι) (g : WakeGate ι J) : Producer → Prop
  | .idle => True
  | .lock => True
  | .wake => g.mu = some (some i)
  | .unlock => g.mu = some (some i) ∧ g.parked = false

/-- Where the consumer is, the sources it has asked had no work; past the test of the epoch, and as long as
    it is parked, no notify is complete for what has come since. -/
def ConsumerAt (sources : List J) (h : History ι J) (g : WakeGate ι J) : Consumer J → Prop
  | .idle => h.registered = false
  | .check epoch rest => Registered h epoch ∧ ∃ asked, sources = asked ++ rest ∧ Quiet asked h g
  | .load epoch _ => Registered h epoch ∧ Quiet sources h g ∧ g.mu = some none
  | .recheck epoch _ _ => Registered h epoch ∧ Quiet sources h g ∧ g.mu = some none ∧ Awaited sources h g
  | .parked epoch => Registered h epoch ∧ Quiet sources h g ∧ (g.parked = true → Awaited sources h g)
  | .relock epoch _ => Registered h epoch ∧ Quiet sources h g
  | .unlock => h.registered = true ∧ g.mu = some none
  | .leave => h.registered = true

def outline (sources : List J) : Outline (WakeGate ι J) (Event ι J) (Pc J : Option ι → Type) where
  memory τ := Memory (history τ)
  thread
    | some i, _, p, g => ProducerAt i g p
    | none, τ, q, g => ConsumerAt sources (history τ) g q

end Outline

section Steps

variable [DecidableEq ι] {sources : List J} {h h' : History ι J} {g g' : WakeGate ι J} {i j : ι}
  {p p' o : Producer} {q q' : Consumer J} {e : Event ι J}

/-! ### The steps of a producer -/

omit [DecidableEq J] [DecidableEq ι] in
/-- A notify finds no waiter only if the consumer does not wait. -/
theorem Memory.no_waiter (hm : Memory h g) (hzero : g.state &&& kWaiterMask = 0) : h.registered = false := by
  cases hreg : h.registered with
  | false => rfl
  | true =>
      have hone : (g.state &&& kWaiterMask).toNat = 1 := by
        rw [hm.state, hreg, if_pos rfl, kWaiterMask_eq]
        exact packed_low (by decide) _ (by decide)
      rw [hzero] at hone
      cases hone

omit [DecidableEq J] in
theorem Memory.begin (hm : Memory h g) (i : ι) : Memory (h.begin i) { g with state := g.state + kEpochInc } := by
  have hduring := hm.during
  refine ⟨?_, hm.work, fun j => ?_, fun j => ?_, ?_⟩
  · show g.state + kEpochInc = _
    rw [hm.state, kEpochInc_eq]
    exact packed_add_high _ _ _
  · have hle := (hm.completed i).trans (hm.started i)
    exact le_update_iff.mpr ⟨hle, fun j _ => hm.completed j⟩ j
  · exact update_le_iff.mpr ⟨le_refl _, fun j _ => hm.started j⟩ j
  · show (if h.registered then h.during + 1 else h.during) ≤ h.epochs + 1
    split_ifs <;> omega

omit [DecidableEq J] in
/-- A producer that completes a notify has begun it. -/
theorem Memory.complete (hm : Memory h g) (i : ι) {n : ℕ} (hn : n ≤ h.started i) :
    Memory { h with completed := Function.update h.completed i n } g := by
  exact { hm with completed := update_le_iff.mpr ⟨hn, fun j _ => hm.completed j⟩ }

omit [DecidableEq ι] in
/-- A source that gets or loses its work gets or loses its publications with it. -/
theorem Memory.work_update (hm : Memory h g) {j j' : J} {b : Bool} {l : List (ι × ℕ)}
    (hj' : Function.update h.tickets j (if b then l else []) j' ≠ []) : Function.update g.work j b j' = true := by
  by_cases hjj : j' = j
  · subst hjj
    rw [Function.update_self] at hj' ⊢
    by_contra hb
    rw [if_neg hb] at hj'
    exact hj' rfl
  · rw [Function.update_of_ne hjj] at hj' ⊢
    exact hm.work j' hj'

theorem Memory.publish (hm : Memory h g) (i : ι) (j : J) (b : Bool) :
    Memory (h.add (.published i j b)) { g with work := Function.update g.work j b } := by
  refine ⟨hm.state, fun _ hj' => hm.work_update hj', hm.completed, fun i' => ?_, hm.during⟩
  have hle := (hm.started i).trans (Nat.le_succ _)
  exact le_update_iff.mpr ⟨hle, fun i' _ => hm.started i'⟩ i'

/-- Work that is published now is past what its producer has begun to notify for. -/
theorem Past.publish {f : ι → ℕ} {j : J} (hp : Past f (h.tickets j) (g.work j)) (hf : ∀ i, f i ≤ h.published i)
    (i : ι) (j' : J) (b : Bool) : Past f ((h.add (.published i j' b)).tickets j) (Function.update g.work j' b j) := by
  show Past f (Function.update h.tickets j' (if b then h.tickets j' ++ [(i, h.published i)] else []) j) _
  by_cases hj : j = j'
  · subst hj
    rw [Function.update_self, Function.update_self]
    cases b with
    | false =>
        refine ⟨fun hb => ?_, fun x hx => ?_⟩
        · cases hb
        · cases hx
    | true =>
        refine ⟨fun _ => List.append_ne_nil_of_right_ne_nil _ (List.cons_ne_nil _ _), fun x hx => ?_⟩
        rcases List.mem_append.mp hx with hx | hx
        · exact hp.2 x hx
        · rw [List.mem_singleton.mp hx]
          exact hf i
  · rw [Function.update_of_ne hj, Function.update_of_ne hj]
    exact hp

/-- **A step of a producer** keeps the invariant and leads where the producer may be. -/
theorem Memory.produces (hm : Memory h g) (hp : ProducerAt i g p) (hs : Produces i p g p' g' e) :
    Memory (h.add e) g' ∧ ProducerAt i g' p' := by
  cases hs with
  | publish j b => exact ⟨hm.publish i j b, trivial⟩
  | bump => exact ⟨hm.begin i, trivial⟩
  | pass =>
      refine ⟨(hm.begin i).complete i ?_, trivial⟩
      show h.published i ≤ Function.update h.started i (h.published i) i
      rw [Function.update_self]
  | acquire => exact ⟨{ hm with }, rfl⟩
  | notifyAll => exact ⟨{ hm with }, hp, rfl⟩
  | release => exact ⟨{ hm.complete i (le_refl _) with }, trivial⟩

omit [DecidableEq ι] in
/-- A step of a producer does not disturb another. -/
theorem ProducerAt.produces (ho : ProducerAt j g o) (hp : ProducerAt i g p) (hji : j ≠ i)
    (hs : Produces i p g p' g' e) : ProducerAt j g' o := by
  have hmu : g.mu = some (some j) → g'.mu = some (some j) := by
    intro hj
    cases hs with
    | acquire _ hnone =>
        rw [hnone] at hj
        cases hj
    | release =>
        have hi : g.mu = some (some i) := hp.1
        rw [hi] at hj
        exact absurd (Option.some.inj (Option.some.inj hj)).symm hji
    | publish | bump | pass | notifyAll => exact hj
  have hparked : g.parked = false → g'.parked = false := by
    intro hj
    cases hs with
    | notifyAll => rfl
    | publish | bump | pass | acquire | release => exact hj
  cases o with
  | idle => trivial
  | lock => trivial
  | wake => exact hmu ho
  | unlock => exact ⟨hmu ho.1, hparked ho.2⟩

omit [DecidableEq J] [DecidableEq ι] in
/-- What the consumer relies on while it waits: that it is registered and the epochs that have passed are
    counted, the mutex it holds, and how the work and the notifies for it go on. -/
theorem ConsumerAt.mono (hq : ConsumerAt sources h g q) (hreg : h'.registered = h.registered)
    (hepoch : h.registered = true → h'.epochs - h'.during = h.epochs - h.during)
    (hquiet : ∀ js, h.registered = true → Quiet js h g → Quiet js h' g')
    (hawaited : ∀ js, h.registered = true → g.mu = some none ∨ g'.parked = true → Awaited js h g → Awaited js h' g')
    (hmu : g.mu = some none → g'.mu = some none) (hparked : g'.parked = true → g.parked = true) :
    ConsumerAt sources h' g' q := by
  have hregistered : ∀ {epoch}, Registered h epoch → Registered h' epoch := by
    intro epoch hr
    refine ⟨hreg.trans hr.1, ?_⟩
    rw [hepoch hr.1]
    exact hr.2
  cases q with
  | idle => exact hreg.trans hq
  | check epoch rest =>
      obtain ⟨hr, asked, hasked, ha⟩ := hq
      exact ⟨hregistered hr, asked, hasked, hquiet asked hr.1 ha⟩
  | load epoch last =>
      obtain ⟨hr, ha, hown⟩ := hq
      exact ⟨hregistered hr, hquiet _ hr.1 ha, hmu hown⟩
  | recheck epoch last rest =>
      obtain ⟨hr, ha, hown, hb⟩ := hq
      exact ⟨hregistered hr, hquiet _ hr.1 ha, hmu hown, hawaited _ hr.1 (.inl hown) hb⟩
  | parked epoch =>
      obtain ⟨hr, ha, hb⟩ := hq
      exact ⟨hregistered hr, hquiet _ hr.1 ha, fun hp => hawaited _ hr.1 (.inr hp) (hb (hparked hp))⟩
  | relock epoch last => exact ⟨hregistered hq.1, hquiet _ hq.1.1 hq.2⟩
  | unlock => exact ⟨hreg.trans hq.1, hmu hq.2⟩
  | leave => exact hreg.trans hq

/-- **A step of a producer does not disturb the consumer**: what it publishes has not been notified for, a
    notify that begins ends the quiet part of the wait, and one that completes has woken the consumer. -/
theorem ConsumerAt.produces (hq : ConsumerAt sources h g q) (hm : Memory h g) (hp : ProducerAt i g p)
    (hs : Produces i p g p' g' e) : ConsumerAt sources (h.add e) g' q := by
  have hbegin : h.registered = true → (h.begin i).epochs - (h.begin i).during = h.epochs - h.during ∧
      (h.begin i).during ≠ 0 := by
    intro hr
    show h.epochs + 1 - (if h.registered then h.during + 1 else h.during) = _ ∧
      (if h.registered then h.during + 1 else h.during) ≠ 0
    rw [if_pos hr]
    exact ⟨Nat.add_sub_add_right _ _ _, Nat.succ_ne_zero _⟩
  cases hs with
  | publish j b =>
      refine hq.mono rfl (fun _ => rfl) (fun js _ ha hd j' hj' => ?_) (fun js _ _ hb j' hj' => ?_) id id
      · exact (ha hd j' hj').publish hm.started i j b
      · exact (hb j' hj').publish (fun i => (hm.completed i).trans (hm.started i)) i j b
  | bump =>
      exact hq.mono rfl (fun hr => (hbegin hr).1) (fun js hr _ hd => absurd hd (hbegin hr).2)
        (fun js _ _ hb j hj => hb j hj) id id
  | pass _ hzero =>
      have hnot := hm.no_waiter hzero
      have habsurd : h.registered ≠ true := by
        rw [hnot]
        exact Bool.false_ne_true
      exact hq.mono rfl (fun hr => absurd hr habsurd) (fun _ hr => absurd hr habsurd)
        (fun _ hr => absurd hr habsurd) id id
  | acquire _ hnone =>
      refine hq.mono rfl (fun _ => rfl) (fun _ _ ha => ha) (fun _ _ _ hb => hb) (fun hown => ?_) id
      rw [hnone] at hown
      cases hown
  | notifyAll => exact hq.mono rfl (fun _ => rfl) (fun _ _ ha => ha) (fun _ _ _ hb => hb) id (fun hp => by cases hp)
  | release =>
      obtain ⟨hown, hparked⟩ : g.mu = some (some i) ∧ g.parked = false := hp
      have hnot : g.mu ≠ some none := by
        rw [hown]
        exact fun hc => by cases hc
      refine hq.mono rfl (fun _ => rfl) (fun _ _ ha => ha) (fun _ _ hwait => ?_) (fun hc => absurd hc hnot) id
      rcases hwait with hc | hc
      · exact absurd hc hnot
      · exact absurd hc (by rw [hparked]; exact Bool.false_ne_true)

/-! ### The steps of the consumer -/

omit [DecidableEq J] [DecidableEq ι] in
/-- A source without work has no publications since which it has had some. -/
theorem Memory.past_of_no_work {j : J} (hm : Memory h g) (hj : g.work j = false) (f : ι → ℕ) :
    Past f (h.tickets j) (g.work j) := by
  refine ⟨fun hw => ?_, fun x hx => ?_⟩
  · rw [hj] at hw
    cases hw
  · have hw := hm.work j (List.ne_nil_of_mem hx)
    rw [hj] at hw
    cases hw

omit [DecidableEq J] [DecidableEq ι] in
/-- **The test of the epoch**: the epoch has not moved only if no notify has begun in this wait. -/
theorem Memory.during_eq_zero (hm : Memory h g) (hfew : h.during < 2 ^ 32) {epoch : BitVec 64}
    (hr : Registered h epoch) (hsame : g.state >>> kEpochShift = epoch) : h.during = 0 := by
  obtain ⟨hreg, rfl⟩ := hr
  rw [hm.state, hreg, if_pos rfl] at hsame
  have hepochs : h.epochs - h.during + h.during = h.epochs := Nat.sub_add_cancel hm.during
  rw [← hepochs, Nat.add_sub_cancel] at hsame
  exact (packed_high_eq_iff (by decide) _ (by decide) (by decide) hfew).mp hsame

/-- **A step of the consumer** keeps the invariant and leads where the consumer may be. -/
theorem Memory.consumes (hm : Memory h g) (hfew : h.during < 2 ^ 32) (hq : ConsumerAt sources h g q)
    (hs : Consumes sources q g q' g' e) : Memory (h.add e) g' ∧ ConsumerAt sources (h.add e) g' q' := by
  cases hs with
  | drain j b =>
      exact ⟨{ hm with work := fun _ hj' => hm.work_update hj' }, hq⟩
  | register =>
      have hstate : g.state = packed 64 kEpochShift h.epochs 0 := by
        rw [hm.state, show h.registered = false from hq]
        rfl
      refine ⟨⟨?_, hm.work, hm.completed, hm.started, Nat.zero_le _⟩, ⟨rfl, ?_⟩, [], rfl, fun _ j hj => ?_⟩
      · show g.state + 1 = packed 64 kEpochShift h.epochs 1
        rw [hstate]
        exact packed_add_low _ _ _
      · rw [hstate]
        rfl
      · cases hj
  | found epoch j rest => exact ⟨hm, hq.1.1⟩
  | nothing epoch j rest _ hj =>
      obtain ⟨hr, asked, hasked, ha⟩ := hq
      refine ⟨hm, hr, asked ++ [j], ?_, fun hd j' hj' => ?_⟩
      · rw [hasked, List.append_assoc]
        rfl
      · rcases List.mem_append.mp hj' with hj' | hj'
        · exact ha hd j' hj'
        · rw [List.mem_singleton.mp hj']
          exact hm.past_of_no_work hj _
  | acquire epoch =>
      obtain ⟨hr, asked, hasked, ha⟩ := hq
      rw [List.append_nil] at hasked
      subst hasked
      exact ⟨{ hm with }, hr, ha, rfl⟩
  | moved epoch last => exact ⟨hm, hq.1.1, hq.2.2⟩
  | same epoch last _ hsame =>
      obtain ⟨hr, ha, hown⟩ := hq
      have hquiet := ha (hm.during_eq_zero hfew hr hsame)
      refine ⟨hm, hr, ha, hown, fun j hj => ⟨(hquiet j hj).1, fun x hx => ?_⟩⟩
      exact (hm.completed x.1).trans ((hquiet j hj).2 x hx)
  | foundLate epoch last j rest => exact ⟨hm, hq.1.1, hq.2.2.1⟩
  | nothingLate epoch last j rest => exact ⟨hm, hq⟩
  | late epoch => exact ⟨{ hm with }, hq.1.1⟩
  | park epoch =>
      obtain ⟨hr, ha, -, hb⟩ := hq
      exact ⟨{ hm with }, hr, ha, fun _ => hb⟩
  | notified epoch => exact ⟨hm, hq.1, hq.2.1⟩
  | woken epoch last => exact ⟨{ hm with }, hq.1, hq.2.1⟩
  | reacquire epoch last => exact ⟨{ hm with }, hq.1, hq.2, rfl⟩
  | release => exact ⟨{ hm with }, hq.1⟩
  | leave =>
      refine ⟨⟨?_, hm.work, hm.completed, hm.started, hm.during⟩, rfl⟩
      show g.state - 1 = packed 64 kEpochShift h.epochs 0
      rw [hm.state, show h.registered = true from hq]
      exact packed_sub_low _ _ _

omit [DecidableEq ι] in
/-- A step of the consumer does not disturb a producer. -/
theorem ProducerAt.consumes (hp : ProducerAt i g p) (hq : ConsumerAt sources h g q)
    (hs : Consumes sources q g q' g' e) : ProducerAt i g' p := by
  have hheld : g.mu = some (some i) → g'.mu = some (some i) ∧ (g.parked = false → g'.parked = false) := by
    intro hi
    -- the consumer takes a free mutex only, and gives back and parks only with its own
    have hother : ∀ {P : Prop}, g.mu = some none → P := by
      intro P hown
      rw [hi] at hown
      cases hown
    have hfree : ∀ {P : Prop}, g.mu = none → P := by
      intro P hnone
      rw [hi] at hnone
      cases hnone
    cases hs with
    | acquire _ _ hnone => exact hfree hnone
    | reacquire _ _ _ hnone => exact hfree hnone
    | late => exact hother hq.2.2.1
    | park => exact hother hq.2.2.1
    | release => exact hother hq.2
    | woken => exact ⟨hi, fun _ => rfl⟩
    | drain | register | found | nothing | moved | same | foundLate | nothingLate | notified | leave => exact ⟨hi, id⟩
  cases p with
  | idle => trivial
  | lock => trivial
  | wake => exact (hheld hp).1
  | unlock => exact ⟨(hheld hp.1).1, (hheld hp.1).2 hp.2⟩

end Steps

/-! ## 5. Every run -/

section Run

variable [DecidableEq ι] {sources : List J} {τ : List (Event ι J)}
  {w : Threads.World (WakeGate ι J) (Pc J : Option ι → Type)}

theorem gate_valid (sources : List J) (work : J → Bool) :
    (outline sources).ValidWithin FewNotifies (gate ι sources) (start ι work) := by
  refine ⟨⟨?_, fun t => ?_⟩, FewNotifies.of_snoc, ?_, ?_⟩
  · exact ⟨(packed_zero _ _).symm, fun j hj => absurd rfl hj, fun _ => le_refl _, fun _ => le_refl _, le_refl _⟩
  · cases t with
    | some i => trivial
    | none => rfl
  · intro τ w t a l m e hw hb hmove
    have hm : Memory (history τ) w.mem := hw.memory
    cases t with
    | some i =>
        show Memory (history (τ ++ [e])) m ∧ ProducerAt i m l
        rw [history_snoc]
        exact hm.produces (hw.thread (some i)) (produces hmove)
    | none =>
        show Memory (history (τ ++ [e])) m ∧ ConsumerAt sources (history (τ ++ [e])) m l
        rw [history_snoc]
        exact hm.consumes (hb τ (List.prefix_append _ _)) (hw.thread none) (consumes hmove)
  · intro τ w t u a l m e hw _ hmove hut
    have hm : Memory (history τ) w.mem := hw.memory
    cases u with
    | some j =>
        have hj : ProducerAt j w.mem (w.pc (some j)) := hw.thread (some j)
        cases t with
        | some i => exact hj.produces (hw.thread (some i)) (fun hji => hut (congrArg some hji)) (produces hmove)
        | none =>
            have hq : ConsumerAt sources (history τ) w.mem (w.pc none) := hw.thread none
            exact hj.consumes hq (consumes hmove)
    | none =>
        show ConsumerAt sources (history (τ ++ [e])) m (w.pc none)
        rw [history_snoc]
        have hq : ConsumerAt sources (history τ) w.mem (w.pc none) := hw.thread none
        cases t with
        | some i => exact hq.produces hm (hw.thread (some i)) (produces hmove)
        | none => exact absurd rfl hut

/-- **No wakeup is lost**, in every interleaving of any number of producers and one consumer, for any sources
    of work, if in every wait the epoch moves fewer than `2 ^ 32` times: while the consumer is blocked, a
    source that has work has it since a publication whose notify is not complete, and the same goes for every
    later publication to it. -/
theorem no_lost_wakeup {work : J → Bool} (hr : (gate ι sources).Run (start ι work) τ w) (hfew : FewNotifies τ)
    (hblocked : Blocked w) : ∀ j ∈ sources, w.mem.work j = true →
      (history τ).tickets j ≠ [] ∧ ∀ x ∈ (history τ).tickets j, (history τ).completed x.1 ≤ x.2 := by
  obtain ⟨⟨epoch, hpc⟩, hparked⟩ := hblocked
  have hw := (gate_valid sources work).holds hr hfew
  have hq : ConsumerAt sources (history τ) w.mem (w.pc none) := hw.thread none
  rw [hpc] at hq
  intro j hj hwork
  obtain ⟨hsome, hpast⟩ := hq.2.2 hparked j hj
  exact ⟨hsome hwork, hpast⟩

end Run

/-- The consumer finds nothing and parks, a producer publishes, and moves the epoch. -/
def parkedEarly : List (Σ t : Option Unit, Call Bool t) :=
  [⟨none, ConsumerCall.waitUntil⟩, ⟨none, ConsumerCall.resume⟩, ⟨none, ConsumerCall.resume⟩,
   ⟨none, ConsumerCall.resume⟩, ⟨none, ConsumerCall.resume⟩, ⟨none, ConsumerCall.resume⟩,
   ⟨none, ConsumerCall.resume⟩, ⟨none, ConsumerCall.resume⟩, ⟨some (), ProducerCall.publish false true⟩,
   ⟨some (), ProducerCall.notify⟩]

theorem no_lost_wakeup_early : ∃ τ w, (gate Unit [false, true]).Run (start Unit fun _ => false) τ w ∧
    Blocked w ∧ w.mem.work false = true ∧ (history τ).tickets false = [((), 0)] ∧
    (history τ).completed () ≤ 0 := by
  have hplay : ∃ w, (gate Unit [false, true]).play (start Unit fun _ => false) parkedEarly =
      some ([.registered, .silent, .silent, .silent, .silent, .silent, .silent, .silent, .published () false true,
        .bumped ()], w) ∧ Blocked w ∧ w.mem.work false = true := ⟨_, rfl, ⟨⟨_, rfl⟩, rfl⟩, rfl⟩
  obtain ⟨w, hplay, hblocked, hwork⟩ := hplay
  have hrun := Threads.run_play hplay
  refine ⟨_, w, hrun, hblocked, hwork, rfl, ?_⟩
  have hlost := no_lost_wakeup hrun (fewNotifies_of_length (by decide)) hblocked
  exact (hlost false List.mem_cons_self hwork).2 ((), 0) List.mem_cons_self

end WakeGate

end Rsm.Runtime
