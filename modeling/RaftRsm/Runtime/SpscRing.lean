/-
  File:      RaftRsm/Runtime/SpscRing.lean
  Subject:   The single-producer single-consumer ring (`runtime/spsc_ring.h`), step by step.

  Each load and store of an index and each access to a slot is one step; what a thread does in between
  with its own variables goes with the step before it. `cachedHead` is only touched by the producer and
  `cachedTail` only by the consumer. A call that returns leaves an event in the step it returns from, and
  so does the read of a slot.

  `tryPush` is `tryProduce` with a fill that does not look at the slot, and `tryPop` is `tryConsume` with
  a use that leaves in the slot what a move leaves there.

  * `produce`, `consume`, `spsc` -- the two threads;
  * `Produces`, `Consumes` -- what one step of each can do;
  * `spscOutline` -- the invariant: each cache is an old value of the other side's index that is not too old;
  * **`spsc_bounded_fifo`** -- in every run the ring is a bounded queue.
-/
import RaftRsm.Process.Threads
import RaftRsm.Words.Counter
import Mathlib.Data.List.Infix

namespace Rsm.Runtime

open Process Words

/-! ## 1. The source -/

/-- What a caller of a ring, and the slots, let be seen. -/
inductive RingEvent (T : Type) where
  | silent
  /-- A call of the producer has returned true: it has handed over `v`. -/
  | produced (v : T)
  /-- A call of the producer has returned false. -/
  | full
  /-- The consumer has read `v` out of its slot. -/
  | received (v : T)
  /-- A call of the consumer has returned true. -/
  | released
  /-- A call of the consumer has returned false. -/
  | empty
  /-- `consumerHasWork` has returned. -/
  | hasWork (b : Bool)
  deriving DecidableEq, Repr

structure SpscRing (T : Type) where
  mask : BitVec 64
  slots : ℕ → T
  tail : BitVec 64 := 0
  cachedHead : BitVec 64 := 0
  head : BitVec 64 := 0
  cachedTail : BitVec 64 := 0

/-- Where the producer is: before a load of `tail_`, before one of `head_` as the ring looks full, before
    the write of the slot, or before the store of `tail_`. -/
inductive Producer (T : Type) where
  | idle
  | tail (fill : T → T)
  | head (fill : T → T) (tail : BitVec 64)
  | slot (fill : T → T) (tail : BitVec 64)
  | publish (v : T) (tail : BitVec 64)

/-- Where the consumer is: before a load of `head_`, before one of `tail_` as the ring looks empty, before
    the read of the slot, before the store of `head_`; or at the loads of `consumerHasWork`. -/
inductive Consumer (T : Type) where
  | idle
  | head (use : T → T)
  | tail (use : T → T) (head : BitVec 64)
  | slot (use : T → T) (head : BitVec 64)
  | retire (head : BitVec 64)
  | workHead
  | workTail (head : BitVec 64)

/-- A call begins, or the one that has begun goes on. -/
inductive ProducerCall (T : Type) where
  | tryPush (v : T)
  | tryProduce (fill : T → T)
  | resume

/-- A call begins, or the one that has begun goes on. `moved` is what a move leaves of a value. -/
inductive ConsumerCall (T : Type) where
  | tryPop (moved : T → T)
  | tryConsume (use : T → T)
  | consumerHasWork
  | resume

variable {T : Type}

namespace SpscRing

/-- The constructor, with its slots as they are after `initSlots`; `bitCeil` is `std::bit_ceil`. -/
def make (minCapacity : ℕ) (slots : ℕ → T) : SpscRing T :=
  { mask := count 64 (bitCeil (if minCapacity < 2 then 2 else minCapacity) - 1), slots }

def capacity (r : SpscRing T) : ℕ := r.mask.toNat + 1

/-- The slot of an index. -/
def slotOf (r : SpscRing T) (index : BitVec 64) : ℕ := (index &&& r.mask).toNat

/-- One step of `tryPush` and `tryProduce`. -/
def produce : ProducerCall T → Producer T → SpscRing T →
    Option (Producer T × SpscRing T × RingEvent T)
  | .tryPush v, .idle, r => some (.tail fun _ => v, r, .silent)
  | .tryProduce fill, .idle, r => some (.tail fill, r, .silent)
  | .resume, .tail fill, r =>
      if r.tail - r.cachedHead > r.mask then some (.head fill r.tail, r, .silent)
      else some (.slot fill r.tail, r, .silent)
  | .resume, .head fill tail, r =>
      let r := { r with cachedHead := r.head }
      if tail - r.cachedHead > r.mask then some (.idle, r, .full)
      else some (.slot fill tail, r, .silent)
  | .resume, .slot fill tail, r =>
      let v := fill (r.slots (r.slotOf tail))
      some (.publish v tail, { r with slots := Function.update r.slots (r.slotOf tail) v }, .silent)
  | .resume, .publish v tail, r => some (.idle, { r with tail := tail + 1 }, .produced v)
  | _, _, _ => none

/-- One step of `tryPop`, `tryConsume` and `consumerHasWork`. -/
def consume : ConsumerCall T → Consumer T → SpscRing T →
    Option (Consumer T × SpscRing T × RingEvent T)
  | .tryPop moved, .idle, r => some (.head moved, r, .silent)
  | .tryConsume use, .idle, r => some (.head use, r, .silent)
  | .consumerHasWork, .idle, r => some (.workHead, r, .silent)
  | .resume, .head use, r =>
      if r.head = r.cachedTail then some (.tail use r.head, r, .silent)
      else some (.slot use r.head, r, .silent)
  | .resume, .tail use head, r =>
      let r := { r with cachedTail := r.tail }
      if head = r.cachedTail then some (.idle, r, .empty)
      else some (.slot use head, r, .silent)
  | .resume, .slot use head, r =>
      let v := r.slots (r.slotOf head)
      some (.retire head, { r with slots := Function.update r.slots (r.slotOf head) (use v) }, .received v)
  | .resume, .retire head, r => some (.idle, { r with head := head + 1 }, .released)
  | .resume, .workHead, r =>
      if r.head ≠ r.cachedTail then some (.idle, r, .hasWork true)
      else some (.workTail r.head, r, .silent)
  | .resume, .workTail head, r =>
      let r := { r with cachedTail := r.tail }
      some (.idle, r, .hasWork (head ≠ r.cachedTail))
  | _, _, _ => none

end SpscRing

/-- The two sides of the ring. -/
inductive Side where
  | producer
  | consumer
  deriving DecidableEq, Repr

abbrev SpscCall (T : Type) : Side → Type
  | .producer => ProducerCall T
  | .consumer => ConsumerCall T

abbrev SpscPc (T : Type) : Side → Type
  | .producer => Producer T
  | .consumer => Consumer T

/-- **The two threads.** -/
def spsc (T : Type) : Threads Side (SpscRing T) (RingEvent T) (SpscCall T) (SpscPc T) where
  move
    | .producer => SpscRing.produce
    | .consumer => SpscRing.consume

/-- A ring that has just been built, both sides idle. -/
def spscStart (minCapacity : ℕ) (slots : ℕ → T) : Threads.World (SpscRing T) (SpscPc T) where
  mem := SpscRing.make minCapacity slots
  pc
    | .producer => Producer.idle
    | .consumer => Consumer.idle

/-! ## 2. What one step can do -/

/-- One step of the producer. -/
inductive Produces : Producer T → SpscRing T → Producer T → SpscRing T → RingEvent T → Prop where
  | call (fill : T → T) (r : SpscRing T) : Produces .idle r (.tail fill) r .silent
  | looksFull (fill : T → T) (r : SpscRing T) (h : r.tail - r.cachedHead > r.mask) :
      Produces (.tail fill) r (.head fill r.tail) r .silent
  | room (fill : T → T) (r : SpscRing T) (h : ¬ r.tail - r.cachedHead > r.mask) :
      Produces (.tail fill) r (.slot fill r.tail) r .silent
  | refused (fill : T → T) (tail : BitVec 64) (r : SpscRing T) (h : tail - r.head > r.mask) :
      Produces (.head fill tail) r .idle { r with cachedHead := r.head } .full
  | refreshed (fill : T → T) (tail : BitVec 64) (r : SpscRing T) (h : ¬ tail - r.head > r.mask) :
      Produces (.head fill tail) r (.slot fill tail) { r with cachedHead := r.head } .silent
  | write (fill : T → T) (tail : BitVec 64) (r : SpscRing T) :
      Produces (.slot fill tail) r (.publish (fill (r.slots (r.slotOf tail))) tail)
        { r with slots := Function.update r.slots (r.slotOf tail) (fill (r.slots (r.slotOf tail))) } .silent
  | publish (v : T) (tail : BitVec 64) (r : SpscRing T) :
      Produces (.publish v tail) r .idle { r with tail := tail + 1 } (.produced v)

theorem produces {c : ProducerCall T} {p p' : Producer T} {r r' : SpscRing T} {e : RingEvent T}
    (h : SpscRing.produce c p r = some (p', r', e)) : Produces p r p' r' e := by
  unfold SpscRing.produce at h
  split at h
  · cases h
    exact .call _ _
  · cases h
    exact .call _ _
  · split_ifs at h with hc
    · cases h
      exact .looksFull _ _ hc
    · cases h
      exact .room _ _ hc
  · dsimp only at h
    split_ifs at h with hc
    · cases h
      exact .refused _ _ _ hc
    · cases h
      exact .refreshed _ _ _ hc
  · cases h
    exact .write _ _ _
  · cases h
    exact .publish _ _ _
  · cases h

/-- One step of the consumer. -/
inductive Consumes : Consumer T → SpscRing T → Consumer T → SpscRing T → RingEvent T → Prop where
  | call (use : T → T) (r : SpscRing T) : Consumes .idle r (.head use) r .silent
  | ask (r : SpscRing T) : Consumes .idle r .workHead r .silent
  | looksEmpty (use : T → T) (r : SpscRing T) (h : r.head = r.cachedTail) :
      Consumes (.head use) r (.tail use r.head) r .silent
  | more (use : T → T) (r : SpscRing T) (h : r.head ≠ r.cachedTail) :
      Consumes (.head use) r (.slot use r.head) r .silent
  | refused (use : T → T) (head : BitVec 64) (r : SpscRing T) (h : head = r.tail) :
      Consumes (.tail use head) r .idle { r with cachedTail := r.tail } .empty
  | refreshed (use : T → T) (head : BitVec 64) (r : SpscRing T) (h : head ≠ r.tail) :
      Consumes (.tail use head) r (.slot use head) { r with cachedTail := r.tail } .silent
  | read (use : T → T) (head : BitVec 64) (r : SpscRing T) :
      Consumes (.slot use head) r (.retire head)
        { r with slots := Function.update r.slots (r.slotOf head) (use (r.slots (r.slotOf head))) }
        (.received (r.slots (r.slotOf head)))
  | retire (head : BitVec 64) (r : SpscRing T) :
      Consumes (.retire head) r .idle { r with head := head + 1 } .released
  | work (r : SpscRing T) (h : r.head ≠ r.cachedTail) : Consumes .workHead r .idle r (.hasWork true)
  | workLooksEmpty (r : SpscRing T) (h : r.head = r.cachedTail) :
      Consumes .workHead r (.workTail r.head) r .silent
  | workAnswer (head : BitVec 64) (r : SpscRing T) :
      Consumes (.workTail head) r .idle { r with cachedTail := r.tail } (.hasWork (head ≠ r.tail))

theorem consumes {c : ConsumerCall T} {p p' : Consumer T} {r r' : SpscRing T} {e : RingEvent T}
    (h : SpscRing.consume c p r = some (p', r', e)) : Consumes p r p' r' e := by
  unfold SpscRing.consume at h
  split at h
  · cases h
    exact .call _ _
  · cases h
    exact .call _ _
  · cases h
    exact .ask _
  · split_ifs at h with hc
    · cases h
      exact .looksEmpty _ _ hc
    · cases h
      exact .more _ _ hc
  · dsimp only at h
    split_ifs at h with hc
    · cases h
      exact .refused _ _ _ hc
    · cases h
      exact .refreshed _ _ _ hc
  · cases h
    exact .read _ _ _
  · cases h
    exact .retire _ _
  · split_ifs at h with hc
    · cases h
      exact .work _ hc
    · cases h
      exact .workLooksEmpty _ (not_not.mp hc)
  · cases h
    exact .workAnswer _ _
  · cases h

/-! ## 3. What a run lets be seen -/

/-- The values that the producer has handed over, in order. -/
def produced (τ : List (RingEvent T)) : List T :=
  τ.filterMap fun | .produced v => some v | _ => none

/-- The values that the consumer has read, in order. -/
def received (τ : List (RingEvent T)) : List T :=
  τ.filterMap fun | .received v => some v | _ => none

/-- How many values have been fully consumed. -/
def released (τ : List (RingEvent T)) : ℕ := τ.countP fun | .released => true | _ => false

section Seen

variable (τ : List (RingEvent T)) (e : RingEvent T)

theorem produced_snoc : produced (τ ++ [e]) = produced τ ++ (match e with | .produced v => [v] | _ => []) := by
  rw [produced, List.filterMap_append, ← produced]
  cases e <;> rfl

theorem received_snoc : received (τ ++ [e]) = received τ ++ (match e with | .received v => [v] | _ => []) := by
  rw [received, List.filterMap_append, ← received]
  cases e <;> rfl

theorem released_snoc : released (τ ++ [e]) = released τ + (match e with | .released => 1 | _ => 0) := by
  rw [released, List.countP_append, ← released]
  cases e <;> rfl

end Seen

/-! ## 4. The outline -/

/-- **The ring after a trace**: the indices count the values handed over and those fully consumed; each
    cache is an old value of the index of the other side, and no older than the ring is long; what has
    been read is what was handed over first, and the rest is in its slots. -/
structure SpscMemory (k : ℕ) (τ : List (RingEvent T)) (r : SpscRing T) : Prop where
  mask : r.mask = count 64 (2 ^ k - 1)
  tail : r.tail = count 64 (produced τ).length
  head : r.head = count 64 (released τ)
  cachedHead : ∃ c ≤ released τ, r.cachedHead = count 64 c ∧ (produced τ).length ≤ c + 2 ^ k
  cachedTail : ∃ t ≤ (produced τ).length, r.cachedTail = count 64 t ∧ released τ ≤ t
  order : received τ <+: produced τ
  reading : released τ ≤ (received τ).length
  kept : ∀ j v, (received τ).length ≤ j → (produced τ)[j]? = some v → r.slots (j % 2 ^ k) = v

/-- Where the producer is, it has the index, and there is room for one more if it has checked. -/
def ProducerAt (k : ℕ) (τ : List (RingEvent T)) (r : SpscRing T) : Producer T → Prop
  | .idle => True
  | .tail _ => True
  | .head _ tail => tail = count 64 (produced τ).length
  | .slot _ tail => tail = count 64 (produced τ).length ∧ ¬ tail - r.cachedHead > r.mask
  | .publish v tail => tail = count 64 (produced τ).length ∧ ¬ tail - r.cachedHead > r.mask ∧
      r.slots ((produced τ).length % 2 ^ k) = v

/-- Where the consumer is, it has the index, and there is a value if it has checked; past the read it has
    one value more than it has given back. -/
def ConsumerAt (τ : List (RingEvent T)) (r : SpscRing T) : Consumer T → Prop
  | .idle => (received τ).length = released τ
  | .head _ => (received τ).length = released τ
  | .tail _ head => (received τ).length = released τ ∧ head = count 64 (released τ)
  | .slot _ head => (received τ).length = released τ ∧ head = count 64 (released τ) ∧ head ≠ r.cachedTail
  | .retire head => (received τ).length = released τ + 1 ∧ head = count 64 (released τ) ∧ head ≠ r.cachedTail
  | .workHead => (received τ).length = released τ
  | .workTail head => (received τ).length = released τ ∧ head = count 64 (released τ)

def spscOutline (k : ℕ) : Outline (SpscRing T) (RingEvent T) (SpscPc T) where
  memory := SpscMemory k
  thread
    | .producer, τ, p, r => ProducerAt k τ r p
    | .consumer, τ, q, r => ConsumerAt τ r q

section Steps

variable {k : ℕ} {τ : List (RingEvent T)} {r r' : SpscRing T} {p p' : Producer T} {q q' : Consumer T}
  {e : RingEvent T}

/-- **The check of the producer**: a counter that is at most a lap ahead is past the mask exactly at a
    lap. -/
theorem gt_mask_iff (hk : k ≤ 63) {c n : ℕ} (hc : c ≤ n) (hn : n ≤ c + 2 ^ k) :
    count 64 n - count 64 c > count 64 (2 ^ k - 1) ↔ n = c + 2 ^ k := by
  have hpos := Nat.two_pow_pos k
  have hle : 2 ^ k ≤ 2 ^ 63 := Nat.pow_le_pow_right Nat.two_pos hk
  rw [gt_iff_lt, BitVec.lt_def, toNat_count_sub hc (by omega), toNat_count (by omega)]
  omega

theorem SpscMemory.slotOf_count (hm : SpscMemory k τ r) (hk : k ≤ 63) (n : ℕ) :
    r.slotOf (count 64 n) = n % 2 ^ k := by
  rw [SpscRing.slotOf, hm.mask]
  exact toNat_count_and_mask (hk.trans (by decide)) n

theorem SpscMemory.released_le (hm : SpscMemory k τ r) : released τ ≤ (produced τ).length :=
  hm.reading.trans hm.order.length_le

theorem SpscMemory.outstanding_le (hm : SpscMemory k τ r) : (produced τ).length ≤ released τ + 2 ^ k := by
  obtain ⟨c, hc, -, hle⟩ := hm.cachedHead
  omega

/-- A producer that has checked has room. -/
theorem SpscMemory.room (hm : SpscMemory k τ r) (hk : k ≤ 63)
    (h : ¬ count 64 (produced τ).length - r.cachedHead > r.mask) :
    ∃ c ≤ released τ, r.cachedHead = count 64 c ∧ (produced τ).length < c + 2 ^ k := by
  obtain ⟨c, hc, he, hle⟩ := hm.cachedHead
  rw [he, hm.mask, gt_mask_iff hk (hc.trans hm.released_le) hle] at h
  exact ⟨c, hc, he, by omega⟩

/-- A consumer that has checked has a value. -/
theorem SpscMemory.more (hm : SpscMemory k τ r) (h : count 64 (released τ) ≠ r.cachedTail) :
    ∃ t ≤ (produced τ).length, r.cachedTail = count 64 t ∧ released τ < t := by
  obtain ⟨t, ht, he, hle⟩ := hm.cachedTail
  refine ⟨t, ht, he, lt_of_le_of_ne hle ?_⟩
  rintro rfl
  exact h he.symm

/-- Nothing of the values is seen by such an event. -/
def RingEvent.Quiet : RingEvent T → Prop
  | .produced _ => False
  | .received _ => False
  | .released => False
  | _ => True

theorem seen_quiet (he : e.Quiet) :
    produced (τ ++ [e]) = produced τ ∧ received (τ ++ [e]) = received τ ∧ released (τ ++ [e]) = released τ := by
  rw [produced_snoc, received_snoc, released_snoc]
  cases e <;> first | exact absurd he id | exact ⟨List.append_nil _, List.append_nil _, rfl⟩

theorem SpscMemory.quiet (hm : SpscMemory k τ r) (he : e.Quiet) : SpscMemory k (τ ++ [e]) r := by
  obtain ⟨h1, h2, h3⟩ := seen_quiet (τ := τ) he
  obtain ⟨mask, tail, head, cachedHead, cachedTail, order, reading, kept⟩ := hm
  refine ⟨mask, ?_, ?_, ?_, ?_, ?_, ?_, ?_⟩
  all_goals
    simp only [h1, h2, h3]
    assumption

theorem ProducerAt.congr {τ' : List (RingEvent T)} (hp : ProducerAt k τ r p) (h : produced τ' = produced τ) :
    ProducerAt k τ' r p := by
  unfold ProducerAt at hp ⊢
  rw [h]
  exact hp

theorem ConsumerAt.congr {τ' : List (RingEvent T)} (hq : ConsumerAt τ r q) (h : received τ' = received τ)
    (h' : released τ' = released τ) : ConsumerAt τ' r q := by
  unfold ConsumerAt at hq ⊢
  rw [h, h']
  exact hq

/-! ### The steps of the producer -/

/-- The write of a slot touches no value that has not been fully consumed. -/
theorem SpscMemory.write (hm : SpscMemory k τ r) (hk : k ≤ 63)
    (hroom : ¬ count 64 (produced τ).length - r.cachedHead > r.mask) (v : T) :
    SpscMemory k τ { r with slots := Function.update r.slots ((produced τ).length % 2 ^ k) v } := by
  obtain ⟨c, hc, -, hlt⟩ := hm.room hk hroom
  refine { hm with kept := fun j u hj hu => ?_ }
  have hjlt : j < (produced τ).length := (List.getElem?_eq_some_iff.mp hu).1
  have hread := hm.reading
  have hne : j % 2 ^ k ≠ (produced τ).length % 2 ^ k := mod_ne hjlt (by omega)
  dsimp only
  rw [Function.update_of_ne hne]
  exact hm.kept j u hj hu

/-- The store of the index hands the value over. -/
theorem SpscMemory.publish (hm : SpscMemory k τ r) (hk : k ≤ 63) {v : T}
    (hroom : ¬ count 64 (produced τ).length - r.cachedHead > r.mask)
    (hv : r.slots ((produced τ).length % 2 ^ k) = v) :
    SpscMemory k (τ ++ [.produced v]) { r with tail := count 64 (produced τ).length + 1 } := by
  have h1 : produced (τ ++ [.produced v]) = produced τ ++ [v] := produced_snoc _ _
  have h2 : received (τ ++ [.produced v]) = received τ := (received_snoc _ _).trans (List.append_nil _)
  have h3 : released (τ ++ [.produced v]) = released τ := released_snoc _ _
  obtain ⟨c, hc, hcache, hlt⟩ := hm.room hk hroom
  obtain ⟨t, ht, htail, hle⟩ := hm.cachedTail
  refine ⟨hm.mask, ?_, ?_, ⟨c, ?_, hcache, ?_⟩, ⟨t, ?_, htail, ?_⟩, ?_, ?_, fun j u hj hu => ?_⟩
  · rw [h1, List.length_append]
    exact count_add _ 1
  · rw [h3]
    exact hm.head
  · rwa [h3]
  · rw [h1, List.length_append, List.length_singleton]
    omega
  · rw [h1, List.length_append]
    omega
  · rwa [h3]
  · rw [h1, h2]
    exact hm.order.trans (List.prefix_append _ _)
  · rw [h2, h3]
    exact hm.reading
  · rw [h2] at hj
    rw [h1] at hu
    rcases Nat.lt_or_ge j (produced τ).length with hlt | hge
    · rw [List.getElem?_append_left hlt] at hu
      exact hm.kept j u hj hu
    · -- the value that has just been handed over
      have hjlen := (List.getElem?_eq_some_iff.mp hu).1
      rw [List.length_append, List.length_singleton] at hjlen
      obtain rfl : j = (produced τ).length := by omega
      rw [List.getElem?_concat_length] at hu
      cases hu
      exact hv

/-- **A step of the producer** keeps the invariant and leads where the producer may be. -/
theorem SpscMemory.produces (hm : SpscMemory k τ r) (hk : k ≤ 63) (hp : ProducerAt k τ r p)
    (hs : Produces p r p' r' e) : SpscMemory k (τ ++ [e]) r' ∧ ProducerAt k (τ ++ [e]) r' p' := by
  have hsilent : (RingEvent.silent : RingEvent T).Quiet := trivial
  cases hs with
  | call fill => exact ⟨hm.quiet hsilent, trivial⟩
  | looksFull fill =>
      refine ⟨hm.quiet hsilent, ProducerAt.congr (τ := τ) ?_ (seen_quiet hsilent).1⟩
      exact hm.tail
  | room fill _ h =>
      refine ⟨hm.quiet hsilent, ProducerAt.congr (τ := τ) ?_ (seen_quiet hsilent).1⟩
      exact ⟨hm.tail, h⟩
  | refused fill tail =>
      refine ⟨SpscMemory.quiet ?_ trivial, trivial⟩
      exact { hm with cachedHead := ⟨_, le_refl _, hm.head, hm.outstanding_le⟩ }
  | refreshed fill tail _ h =>
      refine ⟨SpscMemory.quiet ?_ hsilent, ProducerAt.congr (τ := τ) ?_ (seen_quiet hsilent).1⟩
      · exact { hm with cachedHead := ⟨_, le_refl _, hm.head, hm.outstanding_le⟩ }
      · exact ⟨hp, h⟩
  | write fill tail =>
      obtain ⟨rfl, hroom⟩ := hp
      rw [hm.slotOf_count hk]
      refine ⟨(hm.write hk hroom _).quiet hsilent, ProducerAt.congr (τ := τ) ?_ (seen_quiet hsilent).1⟩
      exact ⟨rfl, hroom, Function.update_self _ _ _⟩
  | publish v tail =>
      obtain ⟨rfl, hroom, hv⟩ := hp
      exact ⟨hm.publish hk hroom hv, trivial⟩

/-- A step of the producer does not disturb the consumer. -/
theorem ConsumerAt.produces (hq : ConsumerAt τ r q) (hs : Produces p r p' r' e) :
    ConsumerAt (τ ++ [e]) r' q := by
  have hsame : received (τ ++ [e]) = received τ ∧ released (τ ++ [e]) = released τ := by
    cases hs with
    | publish v tail => exact ⟨(received_snoc _ _).trans (List.append_nil _), released_snoc _ _⟩
    | call | looksFull | room | refused | refreshed | write => exact (seen_quiet (by trivial)).2
  have hcache : r'.cachedTail = r.cachedTail := by cases hs <;> rfl
  refine ConsumerAt.congr (τ := τ) ?_ hsame.1 hsame.2
  unfold ConsumerAt at hq ⊢
  rw [hcache]
  exact hq

/-! ### The steps of the consumer -/

/-- The read of a slot, and what the use leaves there. -/
theorem SpscMemory.read (hm : SpscMemory k τ r) (hidle : (received τ).length = released τ)
    (hmore : count 64 (released τ) ≠ r.cachedTail) (use : T → T) :
    SpscMemory k (τ ++ [.received (r.slots (released τ % 2 ^ k))])
      { r with slots := Function.update r.slots (released τ % 2 ^ k) (use (r.slots (released τ % 2 ^ k))) } := by
  obtain ⟨t, ht, -, hlt⟩ := hm.more hmore
  have hlen : released τ < (produced τ).length := lt_of_lt_of_le hlt ht
  have hget : (produced τ)[released τ]? = some ((produced τ)[released τ]) := List.getElem?_eq_getElem hlen
  have hslot : r.slots (released τ % 2 ^ k) = (produced τ)[released τ] := hm.kept _ _ hidle.le hget
  generalize hv : r.slots (released τ % 2 ^ k) = v at hslot
  have h1 : produced (τ ++ [.received v]) = produced τ := (produced_snoc _ _).trans (List.append_nil _)
  have h2 : received (τ ++ [.received v]) = received τ ++ [v] := received_snoc _ _
  have h3 : released (τ ++ [.received v]) = released τ := released_snoc _ _
  have hout := hm.outstanding_le
  have hread : received τ = (produced τ).take (released τ) := by
    rw [← hidle]
    exact List.prefix_iff_eq_take.mp hm.order
  refine ⟨hm.mask, ?_, ?_, ?_, ?_, ?_, ?_, fun j u hj hu => ?_⟩
  · rw [h1]
    exact hm.tail
  · rw [h3]
    exact hm.head
  · rw [h1, h3]
    exact hm.cachedHead
  · rw [h1, h3]
    exact hm.cachedTail
  · rw [h1, h2, hread, hslot, List.take_concat_get']
    exact List.take_prefix _ _
  · rw [h2, h3, List.length_append]
    omega
  · rw [h2, List.length_append, List.length_singleton] at hj
    rw [h1] at hu
    have hjlt : j < (produced τ).length := (List.getElem?_eq_some_iff.mp hu).1
    have hne : released τ % 2 ^ k ≠ j % 2 ^ k := mod_ne (by omega) (by omega)
    dsimp only
    rw [Function.update_of_ne hne.symm]
    exact hm.kept j u (by omega) hu

/-- The store of the index gives the slot back. -/
theorem SpscMemory.retire (hm : SpscMemory k τ r) (hreading : (received τ).length = released τ + 1)
    (hmore : count 64 (released τ) ≠ r.cachedTail) :
    SpscMemory k (τ ++ [.released]) { r with head := count 64 (released τ) + 1 } := by
  have h1 : produced (τ ++ [.released]) = produced τ := (produced_snoc _ _).trans (List.append_nil _)
  have h2 : received (τ ++ [.released]) = received τ := (received_snoc _ _).trans (List.append_nil _)
  have h3 : released (τ ++ [.released]) = released τ + 1 := released_snoc _ _
  obtain ⟨c, hc, hcache, hle⟩ := hm.cachedHead
  obtain ⟨t, ht, htail, hlt⟩ := hm.more hmore
  refine ⟨hm.mask, ?_, ?_, ⟨c, ?_, hcache, ?_⟩, ⟨t, ?_, htail, ?_⟩, ?_, ?_, fun j u hj hu => ?_⟩
  · rw [h1]
    exact hm.tail
  · rw [h3]
    exact count_add _ 1
  · omega
  · rwa [h1]
  · rwa [h1]
  · omega
  · rw [h1, h2]
    exact hm.order
  · rw [h2, h3]
    exact hreading.ge
  · rw [h2] at hj
    rw [h1] at hu
    exact hm.kept j u hj hu

/-- **A step of the consumer** keeps the invariant and leads where the consumer may be. -/
theorem SpscMemory.consumes (hm : SpscMemory k τ r) (hk : k ≤ 63) (hq : ConsumerAt τ r q)
    (hs : Consumes q r q' r' e) : SpscMemory k (τ ++ [e]) r' ∧ ConsumerAt (τ ++ [e]) r' q' := by
  have hsilent : (RingEvent.silent : RingEvent T).Quiet := trivial
  have hfresh : SpscMemory k τ { r with cachedTail := r.tail } :=
    { hm with cachedTail := ⟨_, le_refl _, hm.tail, hm.released_le⟩ }
  have hquiet : ∀ {e : RingEvent T} {q' : Consumer T} {r' : SpscRing T}, e.Quiet → SpscMemory k τ r' →
      ConsumerAt τ r' q' → SpscMemory k (τ ++ [e]) r' ∧ ConsumerAt (τ ++ [e]) r' q' := by
    intro e q' r' he hm hq
    exact ⟨hm.quiet he, hq.congr (seen_quiet he).2.1 (seen_quiet he).2.2⟩
  cases hs with
  | call use => exact hquiet hsilent hm hq
  | ask => exact hquiet hsilent hm hq
  | looksEmpty use => exact hquiet hsilent hm ⟨hq, hm.head⟩
  | more use _ h => exact hquiet hsilent hm ⟨hq, hm.head, h⟩
  | refused use head => exact hquiet trivial hfresh hq.1
  | refreshed use head _ h => exact hquiet hsilent hfresh ⟨hq.1, hq.2, h⟩
  | read use head =>
      obtain ⟨hidle, rfl, hmore⟩ := hq
      rw [hm.slotOf_count hk]
      refine ⟨hm.read hidle hmore use, ?_⟩
      have h3 : ∀ v : T, released (τ ++ [.received v]) = released τ := fun v => released_snoc _ _
      refine ⟨?_, ?_, ?_⟩
      · rw [received_snoc, List.length_append, h3, hidle]
        rfl
      · rw [h3]
      · exact hmore
  | retire head =>
      obtain ⟨hreading, rfl, hmore⟩ := hq
      refine ⟨hm.retire hreading hmore, ?_⟩
      show (received (τ ++ [.released])).length = released (τ ++ [.released])
      rw [received_snoc, released_snoc, List.append_nil]
      exact hreading
  | work => exact hquiet trivial hm hq
  | workLooksEmpty => exact hquiet hsilent hm ⟨hq, hm.head⟩
  | workAnswer head => exact hquiet trivial hfresh hq.1

/-- A step of the consumer does not disturb the producer. -/
theorem ProducerAt.consumes (hp : ProducerAt k τ r p) (hm : SpscMemory k τ r) (hk : k ≤ 63)
    (hq : ConsumerAt τ r q) (hs : Consumes q r q' r' e) : ProducerAt k (τ ++ [e]) r' p := by
  have hsame : produced (τ ++ [e]) = produced τ := by
    rw [produced_snoc]
    cases hs <;> exact List.append_nil _
  have hcache : r'.cachedHead = r.cachedHead ∧ r'.mask = r.mask := by cases hs <;> exact ⟨rfl, rfl⟩
  refine ProducerAt.congr (τ := τ) ?_ hsame
  cases p with
  | idle => trivial
  | tail fill => trivial
  | head fill tail => exact hp
  | slot fill tail =>
      unfold ProducerAt at hp ⊢
      rwa [hcache.1, hcache.2]
  | publish v tail =>
      unfold ProducerAt at hp ⊢
      obtain ⟨rfl, hroom, hv⟩ := hp
      rw [hcache.1, hcache.2]
      refine ⟨rfl, hroom, ?_⟩
      -- the only slot the consumer touches is the one it reads
      cases hs with
      | read use head =>
          obtain ⟨hidle, rfl, hmore⟩ := hq
          obtain ⟨c, hc, -, hlt⟩ := hm.room hk hroom
          obtain ⟨t, ht, -, hlt'⟩ := hm.more hmore
          have hne : released τ % 2 ^ k ≠ (produced τ).length % 2 ^ k := mod_ne (by omega) (by omega)
          dsimp only
          rw [hm.slotOf_count hk, Function.update_of_ne hne.symm]
          exact hv
      | _ => exact hv

end Steps

/-! ## 5. Every run -/

theorem spsc_valid {minCapacity k : ℕ} (hk : k ≤ 63)
    (hmask : bitCeil (if minCapacity < 2 then 2 else minCapacity) = 2 ^ k) (slots : ℕ → T) :
    (spscOutline k).Valid (spsc T) (spscStart minCapacity slots) := by
  refine ⟨⟨?_, fun i => ?_⟩, ?_, ?_⟩
  · refine ⟨?_, rfl, rfl, ⟨0, le_refl _, rfl, Nat.zero_le _⟩, ⟨0, le_refl _, rfl, le_refl _⟩, List.prefix_refl _,
      le_refl _, fun j v _ hv => by cases hv⟩
    exact congrArg (fun n => count 64 (n - 1)) hmask
  · cases i with
    | producer => trivial
    | consumer => rfl
  · intro τ w i a l m e hw hmove
    cases i with
    | producer => exact hw.memory.produces hk (hw.thread .producer) (produces hmove)
    | consumer => exact hw.memory.consumes hk (hw.thread .consumer) (consumes hmove)
  · intro τ w i j a l m e hw hmove hj
    cases i with
    | producer =>
        cases j with
        | producer => exact absurd rfl hj
        | consumer => exact (hw.thread .consumer).produces (produces hmove)
    | consumer =>
        cases j with
        | producer =>
            exact (hw.thread .producer).consumes hw.memory hk (hw.thread .consumer) (consumes hmove)
        | consumer => exact absurd rfl hj

section Run

variable {k : ℕ} {τ : List (RingEvent T)} {w w' : Threads.World (SpscRing T) (SpscPc T)}

/-- A produce that fails has seen a full ring when it loaded `head_`. -/
theorem full_of_step (hw : (spscOutline k).Holds τ w) (hk : k ≤ 63) (hs : (spsc T).Step w .full w') :
    (produced τ).length = released τ + 2 ^ k := by
  obtain ⟨i, a, hmove⟩ := hs
  cases i with
  | producer =>
      have hp := hw.thread .producer
      have hm : SpscMemory k τ w.mem := hw.memory
      generalize hpc : w.pc .producer = p at hp
      have hstep := produces hmove
      rw [hpc] at hstep
      cases hstep with
      | refused fill tail _ h =>
          obtain rfl : tail = count 64 (produced τ).length := hp
          rwa [hm.head, hm.mask, gt_mask_iff hk hm.released_le hm.outstanding_le] at h
  | consumer =>
      generalize w.pc .consumer = q at hmove
      cases consumes hmove

/-- Whether the consumer's counter has met the producer's. -/
theorem SpscMemory.head_eq_iff {r : SpscRing T} (hm : SpscMemory k τ r) (hk : k ≤ 63) :
    count 64 (released τ) = count 64 (produced τ).length ↔ released τ = (produced τ).length := by
  have hle : 2 ^ k ≤ 2 ^ 63 := Nat.pow_le_pow_right Nat.two_pos hk
  have hout := hm.outstanding_le
  exact count_eq_iff hm.released_le (by omega)

/-- A consume that fails has seen an empty ring when it loaded `tail_`, and has read everything. -/
theorem empty_of_step (hw : (spscOutline k).Holds τ w) (hk : k ≤ 63) (hs : (spsc T).Step w .empty w') :
    released τ = (produced τ).length ∧ received τ = produced τ := by
  obtain ⟨i, a, hmove⟩ := hs
  cases i with
  | producer =>
      generalize w.pc .producer = p at hmove
      cases produces hmove
  | consumer =>
      have hq := hw.thread .consumer
      have hm : SpscMemory k τ w.mem := hw.memory
      generalize hpc : w.pc .consumer = q at hq
      have hstep := consumes hmove
      rw [hpc] at hstep
      cases hstep with
      | refused use head _ h =>
          obtain ⟨hidle, rfl⟩ := hq
          rw [hm.tail, hm.head_eq_iff hk] at h
          exact ⟨h, hm.order.eq_of_length (hidle.trans h)⟩

/-- `consumerHasWork` tells whether there was a value when it loaded an index. -/
theorem hasWork_of_step (hw : (spscOutline k).Holds τ w) (hk : k ≤ 63) {b : Bool}
    (hs : (spsc T).Step w (.hasWork b) w') : b = true ↔ released τ < (produced τ).length := by
  obtain ⟨i, a, hmove⟩ := hs
  cases i with
  | producer =>
      generalize w.pc .producer = p at hmove
      cases produces hmove
  | consumer =>
      have hq := hw.thread .consumer
      have hm : SpscMemory k τ w.mem := hw.memory
      have hle := hm.released_le
      generalize hpc : w.pc .consumer = q at hq
      have hstep := consumes hmove
      rw [hpc] at hstep
      cases hstep with
      | work _ h =>
          rw [hm.head] at h
          obtain ⟨t, ht, -, hlt⟩ := hm.more h
          exact iff_of_true rfl (lt_of_lt_of_le hlt ht)
      | workAnswer head =>
          obtain ⟨-, rfl⟩ := hq
          rw [decide_eq_true_iff, hm.tail, Ne, hm.head_eq_iff hk]
          omega

end Run

/-- **The ring is a bounded queue**, in every interleaving of one producer and one consumer, of any length
    and for every capacity. What is received is what was handed over, in order, from the first value on; at
    most `capacity` values are outstanding, and those not yet read are in their slots; when the producer
    writes a slot, it is not that of a value that has not been fully consumed; a call of the producer fails
    only if the ring is full when it loads `head_`, and one of the consumer only if it is empty when it
    loads `tail_`, as `consumerHasWork` tells. -/
theorem spsc_bounded_fifo {minCapacity : ℕ} (hcap : minCapacity ≤ 2 ^ 63) (slots : ℕ → T)
    {τ : List (RingEvent T)} {w : Threads.World (SpscRing T) (SpscPc T)}
    (hr : (spsc T).Run (spscStart minCapacity slots) τ w) :
    received τ <+: produced τ ∧
    (produced τ).length ≤ released τ + w.mem.capacity ∧ released τ ≤ (received τ).length ∧
    (∀ j v, (received τ).length ≤ j → (produced τ)[j]? = some v →
      w.mem.slots (w.mem.slotOf (count 64 j)) = v) ∧
    (∀ fill tail, w.pc .producer = Producer.slot fill tail → ∀ j, released τ ≤ j → j < (produced τ).length →
      w.mem.slotOf tail ≠ w.mem.slotOf (count 64 j)) ∧
    (∀ w', (spsc T).Step w .full w' → (produced τ).length = released τ + w.mem.capacity) ∧
    (∀ w', (spsc T).Step w .empty w' → released τ = (produced τ).length ∧ received τ = produced τ) ∧
    (∀ b w', (spsc T).Step w (.hasWork b) w' → (b = true ↔ released τ < (produced τ).length)) := by
  obtain ⟨k, -, hk, hmask⟩ := exists_bitCeil (n := if minCapacity < 2 then 2 else minCapacity) (b := 63)
    (by split_ifs <;> omega) (by split_ifs <;> omega)
  have hw := (spsc_valid hk hmask slots).holds hr
  have hm : SpscMemory k τ w.mem := hw.memory
  have hcapacity : w.mem.capacity = 2 ^ k := by
    rw [SpscRing.capacity, hm.mask]
    exact toNat_mask_succ (hk.trans (by decide))
  rw [hcapacity]
  refine ⟨hm.order, hm.outstanding_le, hm.reading, fun j v hj hv => ?_, fun fill tail hpc j hj hlt => ?_,
    fun w' hs => full_of_step hw hk hs, fun w' hs => empty_of_step hw hk hs,
    fun b w' hs => hasWork_of_step hw hk hs⟩
  · rw [hm.slotOf_count hk]
    exact hm.kept j v hj hv
  · have hp : ProducerAt k τ w.mem (w.pc .producer) := hw.thread .producer
    rw [hpc] at hp
    obtain ⟨rfl, hroom⟩ := hp
    obtain ⟨c, hc, -, hfree⟩ := hm.room hk hroom
    rw [hm.slotOf_count hk, hm.slotOf_count hk]
    exact (mod_ne hlt (by omega)).symm

/-- A ring of two slots: two values are handed over, a third is refused, and the first is read. -/
def fullOfTwo : List (Σ i, SpscCall ℕ i) :=
  [⟨.producer, ProducerCall.tryPush 5⟩, ⟨.producer, ProducerCall.resume⟩, ⟨.producer, ProducerCall.resume⟩,
   ⟨.producer, ProducerCall.resume⟩, ⟨.producer, ProducerCall.tryPush 6⟩, ⟨.producer, ProducerCall.resume⟩,
   ⟨.consumer, ConsumerCall.tryPop id⟩, ⟨.producer, ProducerCall.resume⟩, ⟨.producer, ProducerCall.resume⟩,
   ⟨.producer, ProducerCall.tryPush 7⟩, ⟨.producer, ProducerCall.resume⟩, ⟨.producer, ProducerCall.resume⟩,
   ⟨.consumer, ConsumerCall.resume⟩, ⟨.consumer, ConsumerCall.resume⟩, ⟨.consumer, ConsumerCall.resume⟩]

theorem spsc_bounded_fifo_two : ∃ τ w, (spsc ℕ).Run (spscStart 2 fun _ => 0) τ w ∧
    produced τ = [5, 6] ∧ received τ = [5] ∧ (produced τ).length ≤ released τ + w.mem.capacity := by
  have hplay : ∃ w, (spsc ℕ).play (spscStart 2 fun _ => 0) fullOfTwo =
      some ([.silent, .silent, .silent, .produced 5, .silent, .silent, .silent, .silent, .produced 6, .silent,
        .silent, .full, .silent, .silent, .received 5], w) := ⟨_, rfl⟩
  obtain ⟨w, hplay⟩ := hplay
  have hrun := Threads.run_play hplay
  exact ⟨_, w, hrun, rfl, rfl, (spsc_bounded_fifo (by decide) _ hrun).2.1⟩

end Rsm.Runtime
