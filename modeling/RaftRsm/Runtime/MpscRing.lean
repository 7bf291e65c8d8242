/-
  File:      RaftRsm/Runtime/MpscRing.lean
  Subject:   The multi-producer single-consumer ring (`runtime/mpsc_ring.h`), step by step.

  Each load and store of a sequence number, each load of `enqueuePos_`, each try of the compare-and-swap on
  it and each access to a value is one step; what a thread does in between with its own variables goes
  with the step before it. A try of the swap may fail without a reason, as the weak one does. `dequeuePos_`
  is only touched by the consumer.

  `tryPush` is `tryProduce` with a fill that does not look at the cell, and `tryPop` is `tryConsume` with a
  use that leaves in the cell what a move leaves there.

  * `produce`, `consume`, `mpsc` -- the threads: any number of producers, and one consumer;
  * `Produces`, `Consumes` -- what one step of each can do;
  * `History`, `History.callAt` -- what a trace tells: who has won which position, and which value the call that
    won it has handed over;
  * `outline` -- the invariant: the sequence number of a cell tells whether the one position of the current
    lap that falls on it has been handed over;
  * **`mpsc_claim_order`** -- every position is delivered once, in the order of the claims.
-/
import RaftRsm.Runtime.SpscRing
import Mathlib.Data.List.Count

namespace Rsm.Runtime

open Process Words

/-! ## 1. The source -/

structure MpscRing.Cell (T : Type) where
  seq : BitVec 64
  value : T

structure MpscRing (T : Type) where
  mask : BitVec 64
  cells : ℕ → MpscRing.Cell T
  enqueuePos : BitVec 64 := 0
  dequeuePos : BitVec 64 := 0

namespace MpscRing

/-- What the callers of a ring, the compare-and-swap and the cells let be seen. -/
inductive Event (ι T : Type) where
  | silent
  /-- The producer `i` has won a position. -/
  | claimed (i : ι)
  /-- The call of the producer `i` has returned true: it has handed over `v`. -/
  | published (i : ι) (v : T)
  /-- The call of the producer `i` has returned false. -/
  | full (i : ι)
  /-- The consumer has read `v` out of its cell. -/
  | received (v : T)
  /-- A call of the consumer has returned true. -/
  | released
  /-- A call of the consumer has returned false. -/
  | empty
  /-- `consumerHasWork` has returned. -/
  | hasWork (b : Bool)
  deriving DecidableEq, Repr

/-- Where a producer is: before a load of `enqueuePos_`, before that of the sequence number, before a try of
    the swap, before the write of the value, or before the store of the sequence number. -/
inductive Producer (T : Type) where
  | idle
  | pos (fill : T → T)
  | seq (fill : T → T) (pos : BitVec 64)
  | claim (fill : T → T) (pos : BitVec 64)
  | fill (fill : T → T) (pos : BitVec 64)
  | publish (v : T) (pos : BitVec 64)

/-- Where the consumer is: before the load of the sequence number, before the read of the value, before
    the store of the sequence number; or at the load of `consumerHasWork`. -/
inductive Consumer (T : Type) where
  | idle
  | seq (use : T → T)
  | use (use : T → T)
  | recycle
  | work

/-- A call begins, or the one that has begun goes on; `spurious` is a swap that fails without a reason. -/
inductive ProducerCall (T : Type) where
  | tryPush (v : T)
  | tryProduce (fill : T → T)
  | resume
  | spurious

variable {ι T : Type}

/-- The constructor, with its values as they are after `initSlots`; `bitCeil` is `std::bit_ceil`. -/
def make (minCapacity : ℕ) (values : ℕ → T) : MpscRing T :=
  { mask := count 64 (bitCeil (if minCapacity < 2 then 2 else minCapacity) - 1),
    cells := fun i => ⟨count 64 i, values i⟩ }

def capacity (r : MpscRing T) : ℕ := r.mask.toNat + 1

/-- The cell of a position. -/
def cellOf (r : MpscRing T) (pos : BitVec 64) : ℕ := (pos &&& r.mask).toNat

def setSeq (r : MpscRing T) (c : ℕ) (seq : BitVec 64) : MpscRing T :=
  { r with cells := Function.update r.cells c { r.cells c with seq } }

def setValue (r : MpscRing T) (c : ℕ) (value : T) : MpscRing T :=
  { r with cells := Function.update r.cells c { r.cells c with value } }

theorem value_setSeq (r : MpscRing T) (c c' : ℕ) (seq : BitVec 64) :
    ((r.setSeq c seq).cells c').value = (r.cells c').value := by
  dsimp only [setSeq]
  by_cases hc : c' = c
  · rw [hc, Function.update_self]
  · rw [Function.update_of_ne hc]

theorem seq_setValue (r : MpscRing T) (c c' : ℕ) (value : T) :
    ((r.setValue c value).cells c').seq = (r.cells c').seq := by
  dsimp only [setValue]
  by_cases hc : c' = c
  · rw [hc, Function.update_self]
  · rw [Function.update_of_ne hc]

theorem seq_setSeq_self (r : MpscRing T) (c : ℕ) (seq : BitVec 64) : ((r.setSeq c seq).cells c).seq = seq := by
  dsimp only [setSeq]
  rw [Function.update_self]

theorem seq_setSeq_of_ne (r : MpscRing T) {c c' : ℕ} (hc : c' ≠ c) (seq : BitVec 64) :
    ((r.setSeq c seq).cells c').seq = (r.cells c').seq := by
  dsimp only [setSeq]
  rw [Function.update_of_ne hc]

theorem value_setValue_self (r : MpscRing T) (c : ℕ) (value : T) :
    ((r.setValue c value).cells c).value = value := by
  dsimp only [setValue]
  rw [Function.update_self]

theorem value_setValue_of_ne (r : MpscRing T) {c c' : ℕ} (hc : c' ≠ c) (value : T) :
    ((r.setValue c value).cells c').value = (r.cells c').value := by
  dsimp only [setValue]
  rw [Function.update_of_ne hc]

/-- The difference of the sequence number of its cell to a position, both taken as signed. -/
def dif (r : MpscRing T) (pos : BitVec 64) : ℤ := (r.cells (r.cellOf pos)).seq.toInt - pos.toInt

/-- One step of `tryPush` and `tryProduce`, called by the producer `i`. -/
def produce (i : ι) : ProducerCall T → Producer T → MpscRing T →
    Option (Producer T × MpscRing T × Event ι T)
  | .tryPush v, .idle, r => some (.pos fun _ => v, r, .silent)
  | .tryProduce fill, .idle, r => some (.pos fill, r, .silent)
  | .resume, .pos fill, r => some (.seq fill r.enqueuePos, r, .silent)
  | .resume, .seq fill pos, r =>
      if r.dif pos = 0 then some (.claim fill pos, r, .silent)
      else if r.dif pos < 0 then some (.idle, r, .full i)
      else some (.pos fill, r, .silent)
  | .resume, .claim fill pos, r =>
      if r.enqueuePos = pos then some (.fill fill pos, { r with enqueuePos := pos + 1 }, .claimed i)
      else some (.seq fill r.enqueuePos, r, .silent)
  | .spurious, .claim fill _, r => some (.seq fill r.enqueuePos, r, .silent)
  | .resume, .fill fill pos, r =>
      let v := fill (r.cells (r.cellOf pos)).value
      some (.publish v pos, r.setValue (r.cellOf pos) v, .silent)
  | .resume, .publish v pos, r => some (.idle, r.setSeq (r.cellOf pos) (pos + 1), .published i v)
  | _, _, _ => none

/-- One step of `tryPop`, `tryConsume` and `consumerHasWork`. -/
def consume : ConsumerCall T → Consumer T → MpscRing T →
    Option (Consumer T × MpscRing T × Event ι T)
  | .tryPop moved, .idle, r => some (.seq moved, r, .silent)
  | .tryConsume use, .idle, r => some (.seq use, r, .silent)
  | .consumerHasWork, .idle, r => some (.work, r, .silent)
  | .resume, .seq use, r =>
      if (r.cells (r.cellOf r.dequeuePos)).seq ≠ r.dequeuePos + 1 then some (.idle, r, .empty)
      else some (.use use, r, .silent)
  | .resume, .use use, r =>
      let v := (r.cells (r.cellOf r.dequeuePos)).value
      some (.recycle, r.setValue (r.cellOf r.dequeuePos) (use v), .received v)
  | .resume, .recycle, r =>
      some (.idle, { r.setSeq (r.cellOf r.dequeuePos) (r.dequeuePos + r.mask + 1) with
        dequeuePos := r.dequeuePos + 1 }, .released)
  | .resume, .work, r =>
      some (.idle, r, .hasWork ((r.cells (r.cellOf r.dequeuePos)).seq = r.dequeuePos + 1))
  | _, _, _ => none

/-- The producers are the threads `some i`, and the consumer is `none`. -/
abbrev Call (T : Type) : Option ι → Type
  | some _ => ProducerCall T
  | none => ConsumerCall T

abbrev Pc (T : Type) : Option ι → Type
  | some _ => Producer T
  | none => Consumer T

/-- **The threads.** -/
def mpsc (ι T : Type) : Threads (Option ι) (MpscRing T) (Event ι T) (Call T) (Pc T) where
  move
    | some i => produce i
    | none => consume

/-- A ring that has just been built, everyone idle. -/
def start (ι : Type) {T : Type} (minCapacity : ℕ) (values : ℕ → T) :
    Threads.World (MpscRing T) (Pc T : Option ι → Type) where
  mem := make minCapacity values
  pc
    | some _ => Producer.idle
    | none => Consumer.idle

/-- **The cell that a thread may access**: a producer from its claim to the store that hands over, the
    consumer from its check to the store that gives back. -/
def holds (r : MpscRing T) : (t : Option ι) → Pc T t → Option ℕ
  | some _, .fill _ pos => some (r.cellOf pos)
  | some _, .publish _ pos => some (r.cellOf pos)
  | none, .use _ => some (r.cellOf r.dequeuePos)
  | none, .recycle => some (r.cellOf r.dequeuePos)
  | some _, _ => none
  | none, _ => none

/-! ## 2. What one step can do -/

/-- One step of the producer `i`. -/
inductive Produces (i : ι) : Producer T → MpscRing T → Producer T → MpscRing T → Event ι T → Prop where
  | call (fill : T → T) (r : MpscRing T) : Produces i .idle r (.pos fill) r .silent
  | load (fill : T → T) (r : MpscRing T) : Produces i (.pos fill) r (.seq fill r.enqueuePos) r .silent
  | free (fill : T → T) (pos : BitVec 64) (r : MpscRing T) (h : r.dif pos = 0) :
      Produces i (.seq fill pos) r (.claim fill pos) r .silent
  | refused (fill : T → T) (pos : BitVec 64) (r : MpscRing T) (h : r.dif pos < 0) :
      Produces i (.seq fill pos) r .idle r (.full i)
  | behind (fill : T → T) (pos : BitVec 64) (r : MpscRing T) (h : 0 < r.dif pos) :
      Produces i (.seq fill pos) r (.pos fill) r .silent
  | won (fill : T → T) (pos : BitVec 64) (r : MpscRing T) (h : r.enqueuePos = pos) :
      Produces i (.claim fill pos) r (.fill fill pos) { r with enqueuePos := pos + 1 } (.claimed i)
  | lost (fill : T → T) (pos : BitVec 64) (r : MpscRing T) :
      Produces i (.claim fill pos) r (.seq fill r.enqueuePos) r .silent
  | write (fill : T → T) (pos : BitVec 64) (r : MpscRing T) :
      Produces i (.fill fill pos) r (.publish (fill (r.cells (r.cellOf pos)).value) pos)
        (r.setValue (r.cellOf pos) (fill (r.cells (r.cellOf pos)).value)) .silent
  | publish (v : T) (pos : BitVec 64) (r : MpscRing T) :
      Produces i (.publish v pos) r .idle (r.setSeq (r.cellOf pos) (pos + 1)) (.published i v)

theorem produces {i : ι} {c : ProducerCall T} {p p' : Producer T} {r r' : MpscRing T} {e : Event ι T}
    (h : produce i c p r = some (p', r', e)) : Produces i p r p' r' e := by
  unfold produce at h
  split at h
  · cases h
    exact .call _ _
  · cases h
    exact .call _ _
  · cases h
    exact .load _ _
  · split_ifs at h with hzero hneg
    · cases h
      exact .free _ _ _ hzero
    · cases h
      exact .refused _ _ _ hneg
    · cases h
      exact .behind _ _ _ (lt_of_le_of_ne (not_lt.mp hneg) (Ne.symm hzero))
  · split_ifs at h with hwon
    · cases h
      exact .won _ _ _ hwon
    · cases h
      exact .lost _ _ _
  · cases h
    exact .lost _ _ _
  · cases h
    exact .write _ _ _
  · cases h
    exact .publish _ _ _
  · cases h

/-- One step of the consumer. -/
inductive Consumes : Consumer T → MpscRing T → Consumer T → MpscRing T → Event ι T → Prop where
  | call (use : T → T) (r : MpscRing T) : Consumes .idle r (.seq use) r .silent
  | ask (r : MpscRing T) : Consumes .idle r .work r .silent
  | refused (use : T → T) (r : MpscRing T) (h : (r.cells (r.cellOf r.dequeuePos)).seq ≠ r.dequeuePos + 1) :
      Consumes (.seq use) r .idle r .empty
  | more (use : T → T) (r : MpscRing T) (h : (r.cells (r.cellOf r.dequeuePos)).seq = r.dequeuePos + 1) :
      Consumes (.seq use) r (.use use) r .silent
  | read (use : T → T) (r : MpscRing T) :
      Consumes (.use use) r .recycle
        (r.setValue (r.cellOf r.dequeuePos) (use (r.cells (r.cellOf r.dequeuePos)).value))
        (.received (r.cells (r.cellOf r.dequeuePos)).value)
  | recycle (r : MpscRing T) :
      Consumes .recycle r .idle
        { r.setSeq (r.cellOf r.dequeuePos) (r.dequeuePos + r.mask + 1) with dequeuePos := r.dequeuePos + 1 }
        .released
  | answer (r : MpscRing T) :
      Consumes .work r .idle r (.hasWork ((r.cells (r.cellOf r.dequeuePos)).seq = r.dequeuePos + 1))

theorem consumes {c : ConsumerCall T} {q q' : Consumer T} {r r' : MpscRing T} {e : Event ι T}
    (h : consume c q r = some (q', r', e)) : Consumes q r q' r' e := by
  unfold consume at h
  split at h
  · cases h
    exact .call _ _
  · cases h
    exact .call _ _
  · cases h
    exact .ask _
  · split_ifs at h with hseq
    · cases h
      exact .refused _ _ hseq
    · cases h
      exact .more _ _ (not_not.mp hseq)
  · cases h
    exact .read _ _
  · cases h
    exact .recycle _
  · cases h
    exact .answer _
  · cases h

/-! ## 3. What a run lets be seen -/

/-- **What a trace tells**: the producers in the order of their successful swaps, what the calls of each
    have handed over, what the consumer has read, and how many cells it has given back. -/
structure History (ι T : Type) where
  claims : List ι := []
  handed : ι → List T := fun _ => []
  received : List T := []
  released : ℕ := 0

section History

variable [DecidableEq ι]

def History.add (h : History ι T) : Event ι T → History ι T
  | .claimed i => { h with claims := h.claims ++ [i] }
  | .published i v => { h with handed := Function.update h.handed i (h.handed i ++ [v]) }
  | .received v => { h with received := h.received ++ [v] }
  | .released => { h with released := h.released + 1 }
  | _ => h

def history (τ : List (Event ι T)) : History ι T := τ.foldl History.add {}

theorem history_snoc (τ : List (Event ι T)) (e : Event ι T) : history (τ ++ [e]) = (history τ).add e :=
  List.foldl_concat _ _ _ _

/-- **The value of a position**: what the call that has won it has handed over, if it has returned. A
    producer makes one call after the other, so it is that call of the producer which has as many claims
    before it. -/
def History.callAt (h : History ι T) (n : ℕ) : Option T :=
  h.claims[n]?.bind fun i => (h.handed i)[(h.claims.take n).count i]?

/-- The calls that have won a position or given one back: no more than the calls, or the steps, of a run. -/
def History.operations (h : History ι T) : ℕ := h.claims.length + h.released

/-- What has been read of one producer. -/
def History.receivedOf (h : History ι T) (i : ι) : List T :=
  (h.claims.zip h.received).filterMap fun x => if x.1 = i then some x.2 else none

variable {h : History ι T} {i : ι} {n : ℕ}

theorem History.operations_le_add (e : Event ι T) : h.operations ≤ (h.add e).operations := by
  cases e with
  | claimed i =>
      show _ ≤ (h.claims ++ [i]).length + h.released
      rw [List.length_append, List.length_singleton]
      exact Nat.add_le_add_right (Nat.le_succ _) _
  | released => exact Nat.le_succ _
  | silent | published | full | received | empty | hasWork => exact le_refl _

theorem History.callAt_lt {v : T} (hv : h.callAt n = some v) : n < h.claims.length := by
  obtain ⟨i, hi, -⟩ := Option.bind_eq_some_iff.mp hv
  exact (List.getElem?_eq_some_iff.mp hi).1

theorem count_take_lt {l : List ι} {m : ℕ} (hm : l[m]? = some i) (hlt : m < n) :
    (l.take m).count i < (l.take n).count i := by
  have hsub : (l.take (m + 1)).Sublist (l.take n) := (List.take_prefix_take_left hlt).sublist
  have hcount : (l.take (m + 1)).count i = (l.take m).count i + 1 := by
    rw [List.take_add_one, hm, List.count_append]
    exact congrArg _ List.count_singleton_self
  have hle := hsub.count_le i
  omega

/-- The place of the `m`-th `i` of a list. -/
theorem exists_place {l : List ι} {m : ℕ} (hm : m < l.count i) : ∃ n, l[n]? = some i ∧ (l.take n).count i = m := by
  induction l using List.reverseRecOn with
  | nil => cases hm
  | append_singleton l j ih =>
      by_cases hlt : m < l.count i
      · obtain ⟨n, hn, hcount⟩ := ih hlt
        have hlen : n < l.length := (List.getElem?_eq_some_iff.mp hn).1
        exact ⟨n, by rwa [List.getElem?_append_left hlen], by rwa [List.take_append_of_le_length hlen.le]⟩
      · -- it is the last one
        rw [List.count_append, List.count_singleton] at hm
        by_cases hji : j = i
        · subst hji
          rw [beq_self_eq_true, if_pos rfl] at hm
          refine ⟨l.length, List.getElem?_concat_length, ?_⟩
          rw [List.take_left]
          omega
        · rw [if_neg (by simpa using hji)] at hm
          omega

/-- What has been read of one producer are the first values that it has handed over. -/
theorem History.receivedOf_prefix (horder : ∀ n v, h.received[n]? = some v → h.callAt n = some v) (i : ι) :
    h.receivedOf i <+: h.handed i := by
  have htake : ∀ m ≤ h.received.length,
      ((h.claims.zip h.received).take m).filterMap (fun x => if x.1 = i then some x.2 else none) =
        (h.handed i).take ((h.claims.take m).count i) := by
    intro m hm
    induction m with
    | zero => rfl
    | succ m ih =>
        obtain ⟨v, hv⟩ : ∃ v, h.received[m]? = some v := ⟨_, List.getElem?_eq_getElem hm⟩
        obtain ⟨j, hj, hjv⟩ := Option.bind_eq_some_iff.mp (horder m v hv)
        have hzip : (h.claims.zip h.received)[m]? = some (j, v) :=
          List.getElem?_zip_eq_some.mpr ⟨hj, hv⟩
        rw [List.take_add_one, List.take_add_one, hzip, hj, List.filterMap_append, ih (by omega),
          List.count_append]
        by_cases hji : j = i
        · subst hji
          have hone : (some j).toList.count j = 1 := List.count_singleton_self
          rw [hone, List.take_add_one, hjv]
          exact congrArg _ (List.filterMap_cons_some (if_pos rfl))
        · have hzero : (some j).toList.count i = 0 := List.count_eq_zero.mpr fun hmem =>
            hji (List.mem_singleton.mp hmem).symm
          rw [hzero, Nat.add_zero]
          have hnone : [(j, v)].filterMap (fun x => if x.1 = i then some x.2 else none) = [] :=
            List.filterMap_cons_none (if_neg hji)
          exact (congrArg _ hnone).trans (List.append_nil _)
  have hall : (h.claims.zip h.received).take h.received.length = h.claims.zip h.received := by
    refine List.take_of_length_le ?_
    rw [List.length_zip]
    exact Nat.min_le_right _ _
  rw [History.receivedOf, ← hall, htake _ (le_refl _)]
  exact List.take_prefix _ _

/-- All calls of `i` that have won a position have returned. -/
def Settled (h : History ι T) (i : ι) : Prop := h.claims.count i = (h.handed i).length

/-- The call of `i` that has won the position `n` is the only one that has not returned. -/
structure Pending (h : History ι T) (i : ι) (n : ℕ) : Prop where
  claimed : h.claims[n]? = some i
  before : (h.claims.take n).count i = (h.handed i).length
  all : h.claims.count i = (h.handed i).length + 1

theorem Pending.callAt (hp : Pending h i n) : h.callAt n = none := by
  rw [History.callAt, hp.claimed, Option.bind_some, hp.before]
  exact List.getElem?_eq_none (le_refl _)

theorem Pending.lt (hp : Pending h i n) : n < h.claims.length := (List.getElem?_eq_some_iff.mp hp.claimed).1

theorem Settled.pending (hs : Settled h i) : Pending (h.add (.claimed i)) i h.claims.length := by
  refine ⟨List.getElem?_concat_length, ?_, ?_⟩
  · show ((h.claims ++ [i]).take h.claims.length).count i = _
    rw [List.take_left]
    exact hs
  · show (h.claims ++ [i]).count i = _
    rw [List.count_append, List.count_singleton_self]
    exact congrArg (· + 1) hs

theorem Pending.settled (hp : Pending h i n) (v : T) : Settled (h.add (.published i v)) i := by
  show _ = (Function.update h.handed i _ i).length
  rw [Function.update_self, List.length_append, List.length_singleton]
  exact hp.all

/-- A claim gives no position a value. -/
theorem Settled.callAt_claimed (hs : Settled h i) : (h.add (.claimed i)).callAt = h.callAt := by
  funext m
  rcases Nat.lt_trichotomy m h.claims.length with hlt | rfl | hgt
  · show (h.claims ++ [i])[m]?.bind (fun j => (h.handed j)[((h.claims ++ [i]).take m).count j]?) = _
    rw [List.getElem?_append_left hlt, List.take_append_of_le_length hlt.le]
    rfl
  · rw [hs.pending.callAt, History.callAt, List.getElem?_eq_none (le_refl _), Option.bind_none]
  · have hlen : (h.claims ++ [i]).length ≤ m := by
      rw [List.length_append, List.length_singleton]
      exact hgt
    show (h.claims ++ [i])[m]?.bind _ = _
    rw [List.getElem?_eq_none hlen, History.callAt, List.getElem?_eq_none hgt.le]
    rfl

/-- **A call that returns gives its value to its own position**, and to no other. -/
theorem Pending.callAt_published (hp : Pending h i n) (v : T) :
    (h.add (.published i v)).callAt = Function.update h.callAt n (some v) := by
  funext m
  show h.claims[m]?.bind (fun j => (Function.update h.handed i (h.handed i ++ [v]) j)[(h.claims.take m).count j]?) = _
  by_cases hmn : m = n
  · subst hmn
    rw [Function.update_self, hp.claimed, Option.bind_some, Function.update_self, hp.before,
      List.getElem?_concat_length]
  · rw [Function.update_of_ne hmn, History.callAt]
    cases hj : h.claims[m]? with
    | none => rfl
    | some j =>
        rw [Option.bind_some, Option.bind_some]
        by_cases hji : j = i
        · -- another call of the same producer has returned before
          subst hji
          have hlt : (h.claims.take m).count j < (h.handed j).length := by
            rcases Nat.lt_or_gt_of_ne hmn with hlt | hgt
            · rw [← hp.before]
              exact count_take_lt hj hlt
            · have hafter := count_take_lt hp.claimed hgt
              have hlast := count_take_lt hj (List.getElem?_eq_some_iff.mp hj).1
              rw [List.take_length] at hlast
              have hbefore := hp.before
              have hall := hp.all
              omega
          rw [Function.update_self, List.getElem?_append_left hlt]
        · rw [Function.update_of_ne hji]

/-- The others do not see what `i` does. -/
theorem Settled.other {j : ι} (hs : Settled h j) (hji : j ≠ i) :
    Settled (h.add (.claimed i)) j ∧ ∀ v, Settled (h.add (.published i v)) j := by
  refine ⟨?_, fun v => ?_⟩
  · show (h.claims ++ [i]).count j = _
    rw [List.count_append, List.count_singleton, if_neg (by simpa using hji.symm)]
    exact hs
  · show _ = (Function.update h.handed i _ j).length
    rw [Function.update_of_ne hji]
    exact hs

theorem Pending.other {j : ι} (hp : Pending h j n) (hji : j ≠ i) :
    Pending (h.add (.claimed i)) j n ∧ ∀ v, Pending (h.add (.published i v)) j n := by
  refine ⟨⟨?_, ?_, ?_⟩, fun v => ?_⟩
  · show (h.claims ++ [i])[n]? = _
    rw [List.getElem?_append_left hp.lt]
    exact hp.claimed
  · show ((h.claims ++ [i]).take n).count j = _
    rw [List.take_append_of_le_length hp.lt.le]
    exact hp.before
  · show (h.claims ++ [i]).count j = _
    rw [List.count_append, List.count_singleton, if_neg (by simpa using hji.symm)]
    exact hp.all
  · have hhanded : (h.add (.published i v)).handed j = h.handed j := Function.update_of_ne hji _ _
    refine ⟨hp.claimed, ?_, ?_⟩
    · rw [hhanded]
      exact hp.before
    · rw [hhanded]
      exact hp.all

end History

/-! ## 4. The outline -/

section Outline

variable [DecidableEq ι]

/-- **The ring after a trace**: the positions count the claims and the cells given back, and claims are at
    most a lap ahead; what has been read are the values of the first positions; in the lap that begins at
    the consumer, the sequence number of a cell is its position, or one more if the position has its
    value, which is in the cell until it is read. -/
structure Memory (k : ℕ) (h : History ι T) (r : MpscRing T) : Prop where
  mask : r.mask = count 64 (2 ^ k - 1)
  enqueuePos : r.enqueuePos = count 64 h.claims.length
  dequeuePos : r.dequeuePos = count 64 h.released
  reading : h.released ≤ h.received.length
  outstanding : h.claims.length ≤ h.released + 2 ^ k
  order : ∀ n v, h.received[n]? = some v → h.callAt n = some v
  seq : ∀ n, h.released ≤ n → n < h.released + 2 ^ k →
    (r.cells (n % 2 ^ k)).seq = count 64 (if (h.callAt n).isSome then n + 1 else n)
  kept : ∀ n v, h.received.length ≤ n → h.callAt n = some v → (r.cells (n % 2 ^ k)).value = v

/-- Where a producer is, its position is an old or the current one, and of the current lap if it has
    checked; past its claim it is its own. -/
def ProducerAt (k : ℕ) (i : ι) (h : History ι T) (r : MpscRing T) : Producer T → Prop
  | .idle => Settled h i
  | .pos _ => Settled h i
  | .seq _ pos => Settled h i ∧ ∃ n ≤ h.claims.length, pos = count 64 n
  | .claim _ pos => Settled h i ∧ ∃ n ≤ h.claims.length, pos = count 64 n ∧ n < h.released + 2 ^ k
  | .fill _ pos => ∃ n, pos = count 64 n ∧ Pending h i n
  | .publish v pos => ∃ n, pos = count 64 n ∧ Pending h i n ∧ (r.cells (n % 2 ^ k)).value = v

/-- Where the consumer is, there is a value if it has checked; past the read it has one value more than
    it has given back. -/
def ConsumerAt (h : History ι T) : Consumer T → Prop
  | .idle => h.received.length = h.released
  | .seq _ => h.received.length = h.released
  | .use _ => h.received.length = h.released ∧ (h.callAt h.released).isSome
  | .recycle => h.received.length = h.released + 1
  | .work => h.received.length = h.released

def outline (k : ℕ) : Outline (MpscRing T) (Event ι T) (Pc T : Option ι → Type) where
  memory τ := Memory k (history τ)
  thread
    | some i, τ, p, r => ProducerAt k i (history τ) r p
    | none, τ, q, _ => ConsumerAt (history τ) q

end Outline

section Steps

variable [DecidableEq ι] {k : ℕ} {h : History ι T} {r r' : MpscRing T} {i j : ι} {n : ℕ} {p p' : Producer T}
  {q q' : Consumer T} {e : Event ι T}

theorem Memory.cellOf_count (hm : Memory k h r) (hk : k ≤ 62) (n : ℕ) : r.cellOf (count 64 n) = n % 2 ^ k := by
  rw [cellOf, hm.mask]
  exact toNat_count_and_mask (hk.trans (by decide)) n

/-- A position without a value has not been read. -/
theorem Memory.le_of_callAt (hm : Memory k h r) (hn : h.callAt n = none) : h.received.length ≤ n := by
  by_contra hlt
  obtain ⟨v, hv⟩ : ∃ v, h.received[n]? = some v := ⟨_, List.getElem?_eq_getElem (Nat.lt_of_not_le hlt)⟩
  rw [hm.order n v hv] at hn
  cases hn

/-- The position of a call that has not returned is in the current lap. -/
theorem Memory.pending (hm : Memory k h r) (hp : Pending h i n) : h.released ≤ n ∧ n < h.released + 2 ^ k :=
  ⟨hm.reading.trans (hm.le_of_callAt hp.callAt), lt_of_lt_of_le hp.lt hm.outstanding⟩

/-- Different positions of the current lap fall on different cells. -/
theorem lap_ne {d m n : ℕ} (hm : d ≤ m ∧ m < d + 2 ^ k) (hn : d ≤ n ∧ n < d + 2 ^ k) (hne : m ≠ n) :
    m % 2 ^ k ≠ n % 2 ^ k := by
  rcases Nat.lt_or_gt_of_ne hne with hlt | hgt
  · exact mod_ne hlt (by omega)
  · exact (mod_ne hgt (by omega)).symm

/-- **What the sequence number tells a producer** that holds a position, old or current: it is of the
    current lap if they agree, and the ring is full if the number is behind. -/
theorem Memory.dif (hm : Memory k h r) (hk0 : 1 ≤ k) (hk : k ≤ 62) (hops : h.operations < 2 ^ 63)
    (hn : n ≤ h.claims.length) :
    (r.dif (count 64 n) = 0 → n < h.released + 2 ^ k) ∧
    (r.dif (count 64 n) < 0 → n = h.claims.length ∧ n = h.released + 2 ^ k) := by
  have hops' : h.claims.length + h.released < 2 ^ 63 := hops
  have hlap : 2 ^ k ≤ 2 ^ 62 := Nat.pow_le_pow_right Nat.two_pos hk
  have htwo : 2 ^ 1 ≤ 2 ^ k := Nat.pow_le_pow_right Nat.two_pos hk0
  have hout := hm.outstanding
  -- the position of the current lap that falls on the same cell, and the number that is there
  obtain ⟨m, hdm, hmd, hmn⟩ := exists_lap (Nat.two_pow_pos k) h.released n
  obtain ⟨s, hs, hms, hsm, hsE⟩ : ∃ s, (r.cells (n % 2 ^ k)).seq = count 64 s ∧ m ≤ s ∧ s ≤ m + 1 ∧
      (s = m ∨ s ≤ h.claims.length) := by
    refine ⟨_, hmn ▸ hm.seq m hdm hmd, ?_⟩
    cases hcall : h.callAt m with
    | none => exact ⟨le_refl _, Nat.le_succ _, .inl rfl⟩
    | some v => exact ⟨Nat.le_succ _, le_refl _, .inr (History.callAt_lt hcall)⟩
  have hle : h.released ≤ h.claims.length := by
    by_contra hlt
    have hnone : h.callAt h.claims.length = none := by
      rw [History.callAt, List.getElem?_eq_none (le_refl _), Option.bind_none]
    have := hm.reading.trans (hm.le_of_callAt hnone)
    omega
  have hdif : r.dif (count 64 n) = (s : ℤ) - n := by
    rw [MpscRing.dif, hm.cellOf_count hk, hs]
    exact toInt_count_sub (by omega) (by omega)
  rw [hdif]
  refine ⟨fun hzero => ?_, fun hneg => ?_⟩
  · by_contra hge
    have hne : m % 2 ^ k ≠ n % 2 ^ k := mod_ne (by omega) (by omega)
    exact hne hmn
  · have hge : h.released + 2 ^ k ≤ n := by
      by_contra hlt
      rcases Nat.lt_or_ge n h.released with hold | hcur
      · omega
      · have hne : m ≠ n → m % 2 ^ k ≠ n % 2 ^ k := lap_ne ⟨hdm, hmd⟩ ⟨hcur, by omega⟩
        have heq : m = n := by
          by_contra hc
          exact hne hc hmn
        omega
    omega

/-- **What the sequence number tells the consumer**: whether the next position has its value. -/
theorem Memory.next_iff (hm : Memory k h r) (hk : k ≤ 62) :
    (r.cells (r.cellOf r.dequeuePos)).seq = r.dequeuePos + 1 ↔ (h.callAt h.released).isSome := by
  have hone : count 64 h.released + 1 = count 64 (h.released + 1) := count_add _ 1
  rw [hm.dequeuePos, hm.cellOf_count hk, hm.seq _ (le_refl _) (Nat.lt_add_of_pos_right (Nat.two_pow_pos k)), hone]
  cases (h.callAt h.released).isSome with
  | true => exact iff_of_true rfl rfl
  | false =>
      refine iff_of_false ?_ Bool.false_ne_true
      rw [if_neg Bool.false_ne_true, count_eq_iff (Nat.le_succ _) (by omega)]
      exact Nat.ne_of_lt (Nat.lt_succ_self _)

/-! ### The steps of a producer -/

theorem Memory.won (hm : Memory k h r) (hs : Settled h i) (hroom : h.claims.length < h.released + 2 ^ k) :
    Memory k (h.add (.claimed i)) { r with enqueuePos := count 64 h.claims.length + 1 } := by
  have hlen : (h.add (.claimed i)).claims.length = h.claims.length + 1 := by
    show (h.claims ++ [i]).length = _
    rw [List.length_append, List.length_singleton]
  have hcall := hs.callAt_claimed
  refine ⟨hm.mask, ?_, hm.dequeuePos, hm.reading, ?_, ?_, ?_, ?_⟩
  · rw [hlen]
    exact count_add _ 1
  · rw [hlen]
    exact hroom
  · rw [hcall]
    exact hm.order
  · rw [hcall]
    exact hm.seq
  · rw [hcall]
    exact hm.kept

/-- The write of a value touches no other position of the lap. -/
theorem Memory.write (hm : Memory k h r) (hp : Pending h i n) (v : T) :
    Memory k h (r.setValue (n % 2 ^ k) v) := by
  refine { hm with seq := fun m hdm hmd => ?_, kept := fun m u hm' hu => ?_ }
  · rw [seq_setValue]
    exact hm.seq m hdm hmd
  · have hne : m ≠ n := by
      rintro rfl
      rw [hp.callAt] at hu
      cases hu
    have hlap : h.released ≤ m ∧ m < h.released + 2 ^ k :=
      ⟨hm.reading.trans hm', lt_of_lt_of_le (History.callAt_lt hu) hm.outstanding⟩
    rw [value_setValue_of_ne _ (lap_ne hlap (hm.pending hp) hne)]
    exact hm.kept m u hm' hu

/-- The store of the sequence number hands the value over. -/
theorem Memory.publish (hm : Memory k h r) (hp : Pending h i n) {v : T} (hv : (r.cells (n % 2 ^ k)).value = v) :
    Memory k (h.add (.published i v)) (r.setSeq (n % 2 ^ k) (count 64 n + 1)) := by
  have hcall := hp.callAt_published v
  refine ⟨hm.mask, hm.enqueuePos, hm.dequeuePos, hm.reading, hm.outstanding, fun m u hu => ?_,
    fun m hdm hmd => ?_, fun m u hm' hu => ?_⟩
  · have hold := hm.order m u hu
    have hne : m ≠ n := by
      rintro rfl
      rw [hp.callAt] at hold
      cases hold
    rw [hcall, Function.update_of_ne hne]
    exact hold
  · rw [hcall]
    by_cases hmn : m = n
    · subst hmn
      rw [seq_setSeq_self, Function.update_self]
      exact count_add _ 1
    · rw [seq_setSeq_of_ne _ (lap_ne ⟨hdm, hmd⟩ (hm.pending hp) hmn), Function.update_of_ne hmn]
      exact hm.seq m hdm hmd
  · rw [value_setSeq]
    rw [hcall] at hu
    by_cases hmn : m = n
    · subst hmn
      rw [Function.update_self] at hu
      cases hu
      exact hv
    · rw [Function.update_of_ne hmn] at hu
      exact hm.kept m u hm' hu

/-- **A step of a producer** keeps the invariant and leads where the producer may be. -/
theorem Memory.produces (hm : Memory k h r) (hk0 : 1 ≤ k) (hk : k ≤ 62) (hops : h.operations < 2 ^ 63)
    (hp : ProducerAt k i h r p) (hs : Produces i p r p' r' e) :
    Memory k (h.add e) r' ∧ ProducerAt k i (h.add e) r' p' := by
  cases hs with
  | call fill => exact ⟨hm, hp⟩
  | load fill => exact ⟨hm, hp, _, le_refl _, hm.enqueuePos⟩
  | free fill pos _ hzero =>
      obtain ⟨hset, n, hn, rfl⟩ := hp
      exact ⟨hm, hset, n, hn, rfl, (hm.dif hk0 hk hops hn).1 hzero⟩
  | refused fill pos => exact ⟨hm, hp.1⟩
  | behind fill pos => exact ⟨hm, hp.1⟩
  | won fill pos _ hwon =>
      obtain ⟨hset, n, hn, rfl, hlap⟩ := hp
      have hops' : h.claims.length + h.released < 2 ^ 63 := hops
      rw [hm.enqueuePos, eq_comm, count_eq_iff hn (by omega)] at hwon
      subst hwon
      exact ⟨hm.won hset hlap, _, rfl, hset.pending⟩
  | lost fill pos => exact ⟨hm, hp.1, _, le_refl _, hm.enqueuePos⟩
  | write fill pos =>
      obtain ⟨n, rfl, hpend⟩ := hp
      rw [hm.cellOf_count hk]
      exact ⟨hm.write hpend _, n, rfl, hpend, value_setValue_self _ _ _⟩
  | publish v pos =>
      obtain ⟨n, rfl, hpend, hv⟩ := hp
      rw [hm.cellOf_count hk]
      exact ⟨hm.publish hpend hv, hpend.settled v⟩

/-- What a producer relies on: its own claims and returns, no step back of the positions, and the value in
    the cell that it has won. -/
theorem ProducerAt.mono {h' : History ι T} (hp : ProducerAt k i h r p) (hset : Settled h i → Settled h' i)
    (hpend : ∀ n, Pending h i n → Pending h' i n) (hclaims : h.claims.length ≤ h'.claims.length)
    (hreleased : h.released ≤ h'.released)
    (hvalue : ∀ n, Pending h i n → (r'.cells (n % 2 ^ k)).value = (r.cells (n % 2 ^ k)).value) :
    ProducerAt k i h' r' p := by
  cases p with
  | idle => exact hset hp
  | pos fill => exact hset hp
  | seq fill pos =>
      obtain ⟨hs, n, hn, rfl⟩ := hp
      exact ⟨hset hs, n, hn.trans hclaims, rfl⟩
  | claim fill pos =>
      obtain ⟨hs, n, hn, rfl, hlap⟩ := hp
      exact ⟨hset hs, n, hn.trans hclaims, rfl, lt_of_lt_of_le hlap (Nat.add_le_add_right hreleased _)⟩
  | fill fill pos =>
      obtain ⟨n, rfl, hn⟩ := hp
      exact ⟨n, rfl, hpend n hn⟩
  | publish v pos =>
      obtain ⟨n, rfl, hn, hv⟩ := hp
      exact ⟨n, rfl, hpend n hn, (hvalue n hn).trans hv⟩

/-- Two producers have won different positions. -/
theorem Pending.ne {m : ℕ} (hj : Pending h j m) (hi : Pending h i n) (hji : j ≠ i) : m ≠ n := by
  rintro rfl
  exact hji (Option.some.inj (hj.claimed.symm.trans hi.claimed))

/-- A step of a producer does not disturb another. -/
theorem ProducerAt.produces {o : Producer T} (ho : ProducerAt k j h r o) (hm : Memory k h r) (hk : k ≤ 62)
    (hp : ProducerAt k i h r p) (hji : j ≠ i) (hs : Produces i p r p' r' e) :
    ProducerAt k j (h.add e) r' o := by
  cases hs with
  | call | load | free | refused | behind | lost => exact ho
  | won fill pos =>
      refine ho.mono (fun h => (h.other hji).1) (fun _ h => (h.other hji).1) ?_ (le_refl _) fun _ _ => rfl
      exact (List.sublist_append_left _ _).length_le
  | write fill pos =>
      obtain ⟨n, rfl, hpend⟩ := hp
      rw [hm.cellOf_count hk]
      refine ho.mono id (fun _ h => h) (le_refl _) (le_refl _) fun m hm' => ?_
      exact value_setValue_of_ne _ (lap_ne (hm.pending hm') (hm.pending hpend) (hm'.ne hpend hji)) _
  | publish v pos =>
      exact ho.mono (fun h => (h.other hji).2 v) (fun _ h => (h.other hji).2 v) (le_refl _) (le_refl _)
        fun _ _ => value_setSeq _ _ _ _

/-- A step of a producer does not disturb the consumer. -/
theorem ConsumerAt.produces (hq : ConsumerAt h q) (hp : ProducerAt k i h r p) (hs : Produces i p r p' r' e) :
    ConsumerAt (h.add e) q := by
  cases hs with
  | call | load | free | refused | behind | lost | write => exact hq
  | won fill pos =>
      have hcall := hp.1.callAt_claimed
      cases q with
      | use use =>
          refine ⟨hq.1, ?_⟩
          rw [hcall]
          exact hq.2
      | idle | seq | recycle | work => exact hq
  | publish v pos =>
      obtain ⟨n, -, hpend, -⟩ := hp
      cases q with
      | use use =>
          obtain ⟨hidle, hsome⟩ := hq
          refine ⟨hidle, ?_⟩
          have hne : h.released ≠ n := by
            rintro rfl
            rw [hpend.callAt] at hsome
            cases hsome
          rw [hpend.callAt_published v]
          show (Function.update h.callAt n (some v) h.released).isSome
          rw [Function.update_of_ne hne]
          exact hsome
      | idle | seq | recycle | work => exact hq

/-! ### The steps of the consumer -/

/-- The read of a value, and what the use leaves in the cell. -/
theorem Memory.read (hm : Memory k h r) (hidle : h.received.length = h.released)
    (hsome : (h.callAt h.released).isSome) (use : T → T) :
    Memory k (h.add (.received (r.cells (h.released % 2 ^ k)).value))
      (r.setValue (h.released % 2 ^ k) (use (r.cells (h.released % 2 ^ k)).value)) := by
  obtain ⟨v, hv⟩ := Option.isSome_iff_exists.mp hsome
  rw [hm.kept _ v hidle.le hv]
  have hlen : (h.received ++ [v]).length = h.released + 1 := by
    rw [List.length_append, List.length_singleton, hidle]
  refine ⟨hm.mask, hm.enqueuePos, hm.dequeuePos, ?_, hm.outstanding, fun m u hu => ?_, fun m hdm hmd => ?_,
    fun m u hm' hu => ?_⟩
  · exact hlen ▸ Nat.le_succ _
  · rcases Nat.lt_or_ge m h.received.length with hlt | hge
    · exact hm.order m u ((List.getElem?_append_left hlt).symm.trans hu)
    · -- the value that has just been read
      have hlt : m < (h.received ++ [v]).length := (List.getElem?_eq_some_iff.mp hu).1
      obtain rfl : m = h.received.length := by omega
      have hu' : some v = some u := List.getElem?_concat_length.symm.trans hu
      rw [← hu', hidle]
      exact hv
  · rw [seq_setValue]
    exact hm.seq m hdm hmd
  · have hge : h.released + 1 ≤ m := hlen ▸ hm'
    have hlt : m < h.released + 2 ^ k := lt_of_lt_of_le (History.callAt_lt hu) hm.outstanding
    have hne : h.released % 2 ^ k ≠ m % 2 ^ k := mod_ne hge hlt
    rw [value_setValue_of_ne _ hne.symm]
    exact hm.kept m u (by omega) hu

/-- The store of the sequence number gives the cell to the position a lap ahead. -/
theorem Memory.recycle (hm : Memory k h r) (hreading : h.received.length = h.released + 1) :
    Memory k (h.add .released)
      { r.setSeq (h.released % 2 ^ k) (count 64 h.released + count 64 (2 ^ k - 1) + 1) with
        dequeuePos := count 64 h.released + 1 } := by
  have hpos := Nat.two_pow_pos k
  have hlap : count 64 h.released + count 64 (2 ^ k - 1) + 1 = count 64 (h.released + 2 ^ k) := by
    have hone : count 64 (h.released + (2 ^ k - 1)) + 1 = count 64 (h.released + (2 ^ k - 1) + 1) := count_add _ 1
    rw [count_add, hone]
    congr 1
    omega
  have hout := hm.outstanding
  refine ⟨hm.mask, hm.enqueuePos, count_add _ 1, hreading.ge, ?_, hm.order, fun m hdm hmd => ?_,
    fun m u hm' hu => ?_⟩
  · show h.claims.length ≤ h.released + 1 + 2 ^ k
    omega
  · have hge : h.released + 1 ≤ m := hdm
    have hlt : m < h.released + 1 + 2 ^ k := hmd
    show ((r.setSeq (h.released % 2 ^ k) _).cells (m % 2 ^ k)).seq = count 64 (if (h.callAt m).isSome then m + 1 else m)
    by_cases hm2 : m = h.released + 2 ^ k
    · -- the position a lap ahead has not been won yet
      have hnone : h.callAt m = none := by
        rw [History.callAt, List.getElem?_eq_none (by omega), Option.bind_none]
      rw [hnone, hm2, Nat.add_mod_right, seq_setSeq_self, hlap]
      rfl
    · have hne : h.released % 2 ^ k ≠ m % 2 ^ k := mod_ne hge (by omega)
      rw [seq_setSeq_of_ne _ hne.symm]
      exact hm.seq m (by omega) (by omega)
  · show ((r.setSeq (h.released % 2 ^ k) _).cells (m % 2 ^ k)).value = u
    rw [value_setSeq]
    exact hm.kept m u hm' hu

/-- **A step of the consumer** keeps the invariant and leads where the consumer may be. -/
theorem Memory.consumes (hm : Memory k h r) (hk : k ≤ 62) (hq : ConsumerAt h q) (hs : Consumes q r q' r' e) :
    Memory k (h.add e) r' ∧ ConsumerAt (h.add e) q' := by
  cases hs with
  | call use => exact ⟨hm, hq⟩
  | ask => exact ⟨hm, hq⟩
  | refused use => exact ⟨hm, hq⟩
  | more use _ hseq => exact ⟨hm, hq, (hm.next_iff hk).mp hseq⟩
  | read use =>
      rw [hm.dequeuePos, hm.cellOf_count hk]
      refine ⟨hm.read hq.1 hq.2 use, ?_⟩
      show (h.received ++ [_]).length = h.released + 1
      rw [List.length_append, List.length_singleton, hq.1]
  | recycle =>
      rw [hm.dequeuePos, hm.cellOf_count hk, hm.mask]
      exact ⟨hm.recycle hq, hq⟩
  | answer => exact ⟨hm, hq⟩

/-- A step of the consumer does not disturb a producer. -/
theorem ProducerAt.consumes (hp : ProducerAt k i h r p) (hm : Memory k h r) (hk : k ≤ 62) (hq : ConsumerAt h q)
    (hs : Consumes q r q' r' e) : ProducerAt k i (h.add e) r' p := by
  cases hs with
  | call | ask | refused | more | answer => exact hp
  | read use =>
      obtain ⟨hidle, hsome⟩ := hq
      rw [hm.dequeuePos, hm.cellOf_count hk]
      refine hp.mono (fun h => h) (fun _ h => ⟨h.1, h.2, h.3⟩) (le_refl _) (le_refl _) fun m hpend => ?_
      have hne : h.released ≠ m := by
        rintro rfl
        rw [hpend.callAt] at hsome
        cases hsome
      have hlap := hm.pending hpend
      have hcell : h.released % 2 ^ k ≠ m % 2 ^ k := mod_ne (by omega) hlap.2
      exact value_setValue_of_ne _ hcell.symm _
  | recycle =>
      exact hp.mono (fun h => h) (fun _ h => ⟨h.1, h.2, h.3⟩) (le_refl _) (Nat.le_succ _)
        fun _ _ => value_setSeq _ _ _ _

end Steps

/-! ## 5. Every run -/

section Run

variable [DecidableEq ι] {k : ℕ} {τ : List (Event ι T)} {w w' : Threads.World (MpscRing T) (Pc T : Option ι → Type)}

theorem memory_make {minCapacity : ℕ} (hmask : bitCeil (if minCapacity < 2 then 2 else minCapacity) = 2 ^ k)
    (values : ℕ → T) : Memory k ({} : History ι T) (make minCapacity values) := by
  refine ⟨?_, rfl, rfl, le_refl _, Nat.zero_le _, fun n v hv => ?_, fun n _ hn => ?_, fun n v _ hv => ?_⟩
  · exact congrArg (fun n => count 64 (n - 1)) hmask
  · cases hv
  · show count 64 (n % 2 ^ k) = count 64 n
    rw [Nat.mod_eq_of_lt (by simpa using hn)]
  · cases hv

theorem mpsc_valid {minCapacity : ℕ} (hk0 : 1 ≤ k) (hk : k ≤ 62)
    (hmask : bitCeil (if minCapacity < 2 then 2 else minCapacity) = 2 ^ k) (values : ℕ → T) :
    (outline k).ValidWithin (fun τ => (history τ).operations < 2 ^ 63) (mpsc ι T) (start ι minCapacity values) := by
  have hmono : ∀ {τ : List (Event ι T)} {e : Event ι T}, (history (τ ++ [e])).operations < 2 ^ 63 →
      (history τ).operations < 2 ^ 63 := by
    intro τ e hb
    rw [history_snoc] at hb
    exact lt_of_le_of_lt (History.operations_le_add e) hb
  refine ⟨⟨memory_make hmask values, fun t => ?_⟩, hmono, ?_, ?_⟩
  · cases t with
    | some i => rfl
    | none => rfl
  · intro τ w t a l m e hw hb hmove
    have hm : Memory k (history τ) w.mem := hw.memory
    cases t with
    | some i =>
        show Memory k (history (τ ++ [e])) m ∧ ProducerAt k i (history (τ ++ [e])) m l
        rw [history_snoc]
        exact hm.produces hk0 hk (hmono hb) (hw.thread (some i)) (produces hmove)
    | none =>
        show Memory k (history (τ ++ [e])) m ∧ ConsumerAt (history (τ ++ [e])) l
        rw [history_snoc]
        exact hm.consumes hk (hw.thread none) (consumes hmove)
  · intro τ w t u a l m e hw _ hmove hut
    have hm : Memory k (history τ) w.mem := hw.memory
    cases u with
    | some j =>
        show ProducerAt k j (history (τ ++ [e])) m (w.pc (some j))
        rw [history_snoc]
        have hj : ProducerAt k j (history τ) w.mem (w.pc (some j)) := hw.thread (some j)
        cases t with
        | some i =>
            exact hj.produces hm hk (hw.thread (some i)) (fun hji => hut (congrArg some hji)) (produces hmove)
        | none => exact hj.consumes hm hk (hw.thread none) (consumes hmove)
    | none =>
        show ConsumerAt (history (τ ++ [e])) (w.pc none)
        rw [history_snoc]
        have hq : ConsumerAt (history τ) (w.pc none) := hw.thread none
        cases t with
        | some i => exact hq.produces (hw.thread (some i)) (produces hmove)
        | none => exact absurd rfl hut

/-- The position that a thread has for its own. -/
def Owns (h : History ι T) : Option ι → ℕ → Prop
  | some i, n => Pending h i n
  | none, n => n = h.released ∧ (h.callAt n).isSome

theorem Owns.ne {h : History ι T} {s t : Option ι} {m n : ℕ} (hs : Owns h s m) (ht : Owns h t n) (hst : s ≠ t) :
    m ≠ n := by
  rintro rfl
  cases s with
  | some i =>
      have hi : h.callAt m = none := Pending.callAt hs
      cases t with
      | some j => exact Pending.ne hs ht (fun hij => hst (congrArg some hij)) rfl
      | none => exact absurd ht.2 (by rw [hi]; exact Bool.false_ne_true)
  | none =>
      cases t with
      | some j =>
          have hj : h.callAt m = none := Pending.callAt ht
          exact absurd hs.2 (by rw [hj]; exact Bool.false_ne_true)
      | none => exact hst rfl

theorem Owns.lap {h : History ι T} {r : MpscRing T} {t : Option ι} {n : ℕ} (ht : Owns h t n) (hm : Memory k h r) :
    h.released ≤ n ∧ n < h.released + 2 ^ k := by
  cases t with
  | some i => exact hm.pending ht
  | none =>
      obtain ⟨rfl, -⟩ := ht
      exact ⟨le_refl _, Nat.lt_add_of_pos_right (Nat.two_pow_pos k)⟩

/-- A cell that a thread may access is that of a position it has for its own. -/
theorem owns_of_holds (hw : (outline k).Holds τ w) (hk : k ≤ 62) {t : Option ι} {c : ℕ}
    (ht : holds w.mem t (w.pc t) = some c) : ∃ n, Owns (history τ) t n ∧ c = n % 2 ^ k := by
  have hm : Memory k (history τ) w.mem := hw.memory
  cases t with
  | some i =>
      have hp : ProducerAt k i (history τ) w.mem (w.pc (some i)) := hw.thread (some i)
      generalize w.pc (some i) = p at hp ht
      cases p with
      | fill fill pos =>
          obtain ⟨n, rfl, hpend⟩ := hp
          cases ht
          exact ⟨n, hpend, hm.cellOf_count hk n⟩
      | publish v pos =>
          obtain ⟨n, rfl, hpend, -⟩ := hp
          cases ht
          exact ⟨n, hpend, hm.cellOf_count hk n⟩
      | idle | pos | seq | claim => cases ht
  | none =>
      have hq : ConsumerAt (history τ) (w.pc none) := hw.thread none
      have hcell : w.mem.cellOf w.mem.dequeuePos = (history τ).released % 2 ^ k := by
        rw [hm.dequeuePos]
        exact hm.cellOf_count hk _
      generalize w.pc none = q at hq ht
      cases q with
      | use use =>
          cases ht
          exact ⟨_, ⟨rfl, hq.2⟩, hcell⟩
      | recycle =>
          cases ht
          refine ⟨_, ⟨rfl, ?_⟩, hcell⟩
          have hlt : (history τ).released < (history τ).received.length := by
            rw [show (history τ).received.length = (history τ).released + 1 from hq]
            exact Nat.lt_succ_self _
          rw [hm.order _ _ (List.getElem?_eq_getElem hlt)]
          rfl
      | idle | seq | work => cases ht

/-- **No cell is open to two threads.** -/
theorem holds_ne (hw : (outline k).Holds τ w) (hk : k ≤ 62) {s t : Option ι} (hst : s ≠ t) {c : ℕ}
    (hs : holds w.mem s (w.pc s) = some c) : holds w.mem t (w.pc t) ≠ some c := by
  intro ht
  have hm : Memory k (history τ) w.mem := hw.memory
  obtain ⟨m, hom, rfl⟩ := owns_of_holds hw hk hs
  obtain ⟨n, hon, hmn⟩ := owns_of_holds hw hk ht
  exact lap_ne (hom.lap hm) (hon.lap hm) (hom.ne hon hst) hmn

/-- Every value handed over has the position that its call has won. -/
theorem exists_callAt (hw : (outline k).Holds τ w) {i : ι} {m : ℕ} {v : T}
    (hv : ((history τ).handed i)[m]? = some v) : ∃ n, (history τ).claims[n]? = some i ∧
      ((history τ).claims.take n).count i = m ∧ (history τ).callAt n = some v := by
  have hp : ProducerAt k i (history τ) w.mem (w.pc (some i)) := hw.thread (some i)
  have hle : ((history τ).handed i).length ≤ (history τ).claims.count i := by
    generalize w.pc (some i) = p at hp
    cases p with
    | idle => exact hp.ge
    | pos fill => exact hp.ge
    | seq fill pos => exact hp.1.ge
    | claim fill pos => exact hp.1.ge
    | fill fill pos =>
        obtain ⟨n, -, hpend⟩ := hp
        exact hpend.all ▸ Nat.le_succ _
    | publish v pos =>
        obtain ⟨n, -, hpend, -⟩ := hp
        exact hpend.all ▸ Nat.le_succ _
  obtain ⟨n, hn, hcount⟩ := exists_place (lt_of_lt_of_le (List.getElem?_eq_some_iff.mp hv).1 hle)
  refine ⟨n, hn, hcount, ?_⟩
  rw [History.callAt, hn, Option.bind_some, hcount]
  exact hv

/-- A producer whose call fails has tried the current position, and the value a lap before it is the next
    that the consumer has to give back. -/
theorem full_of_step (hw : (outline k).Holds τ w) (hk0 : 1 ≤ k) (hk : k ≤ 62)
    (hops : (history τ).operations < 2 ^ 63) {i : ι} (hs : (mpsc ι T).Step w (.full i) w') :
    (∃ fill, w.pc (some i) = Producer.seq fill (count 64 ((history τ).released + 2 ^ k))) ∧
      (history τ).claims.length = (history τ).released + 2 ^ k := by
  obtain ⟨t, a, hmove⟩ := hs
  cases t with
  | some j =>
      have hp : ProducerAt k j (history τ) w.mem (w.pc (some j)) := hw.thread (some j)
      have hm : Memory k (history τ) w.mem := hw.memory
      have hstep := produces hmove
      generalize hpc : w.pc (some j) = p at hp hstep
      cases hstep with
      | refused fill pos _ hneg =>
          obtain ⟨-, n, hn, rfl⟩ := hp
          obtain ⟨hlast, hlap⟩ := (hm.dif hk0 hk hops hn).2 hneg
          exact ⟨⟨fill, hpc.trans (by rw [hlap])⟩, hlast.symm.trans hlap⟩
  | none =>
      generalize w.pc none = q at hmove
      cases consumes hmove

/-- A call of the consumer fails only if the next position has no value. -/
theorem empty_of_step (hw : (outline k).Holds τ w) (hk : k ≤ 62) (hs : (mpsc ι T).Step w .empty w') :
    (history τ).callAt (history τ).released = none := by
  obtain ⟨t, a, hmove⟩ := hs
  cases t with
  | some j =>
      generalize w.pc (some j) = p at hmove
      cases produces hmove
  | none =>
      have hm : Memory k (history τ) w.mem := hw.memory
      have hstep := consumes hmove
      generalize w.pc none = q at hstep
      cases hstep with
      | refused use _ hseq =>
          rw [Ne, hm.next_iff hk] at hseq
          exact Option.not_isSome_iff_eq_none.mp hseq

/-- `consumerHasWork` tells whether the next position has its value. -/
theorem hasWork_of_step (hw : (outline k).Holds τ w) (hk : k ≤ 62) {b : Bool}
    (hs : (mpsc ι T).Step w (.hasWork b) w') :
    b = true ↔ ((history τ).callAt (history τ).released).isSome := by
  obtain ⟨t, a, hmove⟩ := hs
  cases t with
  | some j =>
      generalize w.pc (some j) = p at hmove
      cases produces hmove
  | none =>
      have hm : Memory k (history τ) w.mem := hw.memory
      have hstep := consumes hmove
      generalize w.pc none = q at hstep
      cases hstep with
      | answer => exact decide_eq_true_iff.trans (hm.next_iff hk)

/-- A consumer that is past its check has a value at the next position. -/
theorem callAt_of_use (hw : (outline k).Holds τ w) {use : T → T} (hq : w.pc none = Consumer.use use) :
    (history τ).callAt (history τ).released ≠ none := by
  have hc : ConsumerAt (history τ) (w.pc none) := hw.thread none
  rw [hq] at hc
  exact Option.isSome_iff_ne_none.mp hc.2

/-- **The ring delivers every claimed position once, in the order of the claims**, in every interleaving of
    any number of producers and one consumer that has fewer than `2 ^ 63` operations, for every capacity a
    ring can be built with. What is received are the values of the first positions, in order; every value
    handed over by a call that has returned has the position that the call has won, and is in its cell
    until it is read; what is received of one producer is what it handed over, in order. No cell is open to
    two threads at a time. A call of a producer fails only if the value `capacity` positions before the one
    it tries has not been given back. And the consumer does not get past a position that has no value yet:
    its calls fail there, and only there. -/
theorem mpsc_claim_order {minCapacity : ℕ} (hcap : minCapacity ≤ 2 ^ 62) (values : ℕ → T)
    (hr : (mpsc ι T).Run (start ι minCapacity values) τ w) (hops : (history τ).operations < 2 ^ 63) :
    (∀ n v, (history τ).received[n]? = some v → (history τ).callAt n = some v) ∧
    (∀ i m v, ((history τ).handed i)[m]? = some v → ∃ n, (history τ).claims[n]? = some i ∧
      ((history τ).claims.take n).count i = m ∧ (history τ).callAt n = some v) ∧
    (∀ n v, (history τ).received.length ≤ n → (history τ).callAt n = some v →
      (w.mem.cells (w.mem.cellOf (count 64 n))).value = v) ∧
    (∀ i, (history τ).receivedOf i <+: (history τ).handed i) ∧
    (∀ s t, s ≠ t → ∀ c, holds w.mem s (w.pc s) = some c → holds w.mem t (w.pc t) ≠ some c) ∧
    (∀ i w', (mpsc ι T).Step w (.full i) w' →
      (∃ fill, w.pc (some i) = Producer.seq fill (count 64 ((history τ).released + w.mem.capacity))) ∧
      (history τ).claims.length = (history τ).released + w.mem.capacity) ∧
    (∀ n, (history τ).callAt n = none → (history τ).received.length ≤ n) ∧
    ((history τ).callAt (history τ).released = none → ∀ use, w.pc none ≠ Consumer.use use) ∧
    (∀ w', (mpsc ι T).Step w .empty w' → (history τ).callAt (history τ).released = none) ∧
    (∀ b w', (mpsc ι T).Step w (.hasWork b) w' →
      (b = true ↔ ((history τ).callAt (history τ).released).isSome)) := by
  obtain ⟨k, hk0, hk, hmask⟩ := exists_bitCeil (n := if minCapacity < 2 then 2 else minCapacity) (b := 62)
    (by split_ifs <;> omega) (by split_ifs <;> omega)
  have hw := (mpsc_valid hk0 hk hmask values).holds hr hops
  have hm : Memory k (history τ) w.mem := hw.memory
  have hcapacity : w.mem.capacity = 2 ^ k := by
    rw [capacity, hm.mask]
    exact toNat_mask_succ (hk.trans (by decide))
  rw [hcapacity]
  refine ⟨hm.order, fun i m v hv => exists_callAt hw hv, fun n v hn hv => ?_,
    fun i => History.receivedOf_prefix hm.order i, fun s t hst c hs => holds_ne hw hk hst hs,
    fun i w' hs => full_of_step hw hk0 hk hops hs, fun n hn => hm.le_of_callAt hn,
    fun hn use hq => callAt_of_use hw hq hn, fun w' hs => empty_of_step hw hk hs,
    fun b w' hs => hasWork_of_step hw hk hs⟩
  rw [hm.cellOf_count hk]
  exact hm.kept n v hn hv

end Run

/-- Two producers and a ring of two cells: the first wins the first position and stays there, the second
    one hands over at the second; the consumer finds nothing, until the first has handed over. -/
def slowClaimer : List (Σ t : Option Bool, Call ℕ t) :=
  [⟨some false, ProducerCall.tryPush 5⟩, ⟨some true, ProducerCall.tryPush 6⟩, ⟨some false, ProducerCall.resume⟩,
   ⟨some true, ProducerCall.resume⟩, ⟨some false, ProducerCall.resume⟩, ⟨some true, ProducerCall.resume⟩,
   ⟨some false, ProducerCall.resume⟩, ⟨some true, ProducerCall.resume⟩, ⟨some true, ProducerCall.resume⟩,
   ⟨some true, ProducerCall.spurious⟩, ⟨some true, ProducerCall.resume⟩, ⟨some true, ProducerCall.resume⟩,
   ⟨some true, ProducerCall.resume⟩, ⟨some true, ProducerCall.resume⟩, ⟨none, ConsumerCall.tryPop id⟩,
   ⟨none, ConsumerCall.resume⟩, ⟨some false, ProducerCall.resume⟩, ⟨some false, ProducerCall.resume⟩,
   ⟨none, ConsumerCall.tryPop id⟩, ⟨none, ConsumerCall.resume⟩, ⟨none, ConsumerCall.resume⟩]

theorem mpsc_claim_order_slow : ∃ τ w, (mpsc Bool ℕ).Run (start Bool 2 fun _ => 0) τ w ∧
    (history τ).claims = [false, true] ∧ (history τ).received = [5] ∧
    (w.mem.cells (w.mem.cellOf (count 64 1))).value = 6 := by
  have hplay : ∃ w, (mpsc Bool ℕ).play (start Bool 2 fun _ => 0) slowClaimer =
      some ([.silent, .silent, .silent, .silent, .silent, .silent, .claimed false, .silent, .silent, .silent,
        .silent, .claimed true, .silent, .published true 6, .silent, .empty, .silent, .published false 5,
        .silent, .silent, .received 5], w) := ⟨_, rfl⟩
  obtain ⟨w, hplay⟩ := hplay
  have hrun := Threads.run_play hplay
  exact ⟨_, w, hrun, rfl, rfl, (mpsc_claim_order (by decide) _ hrun (by decide)).2.2.1 1 6 (by decide) rfl⟩

end MpscRing

end Rsm.Runtime
