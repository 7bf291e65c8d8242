/-
  File:      RaftRsm/Metrics/Histogram.lean
  Subject:   The latency histogram (`metrics/histogram.h`) and the geometry of its buckets.

  Values and counters are 64-bit words; an `int` of the source is a natural number, as none of them
  is ever negative. `counts` is the array of `kBuckets` counters: `indexOf_lt` says that `record` never
  leaves it, whatever the value. The plain reads (`count`, `minValue`, `maxValue`) and `mean`, a
  floating-point quotient, are left out.

  * `indexOf`, `upperEdge`, `record`, `merge`, `valueAtQuantile` -- the source;
  * `indexOf_eq`, `toNat_upperEdge` -- the buckets are the log-linear ones with six bits of steps;
  * **`bucket_geometry`** -- what that makes of them below `2 ^ 63`.
-/
import RaftRsm.Buckets.LogLinear
import Mathlib.Data.BitVec
import Mathlib.Data.Rat.Floor
import Mathlib.Algebra.Order.Field.Basic

namespace Rsm.Metrics

/-! ## 1. The source -/

def kSubBits : ℕ := 6

def kSub : ℕ := 1 <<< kSubBits

def kBuckets : ℕ := kSub + (63 - kSubBits) * kSub

/-- `std::countl_zero`. -/
def countlZero (v : BitVec 64) : ℕ := v.clz.toNat

def indexOf (v : BitVec 64) : ℕ :=
  if v.toNat < kSub then v.toNat
  else
    let top := 63 - countlZero v
    let sub := ((v >>> (top - kSubBits)) &&& BitVec.ofNat 64 (kSub - 1)).toNat
    let idx := (top - kSubBits + 1) * kSub + sub
    min idx (kBuckets - 1)

def upperEdge (index : ℕ) : BitVec 64 :=
  if index < kSub then BitVec.ofNat 64 index
  else
    let top := index / kSub + kSubBits - 1
    let sub := index % kSub
    (1#64 <<< top) + ((BitVec.ofNat 64 sub + 1#64) <<< (top - kSubBits)) - 1#64

structure LatencyHistogram where
  counts : ℕ → BitVec 64
  total : BitVec 64
  sum : BitVec 64
  min : BitVec 64
  max : BitVec 64

namespace LatencyHistogram

/-- A histogram as it is built, and after `reset`. -/
def empty : LatencyHistogram := ⟨fun _ => 0, 0, 0, BitVec.allOnes 64, 0⟩

/-- `std::max`. -/
def larger (a b : BitVec 64) : BitVec 64 := if a < b then b else a

/-- `std::min`. -/
def smaller (a b : BitVec 64) : BitVec 64 := if b < a then b else a

def record (h : LatencyHistogram) (value : BitVec 64) : LatencyHistogram where
  counts := Function.update h.counts (indexOf value) (h.counts (indexOf value) + 1)
  total := h.total + 1
  sum := h.sum + value
  min := smaller h.min value
  max := larger h.max value

def merge (h other : LatencyHistogram) : LatencyHistogram where
  counts := fun i => h.counts i + other.counts i
  total := h.total + other.total
  sum := h.sum + other.sum
  min := smaller h.min other.min
  max := larger h.max other.max

/-- The loop of `valueAtQuantile` over the buckets that are left. -/
def scan (h : LatencyHistogram) (rank : BitVec 64) : BitVec 64 → List ℕ → BitVec 64
  | _, [] => h.max
  | seen, i :: rest =>
      let seen := seen + h.counts i
      if seen > rank ∨ (seen = h.total ∧ seen ≥ rank) then smaller (upperEdge i) h.max
      else h.scan rank seen rest

/-- `valueAtQuantile`, with the product `q * total` taken exactly and then truncated. -/
def valueAtQuantile (h : LatencyHistogram) (q : ℚ) : BitVec 64 :=
  if h.total = 0 then 0
  else
    let q := if q < 0 then 0 else if 1 < q then 1 else q
    let rank := BitVec.ofNat 64 ⌊q * h.total.toNat⌋.toNat
    h.scan rank 0 (List.range kBuckets)

end LatencyHistogram

/-! ## 2. Words and numbers -/

theorem kSub_eq : kSub = 2 ^ kSubBits := rfl

theorem kBuckets_eq : kBuckets = 3712 := rfl

/-- **A value is always counted in one of the counters.** -/
theorem indexOf_lt (v : BitVec 64) : indexOf v < kBuckets := by
  unfold indexOf
  rw [kBuckets_eq]
  split_ifs with h
  · rw [kSub_eq] at h
    exact h.trans (by decide)
  · exact lt_of_le_of_lt (min_le_right _ _) (by decide)

/-- The leading one of a value. -/
theorem top_eq {v : BitVec 64} (hv : v ≠ 0) : 63 - countlZero v = v.toNat.log2 := by
  have hne : v.toNat ≠ 0 := fun h => hv (BitVec.eq_of_toNat_eq h)
  have hclz : v.clz.toNat < 64 := by
    have hlt := BitVec.clz_lt_iff_ne_zero.mpr hv
    exact BitVec.lt_def.mp hlt
  have hlt := BitVec.toNat_lt_two_pow_sub_clz (x := v)
  have hle := BitVec.two_pow_sub_clz_le_toNat_of_ne_zero (by decide) hv
  refine ((Nat.log2_eq_iff hne).mpr ⟨hle, ?_⟩).symm
  have htop : 64 - 1 - v.clz.toNat + 1 = 64 - v.clz.toNat := by omega
  rw [htop]
  exact hlt

/-- The low bits of a shifted value. -/
theorem sub_eq (v : BitVec 64) (s : ℕ) :
    ((v >>> s) &&& BitVec.ofNat 64 (kSub - 1)).toNat = v.toNat / 2 ^ s % kSub := by
  have hmask : (BitVec.ofNat 64 (kSub - 1)).toNat = 2 ^ kSubBits - 1 := rfl
  rw [BitVec.toNat_and, BitVec.toNat_ushiftRight, hmask, Nat.and_two_pow_sub_one_eq_mod,
    Nat.shiftRight_eq_div_pow, kSub_eq]

/-- **The buckets are log-linear**, with `kSubBits` bits of steps. -/
theorem indexOf_eq {v : BitVec 64} (hv : v.toNat < 2 ^ 63) :
    indexOf v = LogLinear.index kSubBits v.toNat := by
  unfold indexOf
  split_ifs with h
  · -- the linear region: steps of one
    have hscale : ¬ 0 < LogLinear.scale kSubBits v.toNat := fun hs =>
      absurd (LogLinear.le_of_scale hs) (Nat.not_le.mpr h)
    rw [LogLinear.index, Nat.eq_zero_of_not_pos hscale, Nat.mul_zero, Nat.zero_add, Nat.pow_zero,
      Nat.div_one]
  · have hle : 2 ^ kSubBits ≤ v.toNat := Nat.not_lt.mp h
    have hne : v ≠ 0 := by
      rintro rfl
      exact absurd hle (by decide)
    have hlog : v.toNat.log2 < 63 := (Nat.log2_lt fun h0 => hne (BitVec.eq_of_toNat_eq h0)).mpr hv
    have hlow := LogLinear.le_div_scale hle
    have hhigh := LogLinear.div_scale_lt (b := kSubBits) (v := v.toNat)
    -- the shift is the scale, and the leading one is the step number's own
    have hshift : 63 - countlZero v - kSubBits = LogLinear.scale kSubBits v.toNat := by
      rw [top_eq hne, LogLinear.scale]
    dsimp only
    rw [hshift, sub_eq, LogLinear.index]
    have hs : LogLinear.scale kSubBits v.toNat ≤ 56 := by
      unfold LogLinear.scale kSubBits
      omega
    generalize v.toNat / 2 ^ LogLinear.scale kSubBits v.toNat = m at hlow hhigh ⊢
    generalize LogLinear.scale kSubBits v.toNat = s at hs ⊢
    rw [kBuckets_eq]
    have e1 : kSub = 64 := rfl
    have e2 : 2 ^ kSubBits = 64 := rfl
    have e3 : 2 ^ (kSubBits + 1) = 128 := rfl
    rw [e1, e2] at *
    rw [e3] at hhigh
    omega

/-- **The words of `upperEdge` hold what the same sums and shifts give without a bound**, at an index
    past the linear region: both shifts stay below the width, no one is shifted out, no sum carries
    and nothing is taken from zero. -/
structure NoOverflow (index : ℕ) : Prop where
  shift_le : kSubBits ≤ index / kSub + kSubBits - 1
  shift_lt : index / kSub + kSubBits - 1 < 64
  one : (1#64 <<< (index / kSub + kSubBits - 1)).toNat = 2 ^ (index / kSub + kSubBits - 1)
  sub : (BitVec.ofNat 64 (index % kSub) + 1#64).toNat = index % kSub + 1
  steps : ((BitVec.ofNat 64 (index % kSub) + 1#64) <<< (index / kSub + kSubBits - 1 - kSubBits)).toNat =
    (index % kSub + 1) * 2 ^ (index / kSub + kSubBits - 1 - kSubBits)
  sum : ((1#64 <<< (index / kSub + kSubBits - 1)) +
      ((BitVec.ofNat 64 (index % kSub) + 1#64) <<< (index / kSub + kSubBits - 1 - kSubBits))).toNat =
    2 ^ (index / kSub + kSubBits - 1) +
      (index % kSub + 1) * 2 ^ (index / kSub + kSubBits - 1 - kSubBits)
  edge : (upperEdge index).toNat + 1 = 2 ^ (index / kSub + kSubBits - 1) +
    (index % kSub + 1) * 2 ^ (index / kSub + kSubBits - 1 - kSubBits)

theorem noOverflow {i : ℕ} (hlow : kSub ≤ i) (hi : i < kBuckets) : NoOverflow i := by
  have hsub : i % kSub < kSub := Nat.mod_lt _ (by decide)
  have hdiv : 1 ≤ i / kSub := (Nat.le_div_iff_mul_le (by decide)).mpr (by rw [Nat.one_mul]; exact hlow)
  have hdiv' : i / kSub ≤ 57 := Nat.le_of_lt_succ (Nat.div_lt_of_lt_mul hi)
  have htop : i / kSub + kSubBits - 1 ≤ 62 := by
    unfold kSubBits
    omega
  have hpow : 2 ^ (i / kSub + kSubBits - 1) ≤ 2 ^ 62 := Nat.pow_le_pow_right Nat.two_pos htop
  have hpow' : 2 ^ (i / kSub + kSubBits - 1 - kSubBits) ≤ 2 ^ 56 :=
    Nat.pow_le_pow_right Nat.two_pos (by unfold kSubBits at *; omega)
  have hprod : (i % kSub + 1) * 2 ^ (i / kSub + kSubBits - 1 - kSubBits) ≤ kSub * 2 ^ 56 :=
    Nat.mul_le_mul hsub hpow'
  have hk : kSub * 2 ^ 56 = 2 ^ 62 := rfl
  have hk' : kSub = 64 := rfl
  have hone : (1#64 <<< (i / kSub + kSubBits - 1)).toNat = 2 ^ (i / kSub + kSubBits - 1) := by
    rw [BitVec.toNat_shiftLeft, Nat.shiftLeft_eq, BitVec.toNat_ofNat, Nat.one_mod_two_pow (by decide),
      Nat.one_mul]
    exact Nat.mod_eq_of_lt (hpow.trans_lt (by decide))
  have hs : (BitVec.ofNat 64 (i % kSub) + 1#64).toNat = i % kSub + 1 := by
    rw [BitVec.toNat_add, BitVec.toNat_ofNat, BitVec.toNat_ofNat]
    omega
  have hsteps : ((BitVec.ofNat 64 (i % kSub) + 1#64) <<< (i / kSub + kSubBits - 1 - kSubBits)).toNat =
      (i % kSub + 1) * 2 ^ (i / kSub + kSubBits - 1 - kSubBits) := by
    rw [BitVec.toNat_shiftLeft, Nat.shiftLeft_eq, hs]
    exact Nat.mod_eq_of_lt (by omega)
  have hsum : ((1#64 <<< (i / kSub + kSubBits - 1)) +
      ((BitVec.ofNat 64 (i % kSub) + 1#64) <<< (i / kSub + kSubBits - 1 - kSubBits))).toNat =
      2 ^ (i / kSub + kSubBits - 1) +
        (i % kSub + 1) * 2 ^ (i / kSub + kSubBits - 1 - kSubBits) := by
    rw [BitVec.toNat_add, hone, hsteps]
    exact Nat.mod_eq_of_lt (by omega)
  refine ⟨?_, by omega, hone, hs, hsteps, hsum, ?_⟩
  · omega
  · have hpos := Nat.two_pow_pos (i / kSub + kSubBits - 1)
    rw [upperEdge, if_neg (Nat.not_lt.mpr hlow)]
    dsimp only
    rw [BitVec.toNat_sub, hsum, BitVec.toNat_ofNat]
    omega

theorem toNat_upperEdge {i : ℕ} (hi : i < kBuckets) :
    (upperEdge i).toNat = LogLinear.edge kSubBits i := by
  rw [LogLinear.edge, LogLinear.steps, LogLinear.scaleAt, ← kSub_eq]
  rcases Nat.lt_or_ge i kSub with h | h
  · rw [upperEdge, if_pos h, Nat.div_eq_of_lt h, BitVec.toNat_ofNat, kBuckets_eq] at *
    rw [Nat.zero_sub, Nat.mul_zero, Nat.sub_zero, Nat.pow_zero, Nat.mul_one]
    omega
  · have hedge := (noOverflow h hi).edge
    obtain ⟨e, he⟩ : ∃ e, i / kSub = e + 1 :=
      ⟨i / kSub - 1, (Nat.sub_add_cancel ((Nat.le_div_iff_mul_le (by decide)).mpr (by rwa [Nat.one_mul]))).symm⟩
    have hdiv := Nat.div_add_mod i kSub
    rw [he] at hedge hdiv
    have htop : e + 1 + kSubBits - 1 = kSubBits + e := by omega
    rw [htop, Nat.add_sub_cancel_left, Nat.pow_add, ← kSub_eq, ← Nat.add_mul] at hedge
    have hsteps : i - kSub * e + 1 = kSub + (i % kSub + 1) := by
      rw [Nat.mul_succ] at hdiv
      omega
    rw [he, Nat.add_sub_cancel, hsteps, ← hedge, Nat.add_sub_cancel]

/-! ## 3. The geometry -/

/-- A word below `2 ^ 63` lies in a bucket up to `i` exactly if it is at most the edge of `i`. -/
theorem indexOf_le_iff {v : BitVec 64} (hv : v.toNat < 2 ^ 63) {i : ℕ} (hi : i < kBuckets) :
    indexOf v ≤ i ↔ v ≤ upperEdge i := by
  rw [indexOf_eq hv, BitVec.le_def, toNat_upperEdge hi]
  exact LogLinear.galois v.toNat i

theorem indexOf_mono {v w : BitVec 64} (hw : w.toNat < 2 ^ 63) (h : v ≤ w) : indexOf v ≤ indexOf w := by
  rw [indexOf_eq hw, indexOf_eq (lt_of_le_of_lt (BitVec.le_def.mp h) hw)]
  exact LogLinear.galois.monotone_l (BitVec.le_def.mp h)

/-- The edge of its bucket is past a value by less than a 64th of it, or not at all. -/
theorem upperEdge_indexOf_lt {v : BitVec 64} (hv : v.toNat < 2 ^ 63) :
    kSub * ((upperEdge (indexOf v)).toNat - v.toNat) < max kSub v.toNat := by
  have hedge := LogLinear.edge_index_lt (b := kSubBits) (v := v.toNat)
  have hstep := LogLinear.scale_le (b := kSubBits) (v := v.toNat)
  rw [toNat_upperEdge (indexOf_lt v), indexOf_eq hv, kSub_eq]
  refine lt_of_lt_of_le (Nat.mul_lt_mul_of_pos_left ?_ (Nat.two_pow_pos _)) hstep
  have hpos := Nat.two_pow_pos (LogLinear.scale kSubBits v.toNat)
  omega

theorem indexOf_eq_iff {v : BitVec 64} (hv : v.toNat < 2 ^ 63) {i : ℕ} (h0 : 0 < i) (hi : i < kBuckets) :
    indexOf v = i ↔ upperEdge (i - 1) < v ∧ v ≤ upperEdge i := by
  rw [indexOf_eq hv, BitVec.lt_def, BitVec.le_def, toNat_upperEdge hi, toNat_upperEdge (by omega)]
  exact LogLinear.index_eq_iff h0

/-- **The geometry of the buckets.** A value below `2 ^ 63` has a bucket, whose edge is at or past it,
    by less than a 64th of it or by nothing. Larger values have no smaller buckets. The values of a
    bucket are exactly those past the edge of the bucket before, up to its own edge. And no word of
    `upperEdge` overflows at a valid index. -/
theorem bucket_geometry :
    (∀ v : BitVec 64, v.toNat < 2 ^ 63 →
      indexOf v < kBuckets ∧ v ≤ upperEdge (indexOf v) ∧
      ((upperEdge (indexOf v)).toNat : ℚ) - v.toNat < max 1 ((v.toNat : ℚ) / 64)) ∧
    (∀ v w : BitVec 64, w.toNat < 2 ^ 63 → v ≤ w → indexOf v ≤ indexOf w) ∧
    (∀ i, 0 < i → i < kBuckets → ∀ v : BitVec 64, v.toNat < 2 ^ 63 →
      (indexOf v = i ↔ upperEdge (i - 1) < v ∧ v ≤ upperEdge i)) ∧
    (∀ i < kBuckets, (i < kSub → (upperEdge i).toNat = i) ∧ (kSub ≤ i → NoOverflow i)) := by
  refine ⟨fun v hv => ?_, fun v w hw h => indexOf_mono hw h, fun i h0 hi v hv => indexOf_eq_iff hv h0 hi,
    fun i hi => ⟨fun h => ?_, fun h => noOverflow h hi⟩⟩
  · have hle : v ≤ upperEdge (indexOf v) := (indexOf_le_iff hv (indexOf_lt v)).mp (le_refl _)
    refine ⟨indexOf_lt v, hle, ?_⟩
    have hlt : 64 * ((upperEdge (indexOf v)).toNat - v.toNat) < max 64 v.toNat := upperEdge_indexOf_lt hv
    rw [← Nat.cast_sub (BitVec.le_def.mp hle)]
    generalize (upperEdge (indexOf v)).toNat - v.toNat = d at hlt ⊢
    rcases lt_max_iff.mp hlt with h | h
    · have hd : d = 0 := by omega
      rw [hd]
      exact lt_max_of_lt_left (by norm_num)
    · refine lt_max_of_lt_right ?_
      rw [lt_div_iff₀ (by norm_num), mul_comm]
      exact_mod_cast h
  · rw [upperEdge, if_pos h, BitVec.toNat_ofNat]
    rw [kBuckets_eq] at hi
    omega

end Rsm.Metrics
