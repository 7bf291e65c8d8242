/-
  File:      RaftRsm/Metrics/Quantiles.lean
  Subject:   QUANTILES: what `valueAtQuantile` reports about the values that were recorded.

  The header promises the edge of the bucket that holds the `⌈q * count⌉`-th recorded value. The code
  stops at the first bucket whose cumulative count passes the truncated product: that is the bucket
  of the promised value, unless `q * count` is a whole number below `count`. Then it is the bucket of
  the NEXT recorded value.

  * `Built h vs` -- `h` holds the values `vs`, recorded in any order over histograms merged in any way;
  * `Tallies`, `Built.tallies` -- what its counters are, along every such history;
  * `valueAtQuantile_eq` -- the value it reports, in terms of the values in order;
  * **`quantile_documented_iff`** -- it is the documented one exactly if, where `q * count` is a whole
    number below `count`, the next value's bucket or all values end within a 64th of the promised one;
  * `median_of_two_misreported` -- it is not for the median of 1 and 1000.
-/
import RaftRsm.Buckets.Ranked
import RaftRsm.Metrics.Histogram
import Mathlib.Data.Multiset.Sort
import Mathlib.Data.Multiset.Lattice
import Mathlib.Order.Lattice.Nat

namespace Rsm.Metrics

open Ranked

/-! ## 1. What was recorded -/

/-- **A histogram and the values it holds**: recorded one by one in any order, split over histograms
    and merged in any way. -/
inductive Built : LatencyHistogram → Multiset (BitVec 64) → Prop where
  | empty : Built .empty 0
  | record {h : LatencyHistogram} {vs : Multiset (BitVec 64)} (v : BitVec 64) (hb : Built h vs) :
      Built (h.record v) (v ::ₘ vs)
  | merge {h g : LatencyHistogram} {vs ws : Multiset (BitVec 64)} (hb : Built h vs) (gb : Built g ws) :
      Built (h.merge g) (vs + ws)

/-- The counters of a histogram tell how many values fall in each bucket and how many there are, as
    far as 64 bits do; its maximum is the largest value. -/
structure Tallies (h : LatencyHistogram) (vs : Multiset (BitVec 64)) : Prop where
  counts : ∀ i, h.counts i = BitVec.ofNat 64 (vs.countP fun v => indexOf v = i)
  total : h.total = BitVec.ofNat 64 vs.card
  max : h.max.toNat = (vs.map BitVec.toNat).sup

theorem toNat_larger (a b : BitVec 64) :
    (LatencyHistogram.larger a b).toNat = max a.toNat b.toNat := by
  unfold LatencyHistogram.larger
  split_ifs with h
  · exact (max_eq_right (Nat.le_of_lt (BitVec.lt_def.mp h))).symm
  · exact (max_eq_left (Nat.not_lt.mp fun hlt => h (BitVec.lt_def.mpr hlt))).symm

theorem toNat_smaller (a b : BitVec 64) :
    (LatencyHistogram.smaller a b).toNat = min a.toNat b.toNat := by
  unfold LatencyHistogram.smaller
  split_ifs with h
  · exact (min_eq_right (Nat.le_of_lt (BitVec.lt_def.mp h))).symm
  · exact (min_eq_left (Nat.not_lt.mp fun hlt => h (BitVec.lt_def.mpr hlt))).symm

theorem tallies_empty : Tallies .empty 0 := ⟨fun _ => rfl, rfl, rfl⟩

theorem Tallies.record {h : LatencyHistogram} {vs : Multiset (BitVec 64)} (hv : Tallies h vs)
    (v : BitVec 64) : Tallies (h.record v) (v ::ₘ vs) := by
  refine ⟨fun i => ?_, ?_, ?_⟩
  · rw [Multiset.countP_cons, BitVec.ofNat_add, ← hv.counts]
    dsimp only [LatencyHistogram.record]
    by_cases hi : indexOf v = i
    · rw [hi, Function.update_self, if_pos rfl]
      rfl
    · rw [Function.update_of_ne (Ne.symm hi), if_neg hi, BitVec.add_zero]
  · rw [Multiset.card_cons, BitVec.ofNat_add, ← hv.total]
    rfl
  · rw [Multiset.map_cons, Multiset.sup_cons, ← hv.max, sup_comm]
    exact toNat_larger _ _

theorem Tallies.merge {h g : LatencyHistogram} {vs ws : Multiset (BitVec 64)} (hv : Tallies h vs)
    (hw : Tallies g ws) : Tallies (h.merge g) (vs + ws) := by
  refine ⟨fun i => ?_, ?_, ?_⟩
  · rw [Multiset.countP_add, BitVec.ofNat_add, ← hv.counts, ← hw.counts]
    rfl
  · rw [Multiset.card_add, BitVec.ofNat_add, ← hv.total, ← hw.total]
    rfl
  · rw [Multiset.map_add, Multiset.sup_add, ← hv.max, ← hw.max]
    exact toNat_larger _ _

/-- **Along every history** the counters are those of the values. -/
theorem Built.tallies {h : LatencyHistogram} {vs : Multiset (BitVec 64)} (hb : Built h vs) :
    Tallies h vs := by
  induction hb with
  | empty => exact tallies_empty
  | record v _ ih => exact ih.record v
  | merge _ _ ihv ihw => exact ihv.merge ihw

theorem Tallies.toNat_total {h : LatencyHistogram} {vs : Multiset (BitVec 64)} (ht : Tallies h vs)
    (hcount : vs.card < 2 ^ 64) : h.total.toNat = vs.card := by
  rw [ht.total, BitVec.toNat_ofNat]
  exact Nat.mod_eq_of_lt hcount

/-! ## 2. Where the loop stops -/

/-- The values in order. -/
def sorted (vs : Multiset (BitVec 64)) : List (BitVec 64) := vs.sort (· ≤ ·)

/-- The `k`-th smallest value, counted from one. -/
def smallest (vs : Multiset (BitVec 64)) (k : ℕ) : BitVec 64 := (sorted vs).getD (k - 1) 0

section Scan

variable {h : LatencyHistogram} {vs : Multiset (BitVec 64)}

theorem length_sorted : (sorted vs).length = vs.card := Multiset.length_sort _

theorem sorted_getElem? {k : ℕ} (hk : k < vs.card) : (sorted vs)[k]? = some (smallest vs (k + 1)) := by
  have hlt : k < (sorted vs).length := by rwa [length_sorted]
  rw [smallest, Nat.add_sub_cancel, List.getD_eq_getElem?_getD, List.getElem?_eq_getElem hlt]
  rfl

theorem smallest_mem {k : ℕ} (hk : k < vs.card) : smallest vs (k + 1) ∈ vs :=
  (Multiset.mem_sort _).mp (List.mem_of_getElem? (sorted_getElem? hk))

theorem smallest_mono {j k : ℕ} (hjk : j ≤ k) (hk : k < vs.card) :
    smallest vs (j + 1) ≤ smallest vs (k + 1) := by
  rcases Nat.eq_or_lt_of_le hjk with rfl | hlt
  · exact BitVec.le_refl _
  · have hj := sorted_getElem? (hlt.trans hk)
    have hk := sorted_getElem? hk
    obtain ⟨hj', hj⟩ := List.getElem?_eq_some_iff.mp hj
    obtain ⟨hk', hk⟩ := List.getElem?_eq_some_iff.mp hk
    rw [← hj, ← hk]
    exact List.pairwise_iff_getElem.mp (Multiset.pairwise_sort vs _) j k hj' hk' hlt

/-- The largest value is the last in order. -/
theorem Tallies.max_eq (ht : Tallies h vs) (hne : vs ≠ 0) : h.max = smallest vs vs.card := by
  have hpos : 0 < vs.card := Multiset.card_pos.mpr hne
  obtain ⟨n, hn⟩ : ∃ n, vs.card = n + 1 := ⟨vs.card - 1, by omega⟩
  refine BitVec.eq_of_toNat_eq ?_
  rw [ht.max, hn]
  refine le_antisymm (Multiset.sup_le.mpr fun x hx => ?_) (Multiset.le_sup ?_)
  · obtain ⟨v, hv, rfl⟩ := Multiset.mem_map.mp hx
    obtain ⟨j, hj⟩ := List.mem_iff_getElem?.mp ((Multiset.mem_sort (r := (· ≤ ·))).mpr hv)
    have hlt : j < vs.card := by
      rw [← length_sorted]
      exact (List.getElem?_eq_some_iff.mp hj).1
    have hj' := sorted_getElem? hlt
    rw [sorted, hj] at hj'
    rw [Option.some.inj hj']
    exact BitVec.le_def.mp (smallest_mono (by omega) (by omega))
  · exact Multiset.mem_map_of_mem _ (smallest_mem (by omega))

theorem sorted_indexOf (hsmall : ∀ v ∈ vs, v.toNat < 2 ^ 63) :
    (sorted vs).Pairwise fun v w => indexOf v ≤ indexOf w := by
  refine List.Pairwise.imp_of_mem ?_ (Multiset.pairwise_sort vs (· ≤ ·))
  intro v w _ hw h
  exact indexOf_mono (hsmall w ((Multiset.mem_sort _).mp hw)) h

/-- **The loop stops at the bucket of the value at position `r`**, if it is told to stop once more than
    `r` values have been seen. -/
theorem scan_eq (ht : Tallies h vs) (hsmall : ∀ v ∈ vs, v.toNat < 2 ^ 63) (hcount : vs.card < 2 ^ 64)
    {rank : BitVec 64} {r : ℕ} {x : BitVec 64} (hx : (sorted vs)[r]? = some x)
    (hstop : ∀ n ≤ vs.card, (n > rank.toNat ∨ (n = vs.card ∧ n ≥ rank.toNat)) ↔ r < n) :
    ∀ m i, i + m = kBuckets → i ≤ indexOf x →
      h.scan rank (BitVec.ofNat 64 (below vs indexOf i)) (List.range' i m) =
        LatencyHistogram.smaller (upperEdge (indexOf x)) h.max
  | 0, i, him, hi => by
      have hlt := indexOf_lt x
      omega
  | m + 1, i, him, hi => by
      have hnext : BitVec.ofNat 64 (below vs indexOf i) + h.counts i =
          BitVec.ofNat 64 (below vs indexOf (i + 1)) := by
        rw [ht.counts, below_succ, BitVec.ofNat_add]
      have hle : below vs indexOf (i + 1) ≤ vs.card := below_le _
      have hseen : (BitVec.ofNat 64 (below vs indexOf (i + 1))).toNat = below vs indexOf (i + 1) := by
        rw [BitVec.toNat_ofNat]
        exact Nat.mod_eq_of_lt (hle.trans_lt hcount)
      -- the loop stops here exactly if the value falls in this bucket
      have hhere : (BitVec.ofNat 64 (below vs indexOf (i + 1)) > rank ∨
          (BitVec.ofNat 64 (below vs indexOf (i + 1)) = h.total ∧
            BitVec.ofNat 64 (below vs indexOf (i + 1)) ≥ rank)) ↔ indexOf x = i := by
        rw [← BitVec.toNat_inj, gt_iff_lt, ge_iff_le, BitVec.lt_def, BitVec.le_def, hseen, ht.toNat_total hcount,
          hstop _ hle,
          lt_below_iff (Multiset.sort_eq vs _) (sorted_indexOf hsmall) hx]
        omega
      rw [List.range'_succ, LatencyHistogram.scan, hnext]
      by_cases hxi : indexOf x = i
      · rw [if_pos (hhere.mpr hxi), hxi]
      · rw [if_neg fun hc => hxi (hhere.mp hc)]
        exact scan_eq ht hsmall hcount hx hstop m (i + 1) (by omega) (by omega)

/-- **What is reported**: the edge of the bucket of the value at the truncated product, counted from
    zero, or of the last value; but no more than the largest. -/
theorem valueAtQuantile_eq (ht : Tallies h vs) (hne : vs ≠ 0) (hsmall : ∀ v ∈ vs, v.toNat < 2 ^ 63)
    (hcount : vs.card < 2 ^ 64) {q : ℚ} (h0 : 0 < q) (h1 : q ≤ 1) :
    (h.valueAtQuantile q).toNat =
      min (upperEdge (indexOf (smallest vs (min ⌊q * vs.card⌋₊ (vs.card - 1) + 1)))).toNat
        (smallest vs vs.card).toNat := by
  have hpos : 0 < vs.card := Multiset.card_pos.mpr hne
  have htotal := ht.toNat_total hcount
  have hfloor : ⌊q * vs.card⌋₊ ≤ vs.card := by
    refine Nat.floor_le_of_le ?_
    exact mul_le_of_le_one_left (Nat.cast_nonneg _) h1
  have hrank : (BitVec.ofNat 64 ⌊q * vs.card⌋₊).toNat = ⌊q * vs.card⌋₊ := by
    rw [BitVec.toNat_ofNat]
    exact Nat.mod_eq_of_lt (hfloor.trans_lt hcount)
  have hnz : h.total ≠ 0 := by
    intro hz
    rw [hz] at htotal
    exact absurd htotal (Nat.ne_of_lt hpos)
  unfold LatencyHistogram.valueAtQuantile
  rw [if_neg hnz, if_neg (not_lt.mpr h0.le), if_neg (not_lt.mpr h1), htotal]
  dsimp only
  rw [Int.floor_toNat]
  have hx : (sorted vs)[min ⌊q * vs.card⌋₊ (vs.card - 1)]? =
      some (smallest vs (min ⌊q * vs.card⌋₊ (vs.card - 1) + 1)) := sorted_getElem? (by omega)
  have hstop : ∀ n ≤ vs.card, (n > (BitVec.ofNat 64 ⌊q * vs.card⌋₊).toNat ∨
      (n = vs.card ∧ n ≥ (BitVec.ofNat 64 ⌊q * vs.card⌋₊).toNat)) ↔ min ⌊q * vs.card⌋₊ (vs.card - 1) < n := by
    intro n hn
    rw [hrank]
    omega
  have hscan := scan_eq ht hsmall hcount hx hstop kBuckets 0 (Nat.zero_add _) (Nat.zero_le _)
  rw [below_zero, ← List.range_eq_range'] at hscan
  rw [← ht.max_eq hne, ← toNat_smaller, ← hscan]
  rfl

end Scan

/-! ## 3. What is documented -/

/-- **The documented quantile**: the report is at least the `⌈q * count⌉`-th recorded value, and past it
    by no more than a 64th. -/
def Documented (h : LatencyHistogram) (vs : Multiset (BitVec 64)) (q : ℚ) : Prop :=
  let t := (smallest vs ⌈q * vs.card⌉₊).toNat
  t ≤ (h.valueAtQuantile q).toNat ∧ 64 * ((h.valueAtQuantile q).toNat - t) ≤ t

/-- **Where `q * count` is a whole number `k` below `count`**, the bucket of the next recorded value
    ends within a 64th of the `k`-th, or all recorded values do. -/
def NextIsNear (vs : Multiset (BitVec 64)) (q : ℚ) : Prop :=
  ∀ k : ℕ, q * vs.card = k → k < vs.card →
    let t := (smallest vs k).toNat
    (upperEdge (indexOf (smallest vs (k + 1)))).toNat ≤ t + t / 64 ∨
      (smallest vs vs.card).toNat ≤ t + t / 64

theorem near_iff {x t : ℕ} : 64 * (x - t) ≤ t ↔ x ≤ t + t / 64 := by omega

/-- A value and what is reported for its own bucket. -/
theorem documented_own {vs : Multiset (BitVec 64)} (hsmall : ∀ v ∈ vs, v.toNat < 2 ^ 63) {k : ℕ}
    (hk : k < vs.card) {x : ℕ} (hx : x = min (upperEdge (indexOf (smallest vs (k + 1)))).toNat
      (smallest vs vs.card).toNat) :
    (smallest vs (k + 1)).toNat ≤ x ∧ 64 * (x - (smallest vs (k + 1)).toNat) ≤ (smallest vs (k + 1)).toNat := by
  have hv := hsmall _ (smallest_mem hk)
  have hedge := BitVec.le_def.mp ((indexOf_le_iff hv (indexOf_lt _)).mp (le_refl _))
  have hlast : (smallest vs (k + 1)).toNat ≤ (smallest vs (vs.card - 1 + 1)).toNat :=
    BitVec.le_def.mp (smallest_mono (by omega) (by omega))
  have hwidth := upperEdge_indexOf_lt hv
  have e : kSub = 64 := rfl
  rw [Nat.sub_add_cancel (Nat.one_le_of_lt hk)] at hlast
  rw [e] at hwidth
  omega

/-- **When the quantiles are the documented ones**: for every non-empty collection of fewer than `2 ^ 64`
    values below `2 ^ 63`, recorded and merged in any way, and every quantile, exactly if the value
    after the promised one is near wherever `q * count` is a whole number below `count`. -/
theorem quantile_documented_iff {h : LatencyHistogram} {vs : Multiset (BitVec 64)} (hb : Built h vs)
    (hne : vs ≠ 0) (hsmall : ∀ v ∈ vs, v.toNat < 2 ^ 63) (hcount : vs.card < 2 ^ 64) {q : ℚ}
    (h0 : 0 < q) (h1 : q ≤ 1) : Documented h vs q ↔ NextIsNear vs q := by
  have hpos : 0 < vs.card := Multiset.card_pos.mpr hne
  have hqpos : 0 < q * vs.card := mul_pos h0 (Nat.cast_pos.mpr hpos)
  have hqle : q * vs.card ≤ vs.card := mul_le_of_le_one_left (Nat.cast_nonneg _) h1
  have heq := valueAtQuantile_eq hb.tallies hne hsmall hcount h0 h1
  by_cases hwhole : ∃ k : ℕ, q * vs.card = k ∧ k < vs.card
  · -- the loop goes on to the bucket of the next value
    obtain ⟨k, hk, hlt⟩ := hwhole
    have hk0 : 0 < k := by
      rw [hk] at hqpos
      exact Nat.cast_pos.mp hqpos
    have hmin : min ⌊q * vs.card⌋₊ (vs.card - 1) = k := by
      rw [hk, Nat.floor_natCast]
      omega
    rw [hmin] at heq
    have hnext := documented_own hsmall hlt heq
    have horder := BitVec.le_def.mp (smallest_mono (j := k - 1) (k := k) (by omega) hlt)
    rw [Nat.sub_add_cancel hk0] at horder
    have hnear : NextIsNear vs q ↔ (h.valueAtQuantile q).toNat ≤
        (smallest vs k).toNat + (smallest vs k).toNat / 64 := by
      rw [heq, min_le_iff]
      refine ⟨fun hn => hn k hk hlt, fun hn j hj _ => ?_⟩
      obtain rfl : j = k := Nat.cast_injective (R := ℚ) (hj.symm.trans hk)
      exact hn
    rw [hnear, Documented, hk, Nat.ceil_natCast, near_iff]
    exact and_iff_right (horder.trans hnext.1)
  · -- the truncated product is the position of the promised value
    have hfloor := Nat.floor_le hqpos.le
    have hpromised : ⌈q * vs.card⌉₊ = min ⌊q * vs.card⌋₊ (vs.card - 1) + 1 := by
      rcases eq_or_lt_of_le hqle with hall | hlt
      · rw [hall, Nat.ceil_natCast, Nat.floor_natCast]
        omega
      · have hlow : ⌊q * vs.card⌋₊ < vs.card := (Nat.floor_lt hqpos.le).mpr hlt
        have hne : (⌊q * vs.card⌋₊ : ℚ) ≠ q * vs.card := fun he => hwhole ⟨_, he.symm, hlow⟩
        rw [Nat.min_eq_left (by omega), Nat.ceil_eq_iff (Nat.succ_ne_zero _), Nat.succ_sub_one,
          Nat.cast_succ]
        exact ⟨lt_of_le_of_ne hfloor hne, (Nat.lt_floor_add_one _).le⟩
    refine iff_of_true ?_ fun k hk hlt => absurd ⟨k, hk, hlt⟩ hwhole
    rw [Documented, hpromised]
    exact documented_own hsmall (by omega) heq

/-- The values 1 and 1000, recorded into one histogram. -/
def twoValues : LatencyHistogram := (LatencyHistogram.empty.record 1000).record 1

theorem twoValues_built : Built twoValues {1, 1000} := .record 1 (.record 1000 .empty)

theorem card_twoValues : Multiset.card ({1, 1000} : Multiset (BitVec 64)) = 2 := rfl

theorem sorted_twoValues : sorted {1, 1000} = [1, 1000] := by
  have hle : ∀ v ∈ ({1000} : Multiset (BitVec 64)), (1 : BitVec 64) ≤ v := by
    intro v hv
    rw [Multiset.mem_singleton.mp hv]
    decide
  have hsort : sorted {1, 1000} = 1 :: Multiset.sort {1000} (· ≤ ·) := Multiset.sort_cons _ _ _ hle
  rw [hsort, Multiset.sort_singleton]

/-- The first quartile of the two values is no whole number, and the documented one is reported. -/
theorem quantile_documented_iff_quartile : Documented twoValues {1, 1000} (1 / 4) := by
  have hsmall : ∀ v ∈ ({1, 1000} : Multiset (BitVec 64)), v.toNat < 2 ^ 63 := by
    intro v hv
    rcases Multiset.mem_cons.mp hv with rfl | hv
    · decide
    · rw [Multiset.mem_singleton.mp hv]
      decide
  have hcount : Multiset.card ({1, 1000} : Multiset (BitVec 64)) < 2 ^ 64 := by
    rw [card_twoValues]
    norm_num
  refine (quantile_documented_iff twoValues_built (Multiset.cons_ne_zero) hsmall hcount (by norm_num)
    (by norm_num)).mpr ?_
  intro k hk _
  rw [card_twoValues] at hk
  have hhalf : ((2 * k : ℕ) : ℚ) = (1 : ℕ) := by
    push_cast at hk ⊢
    linarith
  have hodd := Nat.cast_injective hhalf
  omega

/-- **The median of 1 and 1000 is reported as 1000**, and the documented one is the first of the two. -/
theorem median_of_two_misreported : Built twoValues {1, 1000} ∧
    (smallest {1, 1000} ⌈(1 / 2 : ℚ) * Multiset.card ({1, 1000} : Multiset (BitVec 64))⌉₊).toNat = 1 ∧
    (twoValues.valueAtQuantile (1 / 2)).toNat = 1000 ∧ ¬ Documented twoValues {1, 1000} (1 / 2) := by
  have hceil : ⌈(1 / 2 : ℚ) * Multiset.card ({1, 1000} : Multiset (BitVec 64))⌉₊ = 1 := by
    rw [card_twoValues]
    norm_num
  have hfirst : smallest {1, 1000} 1 = 1 := by
    rw [smallest, sorted_twoValues]
    rfl
  have hmedian : twoValues.valueAtQuantile (1 / 2) = 1000 := by decide +kernel
  have hvalue : (twoValues.valueAtQuantile (1 / 2)).toNat = 1000 := by
    rw [hmedian]
    rfl
  have hone : (smallest {1, 1000} ⌈(1 / 2 : ℚ) * Multiset.card ({1, 1000} : Multiset (BitVec 64))⌉₊).toNat = 1 := by
    rw [hceil, hfirst]
    rfl
  refine ⟨twoValues_built, hone, hvalue, ?_⟩
  unfold Documented
  rw [hone, hvalue]
  decide

end Rsm.Metrics
