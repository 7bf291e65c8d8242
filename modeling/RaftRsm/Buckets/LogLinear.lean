/-
  File:      RaftRsm/Buckets/LogLinear.lean
  Subject:   LOG-LINEAR BUCKETS of the natural numbers, with `2 ^ b` linear steps to each doubling.

  A number is read as `m` steps of size `2 ^ e`: the size is 1 up to `2 ^ (b + 1)` and doubles with
  every further binary digit, so that `m` always has `b + 1` digits from there on. Buckets are
  numbered from below without a gap.

  * `index`, `edge` -- the bucket of a number, and the last number of a bucket;
  * **`galois`** -- the two are adjoint: a number lies in a bucket up to `i` exactly if it is at most
    the edge of `i`. Order, containment and the seams between the buckets are read off this;
  * `index_eq_iff` -- the numbers of a bucket are those past the edge before it, up to its own;
  * `edge_index_lt`, `scale_le` -- the edge of its bucket is less than a step away from a number, and a
    step is one or at most the `2 ^ b`-th part of the number.
-/
import Mathlib.Order.GaloisConnection.Basic
import Mathlib.Data.Nat.Log
import Mathlib.Algebra.Order.Monoid.Unbundled.Pow
import Mathlib.Algebra.Group.Nat.Defs

namespace LogLinear

variable (b : ℕ)

/-- The number of doublings of the step for the number `v`. -/
def scale (v : ℕ) : ℕ := v.log2 - b

/-- The bucket of `v`. -/
def index (v : ℕ) : ℕ := 2 ^ b * scale b v + v / 2 ^ scale b v

/-- The number of doublings of the step in the bucket `i`. -/
def scaleAt (i : ℕ) : ℕ := i / 2 ^ b - 1

/-- The number of steps in the numbers of the bucket `i`. -/
def steps (i : ℕ) : ℕ := i - 2 ^ b * scaleAt b i

/-- The last number of the bucket `i`. -/
def edge (i : ℕ) : ℕ := (steps b i + 1) * 2 ^ scaleAt b i - 1

variable {b} {v i : ℕ}

/-! ## 1. The two readings -/

theorem div_scale_lt : v / 2 ^ scale b v < 2 ^ (b + 1) := by
  refine Nat.div_lt_of_lt_mul ?_
  rw [← Nat.pow_add]
  refine lt_of_lt_of_le Nat.lt_log2_self (Nat.pow_le_pow_right Nat.two_pos ?_)
  unfold scale
  omega

theorem le_of_scale (h : 0 < scale b v) : 2 ^ b ≤ v := by
  have hv : v ≠ 0 := by
    rintro rfl
    exact absurd h (by simp [scale])
  refine le_trans (Nat.pow_le_pow_right Nat.two_pos ?_) (Nat.log2_self_le hv)
  unfold scale at h
  omega

theorem le_div_scale (h : 2 ^ b ≤ v) : 2 ^ b ≤ v / 2 ^ scale b v := by
  have hv : v ≠ 0 := Nat.ne_of_gt (lt_of_lt_of_le (Nat.two_pow_pos b) h)
  have hb : b ≤ v.log2 := (Nat.le_log2 hv).mpr h
  rw [Nat.le_div_iff_mul_le (Nat.two_pow_pos _), ← Nat.pow_add, scale, Nat.add_sub_cancel' hb]
  exact Nat.log2_self_le hv

theorem index_eq_steps : 2 ^ b * scaleAt b i + steps b i = i := by
  unfold steps scaleAt
  have h1 : 2 ^ b * (i / 2 ^ b - 1) ≤ 2 ^ b * (i / 2 ^ b) := Nat.mul_le_mul_left _ (Nat.sub_le _ _)
  have h2 := Nat.mul_div_le i (2 ^ b)
  omega

theorem steps_lt : steps b i < 2 ^ (b + 1) := by
  have hm := Nat.mod_lt i (Nat.two_pow_pos b)
  have hd := Nat.div_add_mod i (2 ^ b)
  have hs := index_eq_steps (b := b) (i := i)
  unfold scaleAt at hs
  rw [Nat.pow_succ]
  rcases Nat.eq_zero_or_pos (i / 2 ^ b) with h | h
  · rw [h] at hd hs
    omega
  · obtain ⟨k, hk⟩ : ∃ k, i / 2 ^ b = k + 1 := ⟨i / 2 ^ b - 1, by omega⟩
    rw [hk] at hd hs
    rw [Nat.add_sub_cancel] at hs
    rw [Nat.mul_succ] at hd
    omega

theorem le_steps (h : 0 < scaleAt b i) : 2 ^ b ≤ steps b i := by
  have hd := Nat.div_add_mod i (2 ^ b)
  have hs := index_eq_steps (b := b) (i := i)
  unfold scaleAt at hs h
  obtain ⟨k, hk⟩ : ∃ k, i / 2 ^ b = k + 1 := ⟨i / 2 ^ b - 1, by omega⟩
  rw [hk] at hd hs
  rw [Nat.add_sub_cancel] at hs
  rw [Nat.mul_succ] at hd
  omega

/-- A number of steps fewer than doublings apart: the smaller step reaches at most as far. -/
theorem steps_mul_le {m n d e : ℕ} (hm : m < 2 ^ (b + 1)) (hn : 2 ^ b ≤ n) (h : d < e) :
    (m + 1) * 2 ^ d ≤ n * 2 ^ e := by
  calc (m + 1) * 2 ^ d ≤ 2 ^ (b + 1) * 2 ^ d := Nat.mul_le_mul_right _ hm
    _ = 2 ^ b * 2 ^ (d + 1) := by rw [← Nat.pow_add, ← Nat.pow_add]; congr 1; omega
    _ ≤ n * 2 ^ e := Nat.mul_le_mul hn (Nat.pow_le_pow_right Nat.two_pos h)

theorem index_lt_of_scale {m n d e : ℕ} (hm : m < 2 ^ (b + 1)) (hn : 2 ^ b ≤ n) (h : d < e) :
    2 ^ b * d + m < 2 ^ b * e + n := by
  have hde : 2 ^ b * (d + 1) ≤ 2 ^ b * e := Nat.mul_le_mul_left _ h
  rw [Nat.mul_succ] at hde
  rw [Nat.pow_succ] at hm
  omega

theorem le_edge_iff : v ≤ edge b i ↔ v < (steps b i + 1) * 2 ^ scaleAt b i := by
  unfold edge
  have hpos : 0 < (steps b i + 1) * 2 ^ scaleAt b i := Nat.mul_pos (Nat.succ_pos _) (Nat.two_pow_pos _)
  omega

/-! ## 2. Adjointness -/

/-- **A number lies in a bucket up to `i` exactly if it is at most the edge of `i`.** -/
theorem galois : GaloisConnection (index b) (edge b) := by
  intro v i
  rw [le_edge_iff]
  -- which of the two has the larger step decides, and if neither has, the number of steps does
  rcases lt_trichotomy (scale b v) (scaleAt b i) with h | h | h
  · refine iff_of_true (le_of_lt ?_) ?_
    · rw [index, ← index_eq_steps (b := b) (i := i)]
      exact index_lt_of_scale div_scale_lt (le_steps (Nat.zero_lt_of_lt h)) h
    · have hv : v < (v / 2 ^ scale b v + 1) * 2 ^ scale b v :=
        (Nat.div_lt_iff_lt_mul (Nat.two_pow_pos _)).mp (Nat.lt_succ_self _)
      refine hv.trans_le ((steps_mul_le div_scale_lt (le_steps (Nat.zero_lt_of_lt h)) h).trans ?_)
      exact Nat.mul_le_mul_right _ (Nat.le_succ _)
  · rw [index, h, ← Nat.div_lt_iff_lt_mul (Nat.two_pow_pos _), Nat.lt_succ_iff]
    have hi := index_eq_steps (b := b) (i := i)
    omega
  · refine iff_of_false (not_le.mpr ?_) (not_lt.mpr ?_)
    · have hlt := index_lt_of_scale (steps_lt (i := i)) (le_div_scale (le_of_scale (Nat.zero_lt_of_lt h))) h
      rw [index_eq_steps] at hlt
      exact hlt
    · refine (steps_mul_le steps_lt (le_div_scale (le_of_scale (Nat.zero_lt_of_lt h))) h).trans ?_
      exact Nat.div_mul_le_self _ _

/-- **The numbers of a bucket** are those past the edge before it, up to its own. -/
theorem index_eq_iff (h : 0 < i) : index b v = i ↔ edge b (i - 1) < v ∧ v ≤ edge b i := by
  rw [← galois v i, ← not_le, ← galois v (i - 1)]
  omega

theorem scaleAt_index : scaleAt b (index b v) = scale b v := by
  have hpos := Nat.two_pow_pos b
  have hlt := div_scale_lt (b := b) (v := v)
  unfold scaleAt index
  rw [Nat.mul_add_div hpos]
  rcases Nat.eq_zero_or_pos (scale b v) with h | h
  · have h2 : v / 2 ^ scale b v / 2 ^ b < 2 := Nat.div_lt_of_lt_mul (by rw [← Nat.pow_succ]; exact hlt)
    omega
  · have h1 : v / 2 ^ scale b v / 2 ^ b = 1 :=
      Nat.div_eq_of_lt_le (by rw [Nat.one_mul]; exact le_div_scale (le_of_scale h))
        (by rw [Nat.mul_comm, ← Nat.pow_succ]; exact hlt)
    omega

/-- The edge of its bucket is less than a step away from a number. -/
theorem edge_index_lt : edge b (index b v) < v + 2 ^ scale b v := by
  have hsteps : steps b (index b v) = v / 2 ^ scale b v := by
    rw [steps, scaleAt_index, index, Nat.add_sub_cancel_left]
  have hdiv := Nat.div_mul_le_self v (2 ^ scale b v)
  have hpos := Nat.two_pow_pos (scale b v)
  rw [edge, scaleAt_index, hsteps, Nat.succ_mul]
  omega

/-- A step is a small part of the number, or one. -/
theorem scale_le : 2 ^ b * 2 ^ scale b v ≤ max (2 ^ b) v := by
  rcases Nat.eq_zero_or_pos (scale b v) with h | h
  · rw [h]
    omega
  · refine le_max_of_le_right ?_
    exact (Nat.mul_le_mul_right _ (le_div_scale (le_of_scale h))).trans (Nat.div_mul_le_self _ _)

end LogLinear
