/-
  File:      RaftRsm/Words/Counter.lean
  Subject:   COUNTERS THAT WRAP: what machine words that count up tell of the numbers they stand for, and
             where in a ring of `2 ^ k` places a position falls.

  * `count` -- the word of width `w` for a number;
  * `toNat_count_sub`, `count_eq_iff` -- differences and equality are exact as long as the numbers are less than
    `2 ^ w` apart;
  * `toInt_count_sub` -- and so are signed differences of words below half the range;
  * `toNat_count_and_mask` -- the place of a position; `mod_ne` -- positions less than a lap apart have
    different places; `exists_lap` -- each place has one position in every lap;
  * `bitCeil`, `exists_bitCeil` -- rounding a capacity up to a power of two;
  * `packed` -- two counters in one word: `packed_low` reads the low one, and `packed_high_eq_iff` tells
    whether the high one has moved.
-/
import Mathlib.Data.Nat.ModEq
import Mathlib.Data.BitVec

namespace Words

variable {w : ℕ}

/-- The word for a number. -/
def count (w n : ℕ) : BitVec w := BitVec.ofNat w n

theorem toNat_count {n : ℕ} (h : n < 2 ^ w) : (count w n).toNat = n := by
  rw [count, BitVec.toNat_ofNat, Nat.mod_eq_of_lt h]

/-- **Counting one up.** -/
theorem count_add (a b : ℕ) : count w a + count w b = count w (a + b) := (BitVec.ofNat_add a b).symm

/-- **The distance of two counters** is exact below `2 ^ w`. -/
theorem toNat_count_sub {a b : ℕ} (h : a ≤ b) (hlt : b < a + 2 ^ w) : (count w b - count w a).toNat = b - a := by
  have hb : count w b = count w a + count w (b - a) := by rw [count_add, Nat.add_sub_cancel' h]
  rw [hb, add_sub_cancel_left, toNat_count (by omega)]

/-- **Counters that are less than `2 ^ w` apart are equal only if the numbers are.** -/
theorem count_eq_iff {a b : ℕ} (h : a ≤ b) (hlt : b < a + 2 ^ w) : count w a = count w b ↔ a = b := by
  constructor
  · intro heq
    have hsub := toNat_count_sub h hlt
    rw [heq, BitVec.sub_self, BitVec.toNat_zero] at hsub
    omega
  · rintro rfl
    rfl

/-- **The place of a position** in a ring of `2 ^ k`. -/
theorem toNat_count_and_mask {k : ℕ} (hk : k ≤ w) (n : ℕ) :
    (count w n &&& count w (2 ^ k - 1)).toNat = n % 2 ^ k := by
  have hpos := Nat.two_pow_pos k
  have hle : 2 ^ k ≤ 2 ^ w := Nat.pow_le_pow_right Nat.two_pos hk
  rw [BitVec.toNat_and, toNat_count (show 2 ^ k - 1 < 2 ^ w by omega), Nat.and_two_pow_sub_one_eq_mod, count,
    BitVec.toNat_ofNat, Nat.mod_mod_of_dvd _ (Nat.pow_dvd_pow 2 hk)]

/-- The mask of a ring is one less than its length. -/
theorem toNat_mask_succ {k : ℕ} (hk : k ≤ w) : (count w (2 ^ k - 1)).toNat + 1 = 2 ^ k := by
  have hpos := Nat.two_pow_pos k
  have hle : 2 ^ k ≤ 2 ^ w := Nat.pow_le_pow_right Nat.two_pos hk
  rw [toNat_count (by omega), Nat.sub_add_cancel hpos]

/-- Positions less than a lap apart have different places. -/
theorem mod_ne {n i j : ℕ} (h : i < j) (hlt : j < i + n) : i % n ≠ j % n := by
  intro heq
  have hdvd : n ∣ j - i := (Nat.modEq_iff_dvd' h.le).mp heq
  have hle := Nat.le_of_dvd (by omega) hdvd
  omega

/-- **The signed difference of two words** below half the range. -/
theorem toInt_count_sub {a b : ℕ} (ha : 2 * a < 2 ^ w) (hb : 2 * b < 2 ^ w) :
    (count w a).toInt - (count w b).toInt = (a : ℤ) - b := by
  have hint : ∀ {n : ℕ}, 2 * n < 2 ^ w → (count w n).toInt = n := by
    intro n hn
    rw [BitVec.toInt_eq_toNat_of_lt (by rwa [toNat_count (by omega)]), toNat_count (by omega)]
  rw [hint ha, hint hb]

/-- Every place has a position in the lap that begins at `d`. -/
theorem exists_lap {n : ℕ} (hn : 0 < n) (d p : ℕ) : ∃ m, d ≤ m ∧ m < d + n ∧ m % n = p % n := by
  have hlt : d % n < n := Nat.mod_lt d hn
  refine ⟨d + (p + (n - d % n)) % n, Nat.le_add_right _ _, Nat.add_lt_add_left (Nat.mod_lt _ hn) d, ?_⟩
  have hround : (d + (p + (n - d % n))) % n = p % n := by
    have hd := Nat.div_add_mod d n
    have hsum : d + (p + (n - d % n)) = p + n * (d / n + 1) := by
      rw [Nat.mul_succ]
      omega
    rw [hsum, Nat.add_mul_mod_self_left]
  rw [Nat.add_mod, Nat.mod_mod, ← Nat.add_mod, hround]

/-- Rounding up to a power of two. -/
def bitCeil (n : ℕ) : ℕ := if n ≤ 1 then 1 else 2 ^ ((n - 1).log2 + 1)

theorem exists_bitCeil {n b : ℕ} (h2 : 2 ≤ n) (hn : n ≤ 2 ^ b) : ∃ k, 1 ≤ k ∧ k ≤ b ∧ bitCeil n = 2 ^ k := by
  have hlog : (n - 1).log2 < b := (Nat.log2_lt (by omega)).mpr (by omega)
  exact ⟨(n - 1).log2 + 1, by omega, by omega, if_neg (by omega)⟩

/-- **Two counters in one word**, the low one in the last `s` bits. -/
def packed (w s hi lo : ℕ) : BitVec w := count w (hi * 2 ^ s + lo)

theorem packed_zero (w s : ℕ) : packed w s 0 0 = 0 := by
  rw [packed, Nat.zero_mul]
  rfl

theorem packed_add_high (s hi lo : ℕ) : packed w s hi lo + count w (2 ^ s) = packed w s (hi + 1) lo := by
  rw [packed, packed, count_add, Nat.succ_mul, Nat.add_right_comm]

theorem packed_add_low (s hi lo : ℕ) : packed w s hi lo + 1 = packed w s hi (lo + 1) := count_add _ 1

theorem packed_sub_low (s hi lo : ℕ) : packed w s hi (lo + 1) - 1 = packed w s hi lo := by
  rw [← packed_add_low, add_sub_cancel_right]

theorem packed_low {s : ℕ} (hs : s ≤ w) (hi : ℕ) {lo : ℕ} (hlo : lo < 2 ^ s) :
    (packed w s hi lo &&& count w (2 ^ s - 1)).toNat = lo := by
  rw [packed, toNat_count_and_mask hs, Nat.mul_comm, Nat.mul_add_mod, Nat.mod_eq_of_lt hlo]

theorem packed_high {s : ℕ} (hs : s ≤ w) (hi : ℕ) {lo : ℕ} (hlo : lo < 2 ^ s) :
    (packed w s hi lo >>> s).toNat = hi % 2 ^ (w - s) := by
  have hw : 2 ^ w = 2 ^ s * 2 ^ (w - s) := by rw [← Nat.pow_add, Nat.add_sub_cancel' hs]
  have hdiv : (hi * 2 ^ s + lo) / 2 ^ s = hi := by
    rw [Nat.mul_comm, Nat.mul_add_div (Nat.two_pow_pos s), Nat.div_eq_of_lt hlo, Nat.add_zero]
  rw [BitVec.toNat_ushiftRight, Nat.shiftRight_eq_div_pow, packed, count, BitVec.toNat_ofNat, hw,
    Nat.mod_mul_right_div_self, hdiv]

/-- **The high counter is seen to move**, unless it has gone round. -/
theorem packed_high_eq_iff {s : ℕ} (hs : s ≤ w) (hi : ℕ) {d lo lo' : ℕ} (hlo : lo < 2 ^ s) (hlo' : lo' < 2 ^ s)
    (hd : d < 2 ^ (w - s)) : packed w s (hi + d) lo >>> s = packed w s hi lo' >>> s ↔ d = 0 := by
  rw [← BitVec.toNat_inj, packed_high hs _ hlo, packed_high hs _ hlo']
  constructor
  · intro heq
    by_contra hne
    exact mod_ne (Nat.lt_add_of_pos_right (Nat.pos_of_ne_zero hne)) (Nat.add_lt_add_left hd hi) heq.symm
  · rintro rfl
    rfl

end Words
