/-
  File:      RaftRsm/Checksum/ShiftRegister.lean
  Subject:   CYCLIC CHECKSUMS as a shift register over bits, of any width and for any reflected polynomial.

  The register takes the bits of a message one after the other, each into its lowest place, and moves
  down by one: what falls out at the bottom comes back as the polynomial. That is division by the
  polynomial over the field of two elements, but nothing of it is needed here: the register is linear
  (`shift_xor`) and, if the polynomial has its top bit, no two states move to the same one
  (`shift_injective`).

  * `shift`, `feed` -- one move, and a message;
  * `iterate_shift_table` -- `n` moves at once, by a table over the lowest `n` bits;
  * `feed_eq` -- a message no longer than the register goes in at once;
  * `feed_injective`, `feed_word_injective` -- a message separates states, and a register separates
    messages no longer than itself;
  * **`feed_ne_of_burst`** -- messages of one length that differ only in a window as long as the register
    leave it in different states.
-/
import Mathlib.Logic.Function.Iterate
import Mathlib.Data.List.GetD
import Mathlib.Data.List.Basic
import Mathlib.Tactic.SplitIfs

namespace ShiftRegister

variable {w : ℕ} (poly : BitVec w)

/-! ## 1. One move -/

/-- One move of the register. -/
def shift (c : BitVec w) : BitVec w := if c.getLsbD 0 then poly ^^^ (c >>> 1) else c >>> 1

theorem getLsbD_shift (c : BitVec w) (i : ℕ) :
    (shift poly c).getLsbD i = ((c.getLsbD 0 && poly.getLsbD i) ^^ c.getLsbD (1 + i)) := by
  unfold shift
  split_ifs with h
  · rw [BitVec.getLsbD_xor, BitVec.getLsbD_ushiftRight, h, Bool.true_and]
  · rw [BitVec.getLsbD_ushiftRight, (Bool.not_eq_true _).mp h, Bool.false_and, Bool.false_xor]

/-- **The register is linear.** -/
theorem shift_xor (a b : BitVec w) : shift poly (a ^^^ b) = shift poly a ^^^ shift poly b := by
  refine BitVec.eq_of_getLsbD_eq fun i _ => ?_
  simp only [getLsbD_shift, BitVec.getLsbD_xor]
  cases a.getLsbD 0 <;> cases b.getLsbD 0 <;> cases poly.getLsbD i <;> simp

theorem iterate_shift_xor (n : ℕ) (a b : BitVec w) :
    (shift poly)^[n] (a ^^^ b) = (shift poly)^[n] a ^^^ (shift poly)^[n] b := by
  induction n generalizing a b with
  | zero => rfl
  | succ n ih => rw [Function.iterate_succ_apply, Function.iterate_succ_apply, Function.iterate_succ_apply,
      shift_xor, ih]

/-- **No two states move to the same one**, if the polynomial has its top bit: the bit that falls out is
    found there. -/
theorem shift_injective (hp : poly.getLsbD (w - 1) = true) : Function.Injective (shift poly) := by
  intro a b hab
  have hbit : ∀ i, (shift poly a).getLsbD i = (shift poly b).getLsbD i := fun i => by rw [hab]
  simp only [getLsbD_shift] at hbit
  have hlow : a.getLsbD 0 = b.getLsbD 0 := by
    have htop := hbit (w - 1)
    rw [hp, BitVec.getLsbD_of_ge a (1 + (w - 1)) (by omega),
      BitVec.getLsbD_of_ge b (1 + (w - 1)) (by omega)] at htop
    simpa using htop
  refine BitVec.eq_of_getLsbD_eq fun i _ => ?_
  cases i with
  | zero => exact hlow
  | succ i =>
      have hi := hbit i
      rw [hlow, Bool.xor_right_inj, Nat.add_comm] at hi
      exact hi

/-- A state without its lowest `n` bits only moves down. -/
theorem iterate_shift_high {n : ℕ} {c : BitVec w} (h : ∀ i < n, c.getLsbD i = false) :
    (shift poly)^[n] c = c >>> n := by
  induction n with
  | zero => simp
  | succ n ih =>
      have hlow : (c >>> n).getLsbD 0 = false := by
        rw [BitVec.getLsbD_ushiftRight]
        exact h n (Nat.lt_succ_self n)
      rw [Function.iterate_succ_apply', ih fun i hi => h i (Nat.lt_succ_of_lt hi), shift, hlow,
        if_neg Bool.false_ne_true, BitVec.shiftRight_add]

/-- **Moves by a table**: `n` of them are those of the lowest `n` bits, and the rest moved down. -/
theorem iterate_shift_table {n : ℕ} {mask : BitVec w} (hm : ∀ i < w, mask.getLsbD i = decide (i < n))
    (c : BitVec w) : (shift poly)^[n] c = (shift poly)^[n] (c &&& mask) ^^^ (c >>> n) := by
  have hsplit : c = (c &&& mask) ^^^ (c &&& ~~~mask) := by
    refine BitVec.eq_of_getLsbD_eq fun i hi => ?_
    simp only [BitVec.getLsbD_xor, BitVec.getLsbD_and, BitVec.getLsbD_not, hi, decide_true, Bool.true_and]
    cases c.getLsbD i <;> cases mask.getLsbD i <;> rfl
  have hhigh : ∀ i < n, (c &&& ~~~mask).getLsbD i = false := by
    intro i hi
    by_cases hw : i < w
    · rw [BitVec.getLsbD_and, BitVec.getLsbD_not, hm i hw, decide_eq_true hi, Bool.not_true,
        Bool.and_false, Bool.and_false]
    · exact BitVec.getLsbD_of_ge _ _ (Nat.not_lt.mp hw)
  have hrest : (c &&& ~~~mask) >>> n = c >>> n := by
    refine BitVec.eq_of_getLsbD_eq fun i _ => ?_
    rw [BitVec.getLsbD_ushiftRight, BitVec.getLsbD_ushiftRight]
    by_cases hw : n + i < w
    · rw [BitVec.getLsbD_and, BitVec.getLsbD_not, hm _ hw, decide_eq_true hw,
        decide_eq_false (by omega), Bool.not_false, Bool.and_true, Bool.and_true]
    · rw [BitVec.getLsbD_of_ge _ _ (Nat.not_lt.mp hw), BitVec.getLsbD_of_ge _ _ (Nat.not_lt.mp hw)]
  conv_lhs => rw [hsplit]
  rw [iterate_shift_xor, iterate_shift_high poly hhigh, hrest]

/-! ## 2. Messages -/

/-- The bits as a word, the first of them lowest. -/
def word (w : ℕ) (bits : List Bool) : BitVec w := (BitVec.ofBoolListLE bits).setWidth w

theorem getLsbD_word (bits : List Bool) {i : ℕ} (hi : i < w) :
    (word w bits).getLsbD i = bits.getD i false := by
  rw [word, BitVec.getLsbD_setWidth, decide_eq_true hi, Bool.true_and, BitVec.getLsbD_ofBoolListLE]

/-- **A message goes in bit by bit.** -/
def feed (s : BitVec w) (bits : List Bool) : BitVec w :=
  bits.foldl (fun s b => shift poly (s ^^^ word w [b])) s

theorem feed_append (s : BitVec w) (a b : List Bool) :
    feed poly s (a ++ b) = feed poly (feed poly s a) b := List.foldl_append

/-- A bit goes in before the rest of its word. -/
theorem shift_word_cons (s : BitVec w) (b : Bool) {bits : List Bool} (h : bits.length < w) :
    shift poly (s ^^^ word w (b :: bits)) = shift poly (s ^^^ word w [b]) ^^^ word w bits := by
  refine BitVec.eq_of_getLsbD_eq fun i hi => ?_
  have h0 : 0 < w := Nat.zero_lt_of_lt hi
  have hrest : (word w (b :: bits)).getLsbD (1 + i) = bits.getD i false := by
    by_cases hw : 1 + i < w
    · rw [getLsbD_word _ hw, Nat.add_comm, List.getD_cons_succ]
    · rw [BitVec.getLsbD_of_ge _ _ (Nat.not_lt.mp hw), List.getD_eq_default _ _ (by omega)]
  have hone : (word w [b]).getLsbD (1 + i) = false := by
    by_cases hw : 1 + i < w
    · rw [getLsbD_word _ hw, Nat.add_comm, List.getD_cons_succ, List.getD_nil]
    · exact BitVec.getLsbD_of_ge _ _ (Nat.not_lt.mp hw)
  simp only [getLsbD_shift, BitVec.getLsbD_xor, hrest, hone, getLsbD_word _ h0, getLsbD_word _ hi,
    List.getD_cons_zero, Bool.xor_false, Bool.xor_assoc]

/-- **A message no longer than the register goes in at once.** -/
theorem feed_eq {bits : List Bool} (h : bits.length ≤ w) (s : BitVec w) :
    feed poly s bits = (shift poly)^[bits.length] (s ^^^ word w bits) := by
  induction bits generalizing s with
  | nil =>
      have hzero : word w [] = 0#w := by
        refine BitVec.eq_of_getLsbD_eq fun i hi => ?_
        rw [getLsbD_word _ hi, List.getD_nil, BitVec.getLsbD_zero]
      rw [hzero, BitVec.xor_zero]
      rfl
  | cons b bits ih =>
      rw [List.length_cons] at h ⊢
      rw [Function.iterate_succ_apply, shift_word_cons poly s b h, ← ih (Nat.le_of_succ_le h)]
      rfl

variable {poly} (hp : poly.getLsbD (w - 1) = true)

include hp in
/-- **A message separates states.** -/
theorem feed_injective (bits : List Bool) : Function.Injective fun s => feed poly s bits := by
  induction bits with
  | nil => exact fun _ _ h => h
  | cons b bits ih =>
      intro s t h
      have hs := shift_injective poly hp (ih h)
      exact (BitVec.xor_left_inj _).mp hs

include hp in
/-- **A register separates messages no longer than itself**, of one length. -/
theorem feed_word_injective {s : BitVec w} {a b : List Bool} (hlen : a.length = b.length)
    (hw : a.length ≤ w) (h : feed poly s a = feed poly s b) : a = b := by
  rw [feed_eq poly hw, feed_eq poly (hlen ▸ hw), ← hlen] at h
  have hword := (BitVec.xor_right_inj _).mp ((shift_injective poly hp).iterate a.length h)
  refine List.ext_getElem hlen fun i ha hb => ?_
  have hi : i < w := Nat.lt_of_lt_of_le ha hw
  have hbit := congrArg (fun x => BitVec.getLsbD x i) hword
  rwa [getLsbD_word _ hi, getLsbD_word _ hi, List.getD_eq_getElem _ _ ha, List.getD_eq_getElem _ _ hb] at hbit

/-- What two lists have in common before and behind a window. -/
theorem split_window {α : Type} {a b : List α} {p n : ℕ}
    (hdiff : ∀ k, a[k]? ≠ b[k]? → p ≤ k ∧ k < p + n) :
    a.take p = b.take p ∧ a.drop (p + n) = b.drop (p + n) := by
  constructor
  · refine List.ext_getElem? fun k => ?_
    rw [List.getElem?_take, List.getElem?_take]
    split_ifs with hk
    · by_contra hne
      exact absurd (hdiff k hne).1 (Nat.not_le.mpr hk)
    · rfl
  · refine List.ext_getElem? fun k => ?_
    rw [List.getElem?_drop, List.getElem?_drop]
    by_contra hne
    exact absurd (hdiff _ hne).2 (by omega)

include hp in
/-- **Every short burst is seen**: messages of one length that differ, all differing bits within a window
    as long as the register, leave it in different states. -/
theorem feed_ne_of_burst {s : BitVec w} {a b : List Bool} {p : ℕ} (hlen : a.length = b.length)
    (hdiff : ∀ k, a[k]? ≠ b[k]? → p ≤ k ∧ k < p + w) (hne : a ≠ b) : feed poly s a ≠ feed poly s b := by
  obtain ⟨hbefore, hbehind⟩ := split_window hdiff
  have hcut : ∀ l : List Bool, l = l.take p ++ ((l.drop p).take w ++ l.drop (p + w)) := by
    intro l
    rw [← List.drop_drop, List.take_append_drop, List.take_append_drop]
  intro h
  rw [hcut a, hcut b, feed_append, feed_append, feed_append, feed_append, hbefore, hbehind] at h
  have hwindow := feed_word_injective hp (by simp [hlen]) (List.length_take_le _ _)
    (feed_injective hp _ h)
  exact hne (by rw [hcut a, hcut b, hbefore, hwindow, hbehind])

end ShiftRegister
