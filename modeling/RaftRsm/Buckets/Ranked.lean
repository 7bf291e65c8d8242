/-
  File:      RaftRsm/Buckets/Ranked.lean
  Subject:   RANKS AND CUMULATIVE COUNTS: which element of a list in order stands at a position, told
             from how many elements fall in which bucket.

  * `lt_countP_iff` -- a property that holds up to some point of the list holds at position `k`
    exactly if more than `k` elements have it;
  * `below`, `below_succ` -- the cumulative count, and how it grows by one bucket;
  * **`lt_below_iff`** -- the count passes `k` exactly past the bucket of the element at `k`.
-/
import Mathlib.Data.Multiset.Count

namespace Ranked

variable {α : Type}

/-- **How many have a property tells where it ends**, in a list on which it ends once. -/
theorem lt_countP_iff {p : α → Prop} [DecidablePred p] : ∀ {l : List α},
    (l.Pairwise fun x y => p y → p x) → ∀ {k : ℕ} {x : α}, l[k]? = some x →
    (k < l.countP (fun x => decide (p x)) ↔ p x)
  | [], _, _, _, hk => by cases hk
  | a :: l, h, k, x, hk => by
      obtain ⟨ha, hl⟩ := List.pairwise_cons.mp h
      by_cases hp : p a
      · rw [List.countP_cons, if_pos (decide_eq_true hp)]
        cases k with
        | zero =>
            rw [List.getElem?_cons_zero] at hk
            cases hk
            exact iff_of_true (Nat.succ_pos _) hp
        | succ k =>
            rw [List.getElem?_cons_succ] at hk
            rw [Nat.succ_lt_succ_iff]
            exact lt_countP_iff hl hk
      · -- the property has ended before the list begins
        have hnone : ∀ y ∈ a :: l, ¬ p y := by
          intro y hy hpy
          rcases List.mem_cons.mp hy with rfl | hy
          · exact hp hpy
          · exact hp (ha y hy hpy)
        have hzero : (a :: l).countP (fun x => decide (p x)) = 0 :=
          List.countP_eq_zero.mpr fun y hy => by simpa using hnone y hy
        rw [hzero]
        exact iff_of_false (Nat.not_lt_zero k) (hnone x (List.mem_of_getElem? hk))

variable (s : Multiset α) (f : α → ℕ)

/-- How many elements fall in a bucket below `i`. -/
def below (i : ℕ) : ℕ := s.countP fun x => f x < i

variable {s f}

theorem below_zero : below s f 0 = 0 := Multiset.countP_eq_zero.mpr fun _ _ => Nat.not_lt_zero _

theorem below_le (i : ℕ) : below s f i ≤ s.card := Multiset.countP_le_card _ _

/-- The next bucket adds what it holds. -/
theorem below_succ (i : ℕ) : below s f (i + 1) = below s f i + s.countP fun x => f x = i := by
  unfold below
  induction s using Multiset.induction with
  | empty => rfl
  | cons a s ih =>
      simp only [Multiset.countP_cons]
      rw [ih]
      split_ifs <;> omega

/-- **The cumulative count passes `k` exactly past the bucket of the element at position `k`.** -/
theorem lt_below_iff {l : List α} (hl : (l : Multiset α) = s) (hmono : l.Pairwise fun x y => f x ≤ f y)
    {k i : ℕ} {x : α} (hk : l[k]? = some x) : k < below s f i ↔ f x < i := by
  subst hl
  unfold below
  rw [Multiset.coe_countP]
  exact lt_countP_iff (hmono.imp fun hxy hy => lt_of_le_of_lt hxy hy) hk

end Ranked
