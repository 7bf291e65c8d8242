/-
  File:      RaftRsm/Replication/Splice.lean
  Subject:   SPLICING entries into a log: skip what is there, cut at the first entry of another term,
             append the rest.

  * `splice_fits`, `splice_conflict` -- the two things a splice can be;
  * `take_splice`, `splice_again` -- what lies below is left, and a second splice does nothing;
  * `commonLength` -- how far two logs are the same;
  * `Matching`, `Closer` -- equal terms at one place mean equal logs up to it; and what a splice of a part
    of `L` does to a log that matches it: no entry of `L` is lost.
-/
import Mathlib.Data.List.Basic
import Mathlib.Data.List.Infix
import Mathlib.Data.Nat.Find

namespace Replication

variable {E : Type*}

/-! ## 1. Splicing -/

section Splice

variable (term : E → ℕ)

/-- The entries `es` in `F` from position `i` on. -/
def splice (F : List E) : ℕ → List E → List E
  | _, [] => F
  | i, e :: es =>
      match F[i]? with
      | none => F ++ e :: es
      | some f => if term f = term e then splice F (i + 1) es else F.take i ++ e :: es

/-- Where both reach, the terms are the same, for the first `k` entries. -/
def FitsFor (F : List E) (i : ℕ) (es : List E) (k : ℕ) : Prop :=
  ∀ j < k, ∀ e f, es[j]? = some e → F[i + j]? = some f → term f = term e

variable {term} {F : List E} {i j k : ℕ} {e f : E} {es : List E}

theorem FitsFor.tail (h : FitsFor term F i (e :: es) (k + 1)) : FitsFor term F (i + 1) es k := by
  intro j hj e' f' he hf
  rw [Nat.add_right_comm] at hf
  exact h (j + 1) (Nat.succ_lt_succ hj) e' f' (by rwa [List.getElem?_cons_succ]) hf

/-- **Entries that are there are skipped**, and what is missing is appended. -/
theorem splice_fits : ∀ {es : List E} {i : ℕ}, i ≤ F.length → FitsFor term F i es es.length →
    splice term F i es = F ++ es.drop (F.length - i)
  | [], i, _, _ => by rw [List.drop_nil, List.append_nil]; rfl
  | e :: es, i, hi, h => by
      unfold splice
      cases hf : F[i]? with
      | none =>
          have hlen : F.length - i = 0 := Nat.sub_eq_zero_of_le (List.getElem?_eq_none_iff.mp hf)
          rw [hlen]
          rfl
      | some f =>
          have hlt := (List.getElem?_eq_some_iff.mp hf).1
          have ht := h 0 (Nat.succ_pos _) e f rfl hf
          have hlen : F.length - i = (F.length - (i + 1)) + 1 := by omega
          dsimp only
          rw [if_pos ht, splice_fits hlt h.tail, hlen, List.drop_succ_cons]

/-- **At the first entry of another term the log is cut.** -/
theorem splice_conflict : ∀ {j i : ℕ} {es : List E}, es[j]? = some e → F[i + j]? = some f →
    term f ≠ term e → FitsFor term F i es j → splice term F i es = F.take (i + j) ++ es.drop j
  | 0, i, e' :: es, he, hf, hne, _ => by
      rw [List.getElem?_cons_zero, Option.some_inj] at he
      subst he
      unfold splice
      rw [show F[i]? = some f from hf]
      dsimp only
      rw [if_neg hne]
      rfl
  | j + 1, i, e' :: es, he, hf, hne, h => by
      have hlt : i < F.length := by
        have := (List.getElem?_eq_some_iff.mp hf).1
        omega
      have ht := h 0 (Nat.succ_pos _) e' F[i] rfl (List.getElem?_eq_getElem hlt)
      rw [List.getElem?_cons_succ] at he
      unfold splice
      rw [List.getElem?_eq_getElem hlt]
      dsimp only
      have hij : i + 1 + j = i + (j + 1) := by omega
      rw [if_pos ht, splice_conflict he (hij ▸ hf) hne h.tail, hij]
      rfl

/-- All of them fit, or there is a first one that does not. -/
theorem fits_or_conflict (term : E → ℕ) (F : List E) (i : ℕ) (es : List E) :
    FitsFor term F i es es.length ∨ ∃ j e f, es[j]? = some e ∧ F[i + j]? = some f ∧ term f ≠ term e ∧
      FitsFor term F i es j := by
  classical
  by_cases h : ∃ j e f, es[j]? = some e ∧ F[i + j]? = some f ∧ term f ≠ term e
  · obtain ⟨e, f, he, hf, hne⟩ := Nat.find_spec h
    refine .inr ⟨Nat.find h, e, f, he, hf, hne, fun k hk e' f' he' hf' => ?_⟩
    by_contra hne'
    exact Nat.find_min h hk ⟨e', f', he', hf', hne'⟩
  · refine .inl fun j _ e f he hf => ?_
    by_contra hne
    exact h ⟨j, e, f, he, hf, hne⟩

/-- **What lies below is left.** -/
theorem take_splice (hi : i ≤ F.length) (es : List E) : (splice term F i es).take i = F.take i := by
  rcases fits_or_conflict term F i es with h | ⟨j, e, f, he, hf, hne, h⟩
  · rw [splice_fits hi h, List.take_append_of_le_length hi]
  · have hlt := (List.getElem?_eq_some_iff.mp hf).1
    have hlen : i ≤ (F.take (i + j)).length := by
      rw [List.length_take]
      omega
    rw [splice_conflict he hf hne h, List.take_append_of_le_length hlen, List.take_take,
      Nat.min_eq_left (Nat.le_add_right i j)]

/-- The entries are in the result, up to their terms. -/
theorem fits_splice (term : E → ℕ) (hi : i ≤ F.length) (es : List E) :
    i + es.length ≤ (splice term F i es).length ∧ FitsFor term (splice term F i es) i es es.length := by
  rcases fits_or_conflict term F i es with h | ⟨j, e, f, he, hf, hne, h⟩
  · rw [splice_fits hi h]
    refine ⟨by rw [List.length_append, List.length_drop]; omega, fun k hk x y hx hy => ?_⟩
    by_cases hlt : i + k < F.length
    · rw [List.getElem?_append_left hlt] at hy
      exact h k hk x y hx hy
    · rw [List.getElem?_append_right (Nat.le_of_not_lt hlt), List.getElem?_drop] at hy
      have hk' : F.length - i + (i + k - F.length) = k := by omega
      rw [hk', hx] at hy
      rw [Option.some_inj.mp hy]
  · have hlt := (List.getElem?_eq_some_iff.mp hf).1
    have hj := (List.getElem?_eq_some_iff.mp he).1
    have htake : (F.take (i + j)).length = i + j := List.length_take_of_le (Nat.le_of_lt hlt)
    rw [splice_conflict he hf hne h]
    refine ⟨by rw [List.length_append, List.length_drop, htake]; omega, fun k hk x y hx hy => ?_⟩
    by_cases hkj : k < j
    · rw [List.getElem?_append_left (by omega), List.getElem?_take_of_lt (by omega)] at hy
      exact h k hkj x y hx hy
    · rw [List.getElem?_append_right (by omega), htake, List.getElem?_drop] at hy
      have hk' : j + (i + k - (i + j)) = k := by omega
      rw [hk', hx] at hy
      rw [Option.some_inj.mp hy]

/-- **A second splice of the same entries does nothing.** -/
theorem splice_again (hi : i ≤ F.length) (es : List E) :
    splice term (splice term F i es) i es = splice term F i es := by
  obtain ⟨hlen, hfits⟩ := fits_splice term hi es
  have hdrop : es.drop ((splice term F i es).length - i) = [] := List.drop_eq_nil_of_le (by omega)
  rw [splice_fits (by omega) hfits, hdrop, List.append_nil]

end Splice

/-! ## 2. How far two logs are the same -/

/-- The length of the longest common beginning. -/
def commonLength [DecidableEq E] : List E → List E → ℕ
  | a :: as, b :: bs => if a = b then commonLength as bs + 1 else 0
  | _, _ => 0

theorem le_commonLength_iff [DecidableEq E] : ∀ {F L : List E} {k : ℕ}, k ≤ commonLength F L ↔
    k ≤ F.length ∧ k ≤ L.length ∧ F.take k = L.take k
  | _, _, 0 => by simp
  | [], _, k + 1 => by simp [commonLength]
  | _ :: _, [], k + 1 => by simp [commonLength]
  | a :: as, b :: bs, k + 1 => by
      unfold commonLength
      split_ifs with hab
      · rw [Nat.succ_le_succ_iff, le_commonLength_iff]
        simp [hab]
      · simp [hab]

/-! ## 3. Parts of one log -/

section Matching

variable (term : E → ℕ)

/-- Equal terms at one place mean equal logs up to it. -/
def Matching (F L : List E) : Prop :=
  ∀ (i : ℕ) (e f : E), F[i]? = some e → L[i]? = some f → term e = term f → F.take (i + 1) = L.take (i + 1)

variable {term} {F R S L : List E} {i n : ℕ}

theorem matching_take (term : E → ℕ) (L : List E) (m : ℕ) : Matching term (L.take m) L := by
  intro i e f he hf _
  have hlt := (List.getElem?_eq_some_iff.mp he).1
  rw [List.length_take] at hlt
  rw [List.take_take, Nat.min_eq_left (by omega)]

/-- Entries of `L` that fit where the logs are the same: they are the same further. -/
theorem take_eq_of_fits (hM : Matching term F L) (hp : F.take i = L.take i) {k : ℕ}
    (h : FitsFor term F i ((L.drop i).take n) k) (hF : i + k ≤ F.length) (hk : k ≤ ((L.drop i).take n).length) :
    F.take (i + k) = L.take (i + k) := by
  cases k with
  | zero => exact hp
  | succ k =>
      have hlt : i + k < F.length := hF
      rw [List.length_take, List.length_drop] at hk
      have hL : i + k < L.length := by omega
      have he : ((L.drop i).take n)[k]? = some L[i + k] := by
        rw [List.getElem?_take_of_lt (by omega), List.getElem?_drop, List.getElem?_eq_getElem hL]
      have ht := h k (Nat.lt_succ_self k) _ _ he (List.getElem?_eq_getElem hlt)
      exact hM (i + k) _ _ (List.getElem?_eq_getElem hlt) (List.getElem?_eq_getElem hL) ht

/-- The part of `L` behind what is there already. -/
theorem take_append_window {a : ℕ} (ha : i ≤ a) (hae : a ≤ i + ((L.drop i).take n).length) :
    L.take a ++ ((L.drop i).take n).drop (a - i) = L.take (i + ((L.drop i).take n).length) := by
  rw [List.length_take, List.length_drop] at hae ⊢
  have hia : i + (a - i) = a := by omega
  rw [List.drop_take, List.drop_drop, hia, ← List.take_add, List.take_eq_take_iff]
  omega

variable (term) [DecidableEq E]

/-- **From `F` to `R` nothing of `L` is lost.** -/
structure Closer (L F R : List E) : Prop where
  common : commonLength F L ≤ commonLength R L
  kept : ∀ (i : ℕ) (e : E), F[i]? = some e → L[i]? = some e → R[i]? = some e
  matching : Matching term F L → Matching term R L

variable {term}

theorem Closer.refl (L F : List E) : Closer term L F F := ⟨Nat.le_refl _, fun _ _ h _ => h, id⟩

theorem Closer.trans (h : Closer term L F R) (k : Closer term L R S) : Closer term L F S :=
  ⟨h.common.trans k.common, fun i e hF hL => k.kept i e (h.kept i e hF hL) hL,
    fun hm => k.matching (h.matching hm)⟩

theorem commonLength_take {m : ℕ} (hm : m ≤ L.length) : m ≤ commonLength (L.take m) L :=
  le_commonLength_iff.mpr ⟨by rw [List.length_take_of_le hm], hm, by rw [List.take_take, Nat.min_self]⟩

/-- Beyond the common beginning no entry of a matching log is the same. -/
theorem Matching.lt_commonLength (hM : Matching term F L) {e : E} (hF : F[i]? = some e)
    (hL : L[i]? = some e) : i < commonLength F L :=
  le_commonLength_iff.mpr ⟨(List.getElem?_eq_some_iff.mp hF).1, (List.getElem?_eq_some_iff.mp hL).1,
    hM i e e hF hL rfl⟩

/-- A longer beginning of `L` in the place of `F`. -/
theorem closer_take (hM : Matching term F L) {m : ℕ} (hm : m ≤ L.length) (h : commonLength F L ≤ m) :
    Closer term L F (L.take m) := by
  refine ⟨h.trans (commonLength_take hm), fun i e hF hL => ?_, fun _ => matching_take term L m⟩
  have hlt := hM.lt_commonLength hF hL
  rw [List.getElem?_take_of_lt (by omega)]
  exact hL

/-- **A splice of a part of `L` loses nothing of `L`.** -/
theorem closer_splice (hM : Matching term F L) (hp : F.take i = L.take i) (hF : i ≤ F.length) (hL : i ≤ L.length) :
    Closer term L F (splice term F i ((L.drop i).take n)) := by
  have hend : i + ((L.drop i).take n).length ≤ L.length := by
    rw [List.length_take, List.length_drop]
    omega
  rcases fits_or_conflict term F i ((L.drop i).take n) with h | ⟨j, e, f, he, hf, hne, h⟩
  · rw [splice_fits hF h]
    by_cases hlong : i + ((L.drop i).take n).length ≤ F.length
    · rw [List.drop_eq_nil_of_le (by omega), List.append_nil]
      exact Closer.refl L F
    · -- the log ends among the entries: it is a beginning of `L`
      have hfit : FitsFor term F i ((L.drop i).take n) (F.length - i) := fun j hj => h j (by omega)
      have hsame := take_eq_of_fits hM hp hfit (by omega) (by omega)
      have hia : i + (F.length - i) = F.length := by omega
      rw [hia, List.take_length] at hsame
      have hR : F ++ ((L.drop i).take n).drop (F.length - i) = L.take (i + ((L.drop i).take n).length) := by
        rw [← take_append_window hF (by omega), ← hsame]
      rw [hR]
      refine closer_take hM hend ?_
      have := (le_commonLength_iff.mp (Nat.le_refl (commonLength F L))).1
      omega
  · have hlt := (List.getElem?_eq_some_iff.mp hf).1
    have hj := (List.getElem?_eq_some_iff.mp he).1
    have hsame := take_eq_of_fits hM hp h (Nat.le_of_lt hlt) (Nat.le_of_lt hj)
    have hR : F.take (i + j) ++ ((L.drop i).take n).drop j = L.take (i + ((L.drop i).take n).length) := by
      have hwin := take_append_window (L := L) (n := n) (Nat.le_add_right i j) (by omega)
      rw [Nat.add_sub_cancel_left] at hwin
      rw [hsame, hwin]
    rw [splice_conflict he hf hne h, hR]
    refine closer_take hM hend ?_
    -- the entries at the conflict are not the same
    by_contra hgt
    obtain ⟨-, hlL, htake⟩ := le_commonLength_iff.mp (show i + j + 1 ≤ commonLength F L by omega)
    rw [List.getElem?_take_of_lt (by rw [List.length_take] at hj; omega), List.getElem?_drop] at he
    have hfe : F[i + j]? = L[i + j]? := by
      rw [← List.getElem?_take_of_lt (Nat.lt_succ_self (i + j)), htake,
        List.getElem?_take_of_lt (Nat.lt_succ_self (i + j))]
    rw [hf, he] at hfe
    exact hne (congrArg term (Option.some_inj.mp hfe))

end Matching

end Replication
