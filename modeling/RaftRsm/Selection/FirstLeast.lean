/-
  File:      RaftRsm/Selection/FirstLeast.lean
  Subject:   THE FIRST OF THE LEAST: among the admissible elements of a list, the one of least key,
             and of several such the one that comes first.

  * `FirstLeast ok key A e B` -- in the list `A ++ e :: B` it is the `e` between `A` and `B`;
  * `FirstLeast.unique` -- there is at most one;
  * `FirstLeast.keep`, `.improve`, `firstLeast_snoc` -- how it moves when the list grows at its end,
    which is what a scan of the list does;
  * `FirstLeast.within` -- a bound on the key can be part of what is admissible or be asked
    afterwards;
  * `InOrder ok key L X` -- `X` is what one gets by taking the first of the least again and again:
    the admissible elements by key, and those of one key as they stand in `L`.
-/
import Mathlib.Order.Defs.LinearOrder
import Mathlib.Data.List.Basic
import Mathlib.Data.List.Induction
import Mathlib.Order.Lattice

namespace Selection

variable {α K : Type} [LinearOrder K] {ok : α → Prop} {key : α → K}

/-- What is left when one element is taken out was there. -/
theorem mem_of_taken {A B : List α} {x e : α} (h : x ∈ A ++ B) : x ∈ A ++ e :: B :=
  List.mem_append.mpr ((List.mem_append.mp h).imp_right (List.mem_cons_of_mem e))

variable (ok key) in
/-- In `A ++ e :: B` the element `e` is admissible, has a key below those of all admissible elements
    before it, and at most those of all behind it. -/
structure FirstLeast (A : List α) (e : α) (B : List α) : Prop where
  admissible : ok e
  before : ∀ x ∈ A, ok x → key e < key x
  behind : ∀ x ∈ B, ok x → key e ≤ key x

namespace FirstLeast

variable {A B A' B' : List α} {e e' x : α}

theorem least (h : FirstLeast ok key A e B) (hx : x ∈ A ++ e :: B) (hok : ok x) :
    key e ≤ key x := by
  rcases List.mem_append.mp hx with hx | hx
  · exact le_of_lt (h.before x hx hok)
  · rcases List.mem_cons.mp hx with rfl | hx
    · exact le_refl _
    · exact h.behind x hx hok

/-- Of two in one list, neither stands before the other. -/
theorem not_before (h : FirstLeast ok key A e B) (h' : FirstLeast ok key A' e' B')
    (hs : A ++ e :: B = A' ++ e' :: B') : ¬ A.length < A'.length := by
  intro hlt
  have hmem : e ∈ A' := by
    have hget : (A' ++ e' :: B')[A.length]? = some e := by rw [← hs]; simp
    rw [List.getElem?_append_left hlt] at hget
    exact List.mem_of_getElem? hget
  have hlow : key e' < key e := h'.before e hmem h.admissible
  have hle : key e ≤ key e' := h.least (by rw [hs]; simp) h'.admissible
  exact absurd hlow (not_lt_of_ge hle)

/-- **There is at most one.** -/
theorem unique (h : FirstLeast ok key A e B) (h' : FirstLeast ok key A' e' B')
    (hs : A ++ e :: B = A' ++ e' :: B') : A = A' ∧ e = e' ∧ B = B' := by
  have h1 := h.not_before h' hs
  have h2 := h'.not_before h hs.symm
  obtain ⟨hA, heB⟩ := List.append_inj hs (by omega)
  exact ⟨hA, List.cons.inj heB⟩

theorem keep (h : FirstLeast ok key A e B) (hx : ok x → key e ≤ key x) :
    FirstLeast ok key A e (B ++ [x]) := by
  refine ⟨h.admissible, h.before, fun y hy hok => ?_⟩
  rcases List.mem_append.mp hy with hy | hy
  · exact h.behind y hy hok
  · obtain rfl := List.mem_singleton.mp hy
    exact hx hok

theorem improve (h : FirstLeast ok key A e B) (hok : ok x) (hx : key x < key e) :
    FirstLeast ok key (A ++ e :: B) x [] :=
  ⟨hok, fun _ hy hy' => lt_of_lt_of_le hx (h.least hy hy'), fun _ hy => by cases hy⟩

/-- **A bound on the key** can be part of what is admissible. -/
theorem within (k : K) : FirstLeast (fun x => ok x ∧ key x ≤ k) key A e B ↔
    FirstLeast ok key A e B ∧ key e ≤ k := by
  constructor
  · intro h
    refine ⟨⟨h.admissible.1, fun x hx hok => ?_, fun x hx hok => ?_⟩, h.admissible.2⟩
    · by_cases hk : key x ≤ k
      · exact h.before x hx ⟨hok, hk⟩
      · exact lt_of_le_of_lt h.admissible.2 (not_le.mp hk)
    · by_cases hk : key x ≤ k
      · exact h.behind x hx ⟨hok, hk⟩
      · exact le_of_lt (lt_of_le_of_lt h.admissible.2 (not_le.mp hk))
  · rintro ⟨h, hk⟩
    exact ⟨⟨h.admissible, hk⟩, fun x hx hok => h.before x hx hok.1, fun x hx hok => h.behind x hx hok.1⟩

theorem map {β : Type} {ok : β → Prop} {key : β → K} {f : α → β}
    (h : FirstLeast (fun x => ok (f x)) (fun x => key (f x)) A e B) :
    FirstLeast ok key (A.map f) (f e) (B.map f) := by
  refine ⟨h.admissible, fun y hy hok => ?_, fun y hy hok => ?_⟩
  · obtain ⟨x, hx, rfl⟩ := List.mem_map.mp hy
    exact h.before x hx hok
  · obtain ⟨x, hx, rfl⟩ := List.mem_map.mp hy
    exact h.behind x hx hok

end FirstLeast

/-- The first admissible element of a list that grows. -/
theorem firstLeast_snoc {L : List α} {x : α} (hL : ∀ y ∈ L, ¬ ok y) (hx : ok x) :
    FirstLeast ok key L x [] :=
  ⟨hx, fun y hy hok => absurd hok (hL y hy), fun _ hy => by cases hy⟩

/-- Where something is admissible, there is a first of the least. -/
theorem exists_firstLeast (ok : α → Prop) (key : α → K) (L : List α) :
    (∀ x ∈ L, ¬ ok x) ∨ ∃ A e B, L = A ++ e :: B ∧ FirstLeast ok key A e B := by
  induction L using List.reverseRecOn with
  | nil => exact .inl fun _ hx => (List.not_mem_nil hx).elim
  | append_singleton L x ih =>
      rcases ih with hno | ⟨A, e, B, rfl, h⟩
      · by_cases hx : ok x
        · exact .inr ⟨L, x, [], rfl, firstLeast_snoc hno hx⟩
        · refine .inl fun y hy => ?_
          rcases List.mem_append.mp hy with hy | hy
          · exact hno y hy
          · rwa [List.mem_singleton.mp hy]
      · by_cases hx : ok x ∧ key x < key e
        · exact .inr ⟨A ++ e :: B, x, [], rfl, h.improve hx.1 hx.2⟩
        · refine .inr ⟨A, e, B ++ [x], by simp, h.keep fun hok => ?_⟩
          exact not_lt.mp fun hlt => hx ⟨hok, hlt⟩

variable (ok key) in
/-- **One first-of-the-least after the other**, until nothing admissible is left. -/
inductive InOrder : List α → List α → Prop where
  | done {L : List α} (h : ∀ x ∈ L, ¬ ok x) : InOrder L []
  | next {A B X : List α} {e : α} (hb : FirstLeast ok key A e B) (h : InOrder (A ++ B) X) :
      InOrder (A ++ e :: B) (e :: X)

variable (ok key) in
theorem exists_inOrder (L : List α) : ∃ X, InOrder ok key L X := by
  induction hlen : L.length generalizing L with
  | zero =>
      rw [List.eq_nil_of_length_eq_zero hlen]
      exact ⟨[], .done fun _ hx => (List.not_mem_nil hx).elim⟩
  | succ n ih =>
      rcases exists_firstLeast ok key L with hno | ⟨A, e, B, rfl, h⟩
      · exact ⟨[], .done hno⟩
      · rw [List.length_append, List.length_cons] at hlen
        obtain ⟨X, hX⟩ := ih (A ++ B) (by rw [List.length_append]; omega)
        exact ⟨e :: X, .next h hX⟩

namespace InOrder

variable {L X : List α}

/-- It has the admissible elements, each as often as the list. -/
theorem perm [DecidablePred ok] (h : InOrder ok key L X) : X.Perm (L.filter fun x => ok x) := by
  induction h with
  | done h =>
      rw [List.filter_eq_nil_iff.mpr fun x hx => by simpa using h x hx]
  | next hb _ ih =>
      rw [List.filter_append, List.filter_cons_of_pos (by simpa using hb.admissible)]
      rw [List.filter_append] at ih
      exact (ih.cons _).trans List.perm_middle.symm

theorem mem (h : InOrder ok key L X) : ∀ x ∈ X, x ∈ L ∧ ok x := by
  induction h with
  | done => exact fun _ hx => (List.not_mem_nil hx).elim
  | next hb _ ih =>
      refine List.forall_mem_cons.mpr ⟨⟨by simp, hb.admissible⟩, fun x hx => ⟨?_, (ih x hx).2⟩⟩
      exact mem_of_taken (ih x hx).1

/-- **It is sorted by key**, and those of one key stand as in the list. -/
theorem sorted {R : α → α → Prop} (h : InOrder ok key L X) (hL : L.Pairwise R) :
    X.Pairwise fun x y => key x < key y ∨ key x = key y ∧ R x y := by
  induction h with
  | done => exact List.Pairwise.nil
  | next hb h ih =>
      have hsub := List.pairwise_append.mp hL
      obtain ⟨he, hB⟩ := List.pairwise_cons.mp hsub.2.1
      refine List.pairwise_cons.mpr ⟨fun y hy => ?_, ih (List.pairwise_append.mpr
        ⟨hsub.1, hB, fun a ha b hb => hsub.2.2 a ha b (List.mem_cons_of_mem _ hb)⟩)⟩
      obtain ⟨hmem, hok⟩ := h.mem y hy
      rcases List.mem_append.mp hmem with hy | hy
      · exact .inl (hb.before y hy hok)
      · exact (lt_or_eq_of_le (hb.behind y hy hok)).imp_right fun heq => ⟨heq, he y hy⟩

theorem map {β : Type} {ok : β → Prop} {key : β → K} {f : α → β} {L X : List α}
    (h : InOrder (fun x => ok (f x)) (fun x => key (f x)) L X) :
    InOrder ok key (L.map f) (X.map f) := by
  induction h with
  | done h =>
      refine .done fun y hy => ?_
      obtain ⟨x, hx, rfl⟩ := List.mem_map.mp hy
      exact h x hx
  | next hb _ ih =>
      rw [List.map_append, List.map_cons, List.map_cons]
      rw [List.map_append] at ih
      exact .next hb.map ih

end InOrder

end Selection
