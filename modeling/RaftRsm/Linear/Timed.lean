/-
  File:      RaftRsm/Linear/Timed.lean
  Subject:   TIMED HISTORIES: operations with the times of their invocation and response, in no order.

  Here real time is a condition on the sequence of operations, which the rules of `History` do not need:
  what has responded before something was invoked has to come before it.

  * `Orders X s l S` -- the operations `S`, in this order, explain the history `l`;
  * `linearizable_iff` -- what can come first: an operation that was invoked before every response;
  * `linearizable_iff_keys` -- **locality**: objects that do not share state can be looked at one by one.
    The sequences of the objects are merged by stamps that lie between invocation and response.
-/
import Mathlib.Data.List.Perm.Basic
import Mathlib.Data.List.Nodup
import Mathlib.Data.List.Pairwise
import Mathlib.Data.List.Dedup
import Mathlib.Order.Lattice
import Mathlib.Data.Int.Order.Basic

namespace Linear

open scoped List

/-- What a client knows of the operations. -/
structure Timed (O R : Type) where
  invoke : O → ℤ
  /-- The time of the response and what it was, if there was one. -/
  complete : O → Bool
  response : O → ℤ
  result : O → R

namespace Timed

variable {O R σ τ : Type} (H : Timed O R)

/-! ## 1. Explanations -/

/-- `a` has responded before `b` was invoked. -/
def Precedes (a b : O) : Prop := H.complete a = true ∧ H.response a < H.invoke b

/-- No response comes before its invocation. -/
def WellTimed (l : List O) : Prop := ∀ a ∈ l, H.complete a = true → H.invoke a ≤ H.response a

/-- One after the other from the state `s` the operations get the answers that are known. -/
def Explains (step : σ → O → σ × R) : σ → List O → Prop
  | _, [] => True
  | s, o :: S => (H.complete o = true → (step s o).2 = H.result o) ∧ Explains step (step s o).1 S

/-- **The operations `S`, in this order, explain the history `l`**: all that have responded are in it,
    and of the others any number. -/
structure Orders (step : σ → O → σ × R) (s : σ) (l S : List O) : Prop where
  covers : ∃ pending, S ++ pending ~ l ∧ ∀ p ∈ pending, H.complete p = false
  realTime : S.Pairwise fun b a => ¬ H.Precedes a b
  explains : H.Explains step s S

def Linearizable (step : σ → O → σ × R) (s : σ) (l : List O) : Prop := ∃ S, H.Orders step s l S

variable {H} {step : σ → O → σ × R} {s : σ} {l l' S : List O}

theorem Orders.mem (h : H.Orders step s l S) {o : O} (ho : o ∈ S) : o ∈ l := by
  obtain ⟨pending, hp, -⟩ := h.covers
  exact hp.subset (List.mem_append_left pending ho)

theorem Linearizable.perm (h : H.Linearizable step s l) (hl : l ~ l') : H.Linearizable step s l' := by
  obtain ⟨S, ⟨pending, hp, hno⟩, hrt, hex⟩ := h
  exact ⟨S, ⟨pending, hp.trans hl, hno⟩, hrt, hex⟩

theorem WellTimed.perm (h : H.WellTimed l) (hl : l ~ l') : H.WellTimed l' :=
  fun a ha => h a (hl.mem_iff.mpr ha)

/-- **What can come first**: nothing, if nothing has responded, or an operation that was invoked before
    every response and is answered as it should be. -/
theorem linearizable_iff (hl : H.WellTimed l) : H.Linearizable step s l ↔
    (∀ o ∈ l, H.complete o = false) ∨ ∃ A o B, l = A ++ o :: B ∧
      (∀ a ∈ l, H.complete a = true → H.invoke o ≤ H.response a) ∧
      (H.complete o = true → (step s o).2 = H.result o) ∧
      H.Linearizable step (step s o).1 (A ++ B) := by
  constructor
  · rintro ⟨S, ⟨pending, hp, hno⟩, hrt, hex⟩
    cases S with
    | nil => exact .inl fun o ho => hno o (hp.mem_iff.mpr ho)
    | cons o S =>
        have ho : o ∈ l := hp.subset List.mem_cons_self
        obtain ⟨A, B, rfl⟩ := List.append_of_mem ho
        have hrest : S ++ pending ~ A ++ B := (hp.trans List.perm_middle).cons_inv
        obtain ⟨hfirst, hrt⟩ := List.pairwise_cons.mp hrt
        refine .inr ⟨A, o, B, rfl, fun a ha hc => ?_, hex.1, S, ⟨pending, hrest, hno⟩, hrt, hex.2⟩
        have ha' : a ∈ o :: (S ++ pending) := hp.mem_iff.mpr ha
        rcases List.mem_cons.mp ha' with rfl | ha'
        · exact hl a ha hc
        · rcases List.mem_append.mp ha' with hS | hP
          · exact not_lt.mp fun hlt => hfirst a hS ⟨hc, hlt⟩
          · rw [hno a hP] at hc
            cases hc
  · rintro (hno | ⟨A, o, B, rfl, hfirst, hans, S, ⟨pending, hp, hno⟩, hrt, hex⟩)
    · exact ⟨[], ⟨l, List.Perm.refl l, hno⟩, List.Pairwise.nil, trivial⟩
    · refine ⟨o :: S, ⟨pending, (hp.cons o).trans List.perm_middle.symm, hno⟩,
        List.pairwise_cons.mpr ⟨fun a ha hpre => ?_, hrt⟩, hans, hex⟩
      have hmem : a ∈ A ++ o :: B :=
        List.perm_middle.mem_iff.mpr (List.mem_cons_of_mem o (hp.subset (List.mem_append_left pending ha)))
      exact not_lt.mpr (hfirst a hmem hpre.1) hpre.2

/-! ## 2. Objects with keys -/

section Keys

variable {K : Type} [DecidableEq K] (key : O → K)

/-- The operations on one key. -/
def at_ (k : K) (l : List O) : List O := l.filter fun o => key o = k

/-- **The state is made of one part for each key**, and an operation knows and changes its own only. -/
structure Split (step : σ → O → σ × R) (part : τ → O → τ × R) (view : K → σ → τ) : Prop where
  own : ∀ s o, view (key o) (step s o).1 = (part (view (key o) s) o).1
  answer : ∀ s o, (step s o).2 = (part (view (key o) s) o).2
  other : ∀ s o k, k ≠ key o → view k (step s o).1 = view k s

variable {key} {part : τ → O → τ × R} {view : K → σ → τ}

theorem at_cons (k : K) (o : O) (l : List O) :
    at_ key k (o :: l) = if key o = k then o :: at_ key k l else at_ key k l := by
  unfold at_
  rw [List.filter_cons]
  simp only [decide_eq_true_eq]

/-- The answers of an operation depend on the operations on its key only. -/
theorem explains_iff_keys (hX : Split key step part view) : ∀ {S : List O} {s : σ},
    H.Explains step s S ↔ ∀ k, H.Explains part (view k s) (at_ key k S)
  | [], s => ⟨fun _ _ => trivial, fun _ => trivial⟩
  | o :: S, s => by
      have htail := explains_iff_keys hX (S := S) (s := (step s o).1)
      constructor
      · rintro ⟨hans, hS⟩ k
        have hk := htail.mp hS k
        rw [at_cons]
        by_cases hkey : key o = k
        · subst hkey
          rw [hX.own] at hk
          rw [if_pos rfl]
          exact ⟨fun hc => (hX.answer s o).symm.trans (hans hc), hk⟩
        · rw [hX.other s o k (Ne.symm hkey)] at hk
          rwa [if_neg hkey]
      · intro h
        have hown := h (key o)
        rw [at_cons, if_pos rfl] at hown
        refine ⟨fun hc => (hX.answer s o).trans (hown.1 hc), htail.mpr fun k => ?_⟩
        by_cases hkey : key o = k
        · subst hkey
          rw [hX.own]
          exact hown.2
        · have hk := h k
          rw [at_cons, if_neg hkey] at hk
          rwa [hX.other s o k (Ne.symm hkey)]

/-- A part of the operations of an explanation explains that part of the history. -/
theorem Orders.at_ (hX : Split key step part view) (h : H.Orders step s l S) (k : K) :
    H.Orders part (view k s) (at_ key k l) (Timed.at_ key k S) := by
  obtain ⟨⟨pending, hp, hno⟩, hrt, hex⟩ := h
  refine ⟨⟨Timed.at_ key k pending, ?_, fun p hp => hno p (List.mem_of_mem_filter hp)⟩,
    hrt.filter _, (explains_iff_keys hX).mp hex k⟩
  have := hp.filter fun o => decide (key o = k)
  rwa [List.filter_append] at this

/-! ## 3. Merging -/

variable (key) in
/-- Two lists with the same operations on every key. -/
theorem perm_of_keys (h : ∀ k, at_ key k l ~ at_ key k l') : l ~ l' := by
  classical
  rw [List.perm_iff_count]
  intro o
  have hk := (List.perm_iff_count.mp (h (key o))) o
  unfold at_ at hk
  rwa [List.count_filter (by simp), List.count_filter (by simp)] at hk

theorem filter_of_key {α : Type} {f : α → K} {L : List α} {k : K} (h : ∀ x ∈ L, f x = k) (j : K) :
    L.filter (fun x => f x = j) = if k = j then L else [] := by
  split_ifs with hj
  · exact List.filter_eq_self.mpr fun x hx => by simp [h x hx, hj]
  · exact List.filter_eq_nil_iff.mpr fun x hx => by simp [h x hx, hj]

theorem filter_flatMap_ite {α : Type} {f : α → K} {F : K → List α} (hF : ∀ k, ∀ x ∈ F k, f x = k) (k : K) :
    ∀ {ks : List K}, ks.Nodup →
      (ks.flatMap F).filter (fun x => f x = k) = if k ∈ ks then F k else []
  | [], _ => rfl
  | j :: ks, hn => by
      obtain ⟨hj, hn⟩ := List.nodup_cons.mp hn
      rw [List.flatMap_cons, List.filter_append, filter_of_key (hF j) k, filter_flatMap_ite hF k hn]
      by_cases hk : j = k
      · subst hk
        rw [if_pos rfl, if_neg hj, if_pos List.mem_cons_self, List.append_nil]
      · simp [hk, Ne.symm hk]

/-- Lists that stand under one key each, put one behind the other. -/
theorem filter_flatMap_key {α : Type} {f : α → K} {F : K → List α} {ks : List K} (hn : ks.Nodup)
    (hF : ∀ k, ∀ x ∈ F k, f x = k ∧ k ∈ ks) (k : K) :
    (ks.flatMap F).filter (fun x => f x = k) = F k := by
  rw [filter_flatMap_ite (fun k x hx => (hF k x hx).1) k hn]
  split_ifs with hk
  · rfl
  · exact (List.eq_nil_iff_forall_not_mem.mpr fun x hx => hk (hF k x hx).2).symm

variable (H) in
/-- Every operation with the latest invocation up to it, where `m` is the latest one before. -/
def stamped : ℤ → List O → List (ℤ × O)
  | _, [] => []
  | m, o :: S => (max m (H.invoke o), o) :: stamped (max m (H.invoke o)) S

theorem map_stamped : ∀ (m : ℤ) (S : List O), (H.stamped m S).map Prod.snd = S
  | _, [] => rfl
  | _, o :: S => congrArg (o :: ·) (map_stamped _ S)

theorem le_stamped : ∀ {m : ℤ} {S : List O}, ∀ x ∈ H.stamped m S, m ≤ x.1 ∧ H.invoke x.2 ≤ x.1
  | _, [], x, hx => (List.not_mem_nil hx).elim
  | m, o :: S, x, hx => by
      rcases List.mem_cons.mp hx with rfl | hx
      · exact ⟨le_max_left _ _, le_max_right _ _⟩
      · obtain ⟨hm, hi⟩ := le_stamped x hx
        exact ⟨le_trans (le_max_left _ _) hm, hi⟩

theorem pairwise_stamped : ∀ (m : ℤ) (S : List O),
    (H.stamped m S).Pairwise fun x y => x.1 ≤ y.1
  | _, [] => List.Pairwise.nil
  | _, _ :: S => List.pairwise_cons.mpr ⟨fun x hx => (le_stamped x hx).1, pairwise_stamped _ S⟩

/-- A stamp is no later than the response, since nothing before the operation was invoked after it. -/
theorem stamped_le : ∀ {m : ℤ} {S : List O}, (S.Pairwise fun b a => ¬ H.Precedes a b) →
    H.WellTimed S → (∀ o ∈ S, H.complete o = true → m ≤ H.response o) →
    ∀ x ∈ H.stamped m S, H.complete x.2 = true → x.1 ≤ H.response x.2
  | _, [], _, _, _, x, hx, _ => (List.not_mem_nil hx).elim
  | m, o :: S, hrt, hw, hm, x, hx, hc => by
      obtain ⟨hfirst, hrt⟩ := List.pairwise_cons.mp hrt
      rcases List.mem_cons.mp hx with rfl | hx
      · exact max_le (hm o List.mem_cons_self hc) (hw o List.mem_cons_self hc)
      · refine stamped_le hrt (fun a ha => hw a (List.mem_cons_of_mem o ha)) (fun a ha ha' => ?_) x hx hc
        exact max_le (hm a (List.mem_cons_of_mem o ha) ha') (not_lt.mp fun hlt => hfirst a ha ⟨ha', hlt⟩)

theorem exists_le_invoke : ∀ l : List O, ∃ m, ∀ o ∈ l, m ≤ H.invoke o
  | [] => ⟨0, fun _ h => (List.not_mem_nil h).elim⟩
  | o :: l => by
      obtain ⟨m, hm⟩ := exists_le_invoke l
      refine ⟨min m (H.invoke o), fun a ha => ?_⟩
      rcases List.mem_cons.mp ha with rfl | ha
      · exact min_le_right _ _
      · exact le_trans (min_le_left _ _) (hm a ha)

theorem mem_keys {o : O} (ho : o ∈ l) {k : K} (hk : key o = k) : k ∈ (l.map key).dedup :=
  List.mem_dedup.mpr (List.mem_map.mpr ⟨o, ho, hk⟩)

variable (key) in
/-- **Sequences for the keys have a common sequence** that keeps each of them and real time. -/
theorem exists_merged (hl : H.WellTimed l) {S : K → List O} (hkey : ∀ k, ∀ o ∈ S k, key o = k)
    (hS : ∀ k, ∀ o ∈ S k, o ∈ l) (hrt : ∀ k, (S k).Pairwise fun b a => ¬ H.Precedes a b) :
    ∃ T, (∀ k, at_ key k T = S k) ∧ T.Pairwise fun b a => ¬ H.Precedes a b := by
  obtain ⟨m, hm⟩ := exists_le_invoke (H := H) l
  -- the sequences with stamps, one behind the other, and sorted by their stamps
  let F := fun k => H.stamped m (S k)
  let C := (l.map key).dedup.flatMap F
  let le := fun x y : ℤ × O => decide (x.1 ≤ y.1)
  have hFS : ∀ {k x}, x ∈ F k → x.2 ∈ S k := fun {k x} hx => by
    have := List.mem_map_of_mem (f := Prod.snd) hx
    rwa [map_stamped] at this
  have hF : ∀ k, ∀ x ∈ F k, key x.2 = k := fun k x hx => hkey k x.2 (hFS hx)
  have htrans : ∀ x y z : ℤ × O, le x y = true → le y z = true → le x z = true := by
    intro x y z hxy hyz
    exact decide_eq_true (le_trans (of_decide_eq_true hxy) (of_decide_eq_true hyz))
  have htotal : ∀ x y : ℤ × O, (le x y || le y x) = true := by
    intro x y
    simp only [le, Bool.or_eq_true, decide_eq_true_eq]
    exact le_total _ _
  have hsorted := List.pairwise_mergeSort htrans htotal C
  have hC : ∀ k, C.filter (fun x => key x.2 = k) = F k :=
    filter_flatMap_key (f := fun x : ℤ × O => key x.2) (List.nodup_dedup _) fun k x hx =>
      ⟨hF k x hx, mem_keys (hS k x.2 (hFS hx)) (hF k x hx)⟩
  have hfilter : ∀ k, (C.mergeSort le).filter (fun x => key x.2 = k) = F k := by
    intro k
    have hsub : F k <+ C := hC k ▸ List.filter_sublist
    have hpair : (F k).Pairwise fun x y => le x y = true :=
      (pairwise_stamped m (S k)).imp fun h => decide_eq_true h
    have hmine := (List.sublist_mergeSort htrans htotal hpair hsub).filter fun x => key x.2 = k
    rw [List.filter_eq_self.mpr fun x hx => decide_eq_true (hF k x hx)] at hmine
    refine (hmine.eq_of_length ?_).symm
    rw [((List.mergeSort_perm C le).filter _).length_eq, hC]
  refine ⟨(C.mergeSort le).map Prod.snd, fun k => ?_, ?_⟩
  · unfold at_
    rw [List.filter_map]
    exact (congrArg (List.map Prod.snd) (hfilter k)).trans (map_stamped m (S k))
  · refine List.pairwise_map.mpr (hsorted.imp_of_mem fun {x y} hx hy hxy hpre => ?_)
    obtain ⟨j, -, hx⟩ := List.mem_flatMap.mp (List.mem_mergeSort.mp hx)
    obtain ⟨k, -, hy⟩ := List.mem_flatMap.mp (List.mem_mergeSort.mp hy)
    have hlow : H.invoke x.2 ≤ x.1 := (le_stamped x hx).2
    have hhigh : y.1 ≤ H.response y.2 := by
      refine stamped_le (hrt k) (fun a ha => hl a (hS k a ha)) (fun a ha hc => ?_) y hy hpre.1
      exact le_trans (hm a (hS k a ha)) (hl a (hS k a ha) hc)
    exact absurd hpre.2 (not_lt.mpr (le_trans hlow (le_trans (of_decide_eq_true hxy) hhigh)))

/-- **Locality**: a history is linearizable if and only if the operations on each key are. -/
theorem linearizable_iff_keys (hX : Split key step part view) (hl : H.WellTimed l) :
    H.Linearizable step s l ↔ ∀ k, H.Linearizable part (view k s) (at_ key k l) := by
  constructor
  · rintro ⟨S, hS⟩ k
    exact ⟨_, hS.at_ hX k⟩
  · intro h
    choose S hS using h
    have hmem : ∀ k, ∀ o ∈ S k, o ∈ l ∧ key o = k := by
      intro k o ho
      have := List.mem_filter.mp ((hS k).mem ho)
      exact ⟨this.1, of_decide_eq_true this.2⟩
    obtain ⟨T, hT, hrt⟩ := exists_merged key hl (fun k o ho => (hmem k o ho).2)
      (fun k o ho => (hmem k o ho).1) fun k => (hS k).realTime
    choose pending hperm hno using fun k => (hS k).covers
    have hpk : ∀ k, ∀ o ∈ pending k, key o = k ∧ k ∈ (l.map key).dedup := by
      intro k o ho
      have := List.mem_filter.mp ((hperm k).subset (List.mem_append_right _ ho))
      exact ⟨of_decide_eq_true this.2, mem_keys this.1 (of_decide_eq_true this.2)⟩
    refine ⟨T, ⟨(l.map key).dedup.flatMap pending, perm_of_keys key fun k => ?_, fun p hp => ?_⟩, hrt,
      (explains_iff_keys hX).mpr fun k => ?_⟩
    · have hpending := filter_flatMap_key (List.nodup_dedup _) hpk k
      have hT' := hT k
      unfold at_ at hT' ⊢
      rw [List.filter_append, hT', hpending]
      exact hperm k
    · obtain ⟨k, -, hp⟩ := List.mem_flatMap.mp hp
      exact hno k p hp
    · rw [hT]
      exact (hS k).explains

end Keys

end Timed

end Linear
