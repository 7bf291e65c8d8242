/-
  File:      RaftRsm/Linear/History.lean
  Subject:   HISTORIES OF OPERATIONS, and what it means that a sequential object explains them.

  * `Object`, `Object.Gives` -- a sequential object, and what it answers in a sequence of operations;
  * `Event`, `WellFormed` -- invocations and responses in the order of time;
  * `Linearization X h S` -- the operations `S`, one after the other on `X`, explain the history `h`;
  * `Linearization.invoke`, `.respond`, `.commit` -- the three ways in which a history and its
    linearization grow: an operation is linearized by appending it to `S` at some time after its
    invocation, and it has to be in `S` when it responds.

  Real time takes care of itself under these rules: what has responded is in `S`, and what is
  invoked later can only be appended behind it.
-/
import Mathlib.Data.List.Nodup
import Mathlib.Data.List.Infix

namespace Linear

open scoped List

variable {σ O R : Type}

/-! ## 1. Sequential objects -/

/-- A sequential object: each operation changes its state and gives an answer. -/
structure Object (σ O R : Type) where
  init : σ
  step : σ → O → σ × R

namespace Object

variable (X : Object σ O R)

/-- The state after a sequence of operations. -/
def after (S : List O) : σ := S.foldl (fun s o => (X.step s o).1) X.init

/-- What an operation is answered after a sequence of others. -/
def answer (S : List O) (o : O) : R := (X.step (X.after S) o).2

/-- In the sequence `S` the operation `o` is answered `r`. -/
def Gives (S : List O) (o : O) (r : R) : Prop := ∃ T, T ++ [o] <+: S ∧ X.answer T o = r

variable {X} {S S' : List O} {o : O} {r : R}

@[simp] theorem after_snoc : X.after (S ++ [o]) = (X.step (X.after S) o).1 := by
  unfold after
  rw [List.foldl_append]
  rfl

theorem Gives.mono (h : X.Gives S o r) (hS : S <+: S') : X.Gives S' o r := by
  obtain ⟨T, hT, hr⟩ := h
  exact ⟨T, hT.trans hS, hr⟩

theorem Gives.mem (h : X.Gives S o r) : o ∈ S := by
  obtain ⟨T, hT, -⟩ := h
  exact hT.subset (List.mem_append_right _ (List.mem_singleton_self o))

theorem gives_snoc : X.Gives (S ++ [o]) o (X.answer S o) := ⟨S, List.prefix_rfl, rfl⟩

end Object

/-! ## 2. Histories -/

/-- What a client sees of an operation. -/
inductive Event (O R : Type) where
  | invoke (o : O)
  | respond (o : O) (r : R)
  deriving DecidableEq, Repr

/-- The operation an event invokes. -/
def Event.invoked : Event O R → Option O
  | .invoke o => some o
  | .respond _ _ => none

/-- The operation an event completes. -/
def Event.responded : Event O R → Option O
  | .invoke _ => none
  | .respond o _ => some o

/-- **A history makes sense**: an operation is invoked once and completed at most once, after its
    invocation. -/
structure WellFormed (h : List (Event O R)) : Prop where
  invoked : (h.filterMap Event.invoked).Nodup
  responded : (h.filterMap Event.responded).Nodup
  order : ∀ o r, .respond o r ∈ h → [.invoke o, .respond o r] <+ h

/-- **`S` explains the history `h` on the object `X`**: its operations have been invoked, every
    completed operation is in it with the answer that was given, and an operation that was completed
    before another one was invoked comes first. -/
structure Linearization (X : Object σ O R) (h : List (Event O R)) (S : List O) : Prop where
  nodup : S.Nodup
  invoked : ∀ o ∈ S, .invoke o ∈ h
  answered : ∀ o r, .respond o r ∈ h → X.Gives S o r
  order : ∀ a r b, [.respond a r, .invoke b] <+ h → b ∈ S → [a, b] <+ S

/-- **Linearizability.** -/
def Linearizable (X : Object σ O R) (h : List (Event O R)) : Prop := ∃ S, Linearization X h S

/-! ## 3. How a history grows -/

section Grow

variable {X : Object σ O R} {h : List (Event O R)} {S : List O} {o : O} {r : R}

/-- A pair in a history with one more event is an old pair, or ends with the event. -/
theorem pair_sublist_snoc {α : Type} {a b c : α} {l : List α} (h : [a, b] <+ l ++ [c]) :
    [a, b] <+ l ∨ (a ∈ l ∧ b = c) := by
  obtain ⟨l₁, l₂, he, h₁, h₂⟩ := List.sublist_append_iff.mp h
  rcases List.sublist_singleton.mp h₂ with rfl | rfl
  · rw [List.append_nil] at he
    exact .inl (he ▸ h₁)
  · have he : [a] ++ [b] = l₁ ++ [c] := he
    obtain ⟨rfl, hc⟩ := List.append_inj' he rfl
    exact .inr ⟨h₁.subset (List.mem_singleton_self a), List.singleton_inj.mp hc⟩

theorem pair_sublist_of_mem {α : Type} {a c : α} {l : List α} (h : a ∈ l) : [a, c] <+ l ++ [c] :=
  List.Sublist.append (List.singleton_sublist.mpr h) (List.Sublist.refl [c])

theorem nodup_snoc {α : Type} {l : List α} {a : α} (h : l.Nodup) (ha : a ∉ l) :
    (l ++ [a]).Nodup := by
  rw [← List.concat_eq_append]
  exact .concat ha h

theorem wellFormed_nil : WellFormed ([] : List (Event O R)) :=
  ⟨List.nodup_nil, List.nodup_nil, fun _ _ h => by cases h⟩

theorem mem_filterMap_invoked : o ∈ h.filterMap Event.invoked ↔ .invoke o ∈ h := by
  rw [List.mem_filterMap]
  constructor
  · intro hx
    obtain ⟨e, he, ho⟩ := hx
    cases e with
    | invoke o' => exact Option.some.inj ho ▸ he
    | respond => cases ho
  · exact fun he => ⟨_, he, rfl⟩

theorem WellFormed.invoke (hw : WellFormed h) (hnew : .invoke o ∉ h) :
    WellFormed (h ++ [.invoke o]) := by
  refine ⟨?_, ?_, fun a r ha => ?_⟩
  · rw [List.filterMap_append]
    exact nodup_snoc hw.invoked fun ho => hnew (mem_filterMap_invoked.mp ho)
  · rw [List.filterMap_append, show [Event.invoke o].filterMap Event.responded =
      ([] : List O) from rfl, List.append_nil]
    exact hw.responded
  · rcases List.mem_append.mp ha with ha | ha
    · exact (hw.order a r ha).trans (List.sublist_append_left h _)
    · cases List.mem_singleton.mp ha

theorem WellFormed.respond (hw : WellFormed h) (hinv : .invoke o ∈ h)
    (hnew : ∀ r', .respond o r' ∉ h) : WellFormed (h ++ [.respond o r]) := by
  refine ⟨?_, ?_, fun a r' ha => ?_⟩
  · rw [List.filterMap_append, show [Event.respond o r].filterMap Event.invoked =
      ([] : List O) from rfl, List.append_nil]
    exact hw.invoked
  · rw [List.filterMap_append]
    refine nodup_snoc hw.responded fun ho => ?_
    obtain ⟨e, hmem, he⟩ := List.mem_filterMap.mp ho
    cases e with
    | invoke => cases he
    | respond o' r' => exact hnew r' (Option.some.inj he ▸ hmem)
  · rcases List.mem_append.mp ha with ha | ha
    · exact (hw.order a r' ha).trans (List.sublist_append_left h _)
    · obtain ⟨rfl, rfl⟩ := Event.respond.inj (List.mem_singleton.mp ha)
      exact pair_sublist_of_mem hinv

/-- An operation is not invoked twice. -/
theorem WellFormed.fresh (hw : WellFormed (h ++ [.invoke o])) : .invoke o ∉ h := by
  intro hm
  have hnd := hw.invoked
  rw [List.filterMap_append] at hnd
  exact (List.nodup_append.mp hnd).2.2 o (mem_filterMap_invoked.mpr hm) o
    (List.mem_singleton_self o) rfl

theorem linearization_nil : Linearization X [] [] :=
  ⟨List.nodup_nil, fun _ h => (List.not_mem_nil h).elim, fun _ _ h => (List.not_mem_nil h).elim,
    fun _ _ _ _ h => (List.not_mem_nil h).elim⟩

/-- An operation is invoked. -/
theorem Linearization.invoke (hl : Linearization X h S) (hnew : .invoke o ∉ h) :
    Linearization X (h ++ [.invoke o]) S := by
  refine ⟨hl.nodup, fun a ha => List.mem_append_left _ (hl.invoked a ha), fun a r ha => ?_,
    fun a r b hab hb => ?_⟩
  · rcases List.mem_append.mp ha with ha | ha
    · exact hl.answered a r ha
    · cases List.mem_singleton.mp ha
  · rcases pair_sublist_snoc hab with hab | ⟨-, he⟩
    · exact hl.order a r b hab hb
    · -- the operation just invoked is not linearized yet
      cases he
      exact absurd (hl.invoked _ hb) hnew

/-- An operation that is linearized responds. -/
theorem Linearization.respond (hl : Linearization X h S) (hr : X.Gives S o r) :
    Linearization X (h ++ [.respond o r]) S := by
  refine ⟨hl.nodup, fun a ha => List.mem_append_left _ (hl.invoked a ha), fun a r' ha => ?_,
    fun a r' b hab hb => ?_⟩
  · rcases List.mem_append.mp ha with ha | ha
    · exact hl.answered a r' ha
    · obtain ⟨rfl, rfl⟩ := Event.respond.inj (List.mem_singleton.mp ha)
      exact hr
  · rcases pair_sublist_snoc hab with hab | ⟨-, he⟩
    · exact hl.order a r' b hab hb
    · cases he

/-- An invoked operation is linearized. -/
theorem Linearization.commit (hl : Linearization X h S) (hinv : .invoke o ∈ h) (hnew : o ∉ S) :
    Linearization X h (S ++ [o]) := by
  refine ⟨?_, fun a ha => ?_, fun a r ha => ?_, fun a r b hab hb => ?_⟩
  · exact nodup_snoc hl.nodup hnew
  · rcases List.mem_append.mp ha with ha | ha
    · exact hl.invoked a ha
    · rw [List.mem_singleton.mp ha]
      exact hinv
  · exact (hl.answered a r ha).mono (List.prefix_append S _)
  · rcases List.mem_append.mp hb with hb | hb
    · exact (hl.order a r b hab hb).trans (List.sublist_append_left S _)
    · -- whatever has responded is in `S` already
      rw [List.mem_singleton.mp hb]
      have ha : .respond a r ∈ h := hab.subset List.mem_cons_self
      exact pair_sublist_of_mem (hl.answered a r ha).mem

/-- Several invoked operations are linearized, one after the other. -/
theorem Linearization.extend (hl : Linearization X h S) {S' : List O} (hS : S <+: S')
    (hinv : ∀ o ∈ S', .invoke o ∈ h) (hnd : S'.Nodup) : Linearization X h S' := by
  obtain ⟨T, rfl⟩ := hS
  induction T using List.reverseRecOn with
  | nil =>
      rw [List.append_nil]
      exact hl
  | append_singleton T o ih =>
      rw [← List.append_assoc] at hinv hnd ⊢
      obtain ⟨hnd, -, hdis⟩ := List.nodup_append.mp hnd
      have ho : o ∉ S ++ T := fun hm => hdis o hm o (List.mem_singleton_self o) rfl
      have hT := ih (fun a ha => hinv a (List.mem_append_left _ ha)) hnd
      exact hT.commit (hinv o (List.mem_append_right _ (List.mem_singleton_self o))) ho

end Grow

end Linear
