/-
  File:      RaftRsm/Process/Threads.lean
  Subject:   THREADS OVER SHARED MEMORY: every interleaving of their atomic steps, what they let be seen
             of it, and the rule that proves assertions about all of them.

  A thread is a program counter with the values it holds in registers. One step of it reads and writes
  the memory at once and leaves an event. The memory is sequentially consistent: the world is one memory
  and one counter per thread, and a run is any order of their steps.

  * `Threads`, `World`, `Step`, `Run` -- the interleaving semantics, with the trace of events;
  * `Threads.play` -- a run by a given schedule, computed;
  * `Outline` -- an invariant of the memory and an assertion at every program counter of every thread,
    over the trace so far; `Outline.Valid` -- each step keeps the invariant, meets its own next
    assertion, and disturbs none of another thread;
  * **`Outline.Valid.holds`** -- then all of them hold along every run; `Outline.ValidWithin.holds` -- or along
    those that stay within a bound.
-/
import Mathlib.Logic.Function.Basic
import Mathlib.Data.List.Basic

namespace Process

variable {ι σ ε : Type} {In Λ : ι → Type}

/-- **Threads**: the step that the thread `i` takes from a program counter and a memory, when the outside
    (a caller, a scheduler, a clock) decides what is open by an input. -/
structure Threads (ι σ ε : Type) (In Λ : ι → Type) where
  move : (i : ι) → In i → Λ i → σ → Option (Λ i × σ × ε)

namespace Threads

/-- The memory and where every thread is. -/
structure World (σ : Type) (Λ : ι → Type) where
  mem : σ
  pc : (i : ι) → Λ i

variable [DecidableEq ι] (P : Threads ι σ ε In Λ)

/-- **One step of the world**: one thread takes one of its steps. -/
inductive Step : World σ Λ → ε → World σ Λ → Prop where
  | mk {w : World σ Λ} (i : ι) (a : In i) {l : Λ i} {m : σ} {e : ε}
      (h : P.move i a (w.pc i) w.mem = some (l, m, e)) : Step w e ⟨m, Function.update w.pc i l⟩

/-- **A run from `w₀`**, with its events. -/
inductive Run (w₀ : World σ Λ) : List ε → World σ Λ → Prop where
  | start : Run w₀ [] w₀
  | step {τ : List ε} {w w' : World σ Λ} {e : ε} (hr : Run w₀ τ w) (hs : P.Step w e w') :
      Run w₀ (τ ++ [e]) w'

/-- The run by a schedule, if each step can be taken. -/
def play (w : World σ Λ) : List (Σ i, In i) → Option (List ε × World σ Λ)
  | [] => some ([], w)
  | ⟨i, a⟩ :: rest =>
      match P.move i a (w.pc i) w.mem with
      | none => none
      | some (l, m, e) => (play ⟨m, Function.update w.pc i l⟩ rest).map fun r => (e :: r.1, r.2)

variable {P}

theorem Run.trans {w₀ w w' : World σ Λ} {τ τ' : List ε} (h : P.Run w₀ τ w) (h' : P.Run w τ' w') :
    P.Run w₀ (τ ++ τ') w' := by
  induction h' with
  | start =>
      rw [List.append_nil]
      exact h
  | step _ hs ih =>
      rw [← List.append_assoc]
      exact .step ih hs

/-- What is played is a run. -/
theorem run_play {w w' : World σ Λ} {s : List (Σ i, In i)} {τ : List ε}
    (h : P.play w s = some (τ, w')) : P.Run w τ w' := by
  induction s generalizing w τ with
  | nil =>
      cases h
      exact .start
  | cons x s ih =>
      obtain ⟨i, a⟩ := x
      rw [play] at h
      split at h
      · cases h
      · rename_i l m e hm
        obtain ⟨r, hr, he⟩ := Option.map_eq_some_iff.mp h
        cases he
        exact Run.trans (.step .start (.mk i a hm)) (ih hr)

end Threads

/-! ## Outlines -/

/-- **A proof outline**: what holds of the memory, and of every thread where it is, after a trace. -/
structure Outline (σ ε : Type) (Λ : ι → Type) where
  memory : List ε → σ → Prop
  thread : (i : ι) → List ε → Λ i → σ → Prop

variable [DecidableEq ι] {P : Threads ι σ ε In Λ} {O : Outline σ ε Λ}

namespace Outline

/-- All of it holds of a world. -/
structure Holds (O : Outline σ ε Λ) (τ : List ε) (w : Threads.World σ Λ) : Prop where
  memory : O.memory τ w.mem
  thread : ∀ i, O.thread i τ (w.pc i) w.mem

/-- **The outline is valid**: a step from a world where it holds keeps the invariant, meets the assertion
    where it leads, and leaves those of the others true. -/
structure Valid (O : Outline σ ε Λ) (P : Threads ι σ ε In Λ) (w₀ : Threads.World σ Λ) : Prop where
  start : O.Holds [] w₀
  own : ∀ {τ : List ε} {w : Threads.World σ Λ} {i : ι} {a : In i} {l : Λ i} {m : σ} {e : ε}, O.Holds τ w →
    P.move i a (w.pc i) w.mem = some (l, m, e) → O.memory (τ ++ [e]) m ∧ O.thread i (τ ++ [e]) l m
  other : ∀ {τ : List ε} {w : Threads.World σ Λ} {i j : ι} {a : In i} {l : Λ i} {m : σ} {e : ε}, O.Holds τ w →
    P.move i a (w.pc i) w.mem = some (l, m, e) → j ≠ i → O.thread j (τ ++ [e]) (w.pc j) m

/-- **The outline is valid within a bound**: the same of the steps after which the trace is within it. -/
structure ValidWithin (O : Outline σ ε Λ) (B : List ε → Prop) (P : Threads ι σ ε In Λ) (w₀ : Threads.World σ Λ) :
    Prop where
  start : O.Holds [] w₀
  bound : ∀ {τ : List ε} {e : ε}, B (τ ++ [e]) → B τ
  own : ∀ {τ : List ε} {w : Threads.World σ Λ} {i : ι} {a : In i} {l : Λ i} {m : σ} {e : ε}, O.Holds τ w →
    B (τ ++ [e]) → P.move i a (w.pc i) w.mem = some (l, m, e) →
    O.memory (τ ++ [e]) m ∧ O.thread i (τ ++ [e]) l m
  other : ∀ {τ : List ε} {w : Threads.World σ Λ} {i j : ι} {a : In i} {l : Λ i} {m : σ} {e : ε}, O.Holds τ w →
    B (τ ++ [e]) → P.move i a (w.pc i) w.mem = some (l, m, e) → j ≠ i → O.thread j (τ ++ [e]) (w.pc j) m

/-- **A valid outline holds along every run** that stays within the bound. -/
theorem ValidWithin.holds {B : List ε → Prop} {w₀ w : Threads.World σ Λ} (h : O.ValidWithin B P w₀) {τ : List ε}
    (hr : P.Run w₀ τ w) (hb : B τ) : O.Holds τ w := by
  induction hr with
  | start => exact h.start
  | step _ hs ih =>
      have hw := ih (h.bound hb)
      obtain ⟨i, a, hm⟩ := hs
      refine ⟨(h.own hw hb hm).1, fun j => ?_⟩
      dsimp only
      by_cases hj : j = i
      · subst hj
        rw [Function.update_self]
        exact (h.own hw hb hm).2
      · rw [Function.update_of_ne hj]
        exact h.other hw hb hm hj

/-- **A valid outline holds along every run.** -/
theorem Valid.holds {w₀ w : Threads.World σ Λ} (h : O.Valid P w₀) {τ : List ε} (hr : P.Run w₀ τ w) :
    O.Holds τ w := by
  have hwithin : O.ValidWithin (fun _ => True) P w₀ :=
    ⟨h.start, fun _ => trivial, fun hw _ hm => h.own hw hm, fun hw _ hm hj => h.other hw hm hj⟩
  exact hwithin.holds hr trivial

end Outline

end Process
