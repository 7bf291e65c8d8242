/-
  File:      RaftRsm/Process/Draws.lean
  Subject:   Programs that draw words from a generator, and what holds whatever is drawn.

  A generator is the sequence of words it has still to give. A program takes words from its front.

  * `draw`, `pickFrom` -- one word, and one of a range;
  * `Always p Q` -- the result of `p` satisfies `Q` for every generator; `always_bind` -- step by step.
-/
import Mathlib.Data.Nat.Notation
import Mathlib.Tactic.SplitIfs

namespace Process

/-- The words a generator has still to give. -/
abbrev Draws := ℕ → ℕ

/-- A program that draws. -/
abbrev Drawn (α : Type) : Type := StateM Draws α

variable {α β : Type}

def draw : Drawn ℕ := fun r => (r 0, fun k => r (k + 1))

/-- One of `lo`, …, `hi`. -/
def pickFrom (lo hi : ℕ) : Drawn ℕ := do
  let d ← draw
  pure (lo + d % (hi - lo + 1))

/-- **Whatever is drawn**, the result is one of `Q`. -/
def Always (p : Drawn α) (Q : α → Prop) : Prop := ∀ r, Q (p r).1

theorem always_pure {v : α} {Q : α → Prop} (h : Q v) : Always (pure v) Q := fun _ => h

theorem always_bind {p : Drawn α} {f : α → Drawn β} {P : α → Prop} {Q : β → Prop} (hp : Always p P)
    (hf : ∀ a, P a → Always (f a) Q) : Always (p >>= f) Q := fun r => hf _ (hp r) _

theorem always_any (p : Drawn α) : Always p fun _ => True := fun _ => trivial

theorem always_ite {c : Prop} [Decidable c] {p q : Drawn α} {Q : α → Prop} (hp : c → Always p Q)
    (hq : ¬ c → Always q Q) : Always (if c then p else q) Q := by
  split_ifs with h
  · exact hp h
  · exact hq h

theorem always_pickFrom {lo hi : ℕ} (h : lo ≤ hi) : Always (pickFrom lo hi) fun d => lo ≤ d ∧ d ≤ hi := by
  refine always_bind (always_any draw) fun d _ => always_pure ⟨Nat.le_add_right _ _, ?_⟩
  have hlt : d % (hi - lo + 1) < hi - lo + 1 := Nat.mod_lt d (Nat.succ_pos (hi - lo))
  omega

end Process
