/-
  File:      RaftRsm/Process/Program.lean
  Subject:   PROGRAMS OF ONE PROCESS, with every state they pass through, and the
             rely/guarantee rules for them.

  A process that can be killed between any two writes is not described by its input/output
  behaviour alone: what a crash finds is a state BETWEEN two writes. So a program here is a
  state transformer that also lists its MOMENTS, the states after each write, in order.

  * `Prog σ α`, `read`, `write` -- the programs; `write` is the only source of moments;
  * `Contract A σ` -- an abstract state space `A`, what the other processes may do to it
    (`rely`), what this process may do to it (`guar`), what holds between the two at every
    moment (`mid`), and what one write may do to the process's own state (`move`);
  * `Plan`, `Meets` -- a list of moments, or a program, keeps the contract at every moment and
    ends in the postcondition, whatever the others do between two moments;
  * `meets_pure`, `meets_bind`, `meets_write`, `meets_mono`, `meets_forM` -- the rules;
  * `alone`, `Ends`, `ends_final` -- the contract of a process that shares nothing: under it the rules
    compute what a whole run ends in.
-/
import Mathlib.Data.List.Basic
import Mathlib.Logic.Relation

namespace Process

/-! ## 1. Programs and their moments -/

/-- A program over the states `σ`: from the state it starts in, the value it returns and the
    states it passes through, one after each write. -/
def Prog (σ α : Type) : Type := σ → α × List σ

theorem getLastD_append {σ : Type} : ∀ (l l' : List σ) (s : σ),
    (l ++ l').getLastD s = l'.getLastD (l.getLastD s)
  | [], _, _ => rfl
  | t :: l, l', s => by
      rw [List.cons_append, List.getLastD_cons, List.getLastD_cons]
      exact getLastD_append l l' t

namespace Prog

variable {σ α β : Type}

/-- The value a run returns. -/
def value (p : Prog σ α) (s : σ) : α := (p s).1

/-- The states a run passes through, in order. -/
def moments (p : Prog σ α) (s : σ) : List σ := (p s).2

/-- The state a run ends in: its last moment, or the start if it writes nothing. -/
def final (p : Prog σ α) (s : σ) : σ := (p.moments s).getLastD s

instance : Monad (Prog σ) where
  pure a := fun _ => (a, [])
  bind p f := fun s =>
    ((f (p.value s)).value (p.final s), p.moments s ++ (f (p.value s)).moments (p.final s))

/-- Reads the whole state. -/
def read : Prog σ σ := fun s => (s, [])

/-- One write: the state after it is a moment. -/
def write (f : σ → σ) : Prog σ Unit := fun s => ((), [f s])

/-- Runs `p` if the condition holds. -/
def when (c : Prop) [Decidable c] (p : Prog σ Unit) : Prog σ Unit := if c then p else pure ()

@[simp] theorem final_pure (a : α) (s : σ) : (pure a : Prog σ α).final s = s := rfl

@[simp] theorem moments_write (f : σ → σ) (s : σ) : (write f).moments s = [f s] := rfl

@[simp] theorem value_bind (p : Prog σ α) (f : α → Prog σ β) (s : σ) :
    (p >>= f).value s = (f (p.value s)).value (p.final s) := rfl

@[simp] theorem moments_bind (p : Prog σ α) (f : α → Prog σ β) (s : σ) :
    (p >>= f).moments s = p.moments s ++ (f (p.value s)).moments (p.final s) := rfl

@[simp] theorem final_bind (p : Prog σ α) (f : α → Prog σ β) (s : σ) :
    (p >>= f).final s = (f (p.value s)).final (p.final s) := by
  show (p.moments s ++ (f (p.value s)).moments (p.final s)).getLastD s = _
  exact getLastD_append _ _ _

/-- Going on alike from where `p` ends. -/
theorem bind_at {p : Prog σ α} {f g : α → Prog σ β} {s : σ}
    (h : f (p.value s) (p.final s) = g (p.value s) (p.final s)) : (p >>= f) s = (p >>= g) s := by
  show ((f _ _).1, p.moments s ++ (f _ _).2) = ((g _ _).1, p.moments s ++ (g _ _).2)
  rw [h]

/-- Going on with `f` from programs that agree. -/
theorem bind_from {p q : Prog σ α} (f : α → Prog σ β) {s : σ} (h : p s = q s) :
    (p >>= f) s = (q >>= f) s := by
  show ((f (p s).1).value ((p s).2.getLastD s), (p s).2 ++ (f (p s).1).moments ((p s).2.getLastD s)) = _
  rw [h]
  rfl

/-- Programs with the same value and the same moments from every state are equal. -/
theorem ext {p q : Prog σ α} (hv : ∀ s, p.value s = q.value s)
    (hm : ∀ s, p.moments s = q.moments s) : p = q :=
  funext fun s => Prod.ext (hv s) (hm s)

instance : LawfulMonad (Prog σ) := LawfulMonad.mk' (Prog σ)
  (fun p => by
    refine ext (fun s => rfl) (fun s => ?_)
    show p.moments s ++ [] = p.moments s
    exact List.append_nil _)
  (fun _ _ => rfl)
  (fun p f g => by
    refine ext (fun s => ?_) (fun s => ?_)
    · simp only [value_bind, final_bind]
    · simp only [moments_bind, value_bind, final_bind, List.append_assoc])

end Prog

/-! ## 2. Contracts -/

/-- The terms on which a process shares an abstract state `A` with others: what the others may
    do, what it may do itself, how its own state reads at every moment, and how it moves from
    one moment to the next. -/
structure Contract (A σ : Type) where
  rely : A → A → Prop
  guar : A → A → Prop
  mid : A → σ → Prop
  move : σ → σ → Prop

variable {A σ α β : Type} (C : Contract A σ)

/-- **A list of moments keeps the contract**: before each moment the others act, then the
    process answers with a step of its own after which the moment reads correctly; past the
    last moment `Q` holds. -/
def Plan (Q : A → σ → Prop) : A → σ → List σ → Prop
  | a, s, [] => Q a s
  | a, s, t :: ts =>
      C.move s t ∧ ∀ a', C.rely a a' → ∃ a'', C.guar a' a'' ∧ C.mid a'' t ∧ Plan Q a'' t ts

/-- **A program keeps the contract** from `a`, `s` on and ends in `Q`. -/
def Meets (a : A) (s : σ) (p : Prog σ α) (Q : α → A → σ → Prop) : Prop :=
  Plan C (Q (p.value s)) a s (p.moments s)

variable {C}

theorem plan_mono {Q R : A → σ → Prop} (h : ∀ a s, Q a s → R a s) :
    ∀ {l : List σ} {a : A} {s : σ}, Plan C Q a s l → Plan C R a s l
  | [], _, _, hp => h _ _ hp
  | _ :: _, _, _, hp => ⟨hp.1, fun a' ha => by
      obtain ⟨a'', hg, hm, hp'⟩ := hp.2 a' ha
      exact ⟨a'', hg, hm, plan_mono h hp'⟩⟩

/-- The same plan under a contract that asks for less. -/
theorem plan_weaken {D : Contract A σ} {Q R : A → σ → Prop}
    (hrely : ∀ {a b}, D.rely a b → C.rely a b) (hguar : ∀ {a b}, C.guar a b → D.guar a b)
    (hmid : ∀ {a s}, C.mid a s → D.mid a s) (hmove : ∀ {s t}, C.move s t → D.move s t)
    (hQ : ∀ a s, Q a s → R a s) : ∀ {l : List σ} {a : A} {s : σ}, Plan C Q a s l → Plan D R a s l
  | [], _, _, hp => hQ _ _ hp
  | _ :: _, _, _, hp => ⟨hmove hp.1, fun a' ha => by
      obtain ⟨a'', hg, hm, hp'⟩ := hp.2 a' (hrely ha)
      exact ⟨a'', hguar hg, hmid hm, plan_weaken hrely hguar hmid hmove hQ hp'⟩⟩

theorem plan_append {R : σ → A → σ → Prop} {g : σ → List σ} :
    ∀ {l : List σ} {a : A} {s : σ}, Plan C (fun b t => Plan C (R t) b t (g t)) a s l →
      Plan C (R (l.getLastD s)) a s (l ++ g (l.getLastD s))
  | [], _, _, hp => hp
  | t :: l, _, s, hp => ⟨hp.1, fun a' ha => by
      obtain ⟨a'', hg, hm, hp'⟩ := hp.2 a' ha
      refine ⟨a'', hg, hm, ?_⟩
      rw [List.getLastD_cons]
      exact plan_append hp'⟩

/-! ## 3. The rules -/

theorem meets_pure {a : A} {s : σ} {v : α} {Q : α → A → σ → Prop} (h : Q v a s) :
    Meets C a s (pure v) Q := h

theorem meets_read {a : A} {s : σ} {Q : σ → A → σ → Prop} (h : Q s a s) :
    Meets C a s Prog.read Q := h

/-- **Sequencing.** -/
theorem meets_bind {a : A} {s : σ} {p : Prog σ α} {f : α → Prog σ β} {Q : β → A → σ → Prop}
    (h : Meets C a s p (fun v b t => Meets C b t (f v) Q)) : Meets C a s (p >>= f) Q :=
  plan_append (R := fun t => Q ((f (p.value s)).value t)) h

/-- Reading binds the current state. -/
theorem meets_read_bind {a : A} {s : σ} {f : σ → Prog σ β} {Q : β → A → σ → Prop}
    (h : Meets C a s (f s) Q) : Meets C a s (Prog.read >>= f) Q :=
  meets_bind (meets_read h)

/-- **One write**: after any move of the others, the process moves so that the new state reads
    correctly. -/
theorem meets_write {a : A} {s : σ} {f : σ → σ} {Q : Unit → A → σ → Prop}
    (hm : C.move s (f s)) (h : ∀ a', C.rely a a' → ∃ a'', C.guar a' a'' ∧ C.mid a'' (f s) ∧ Q () a'' (f s)) :
    Meets C a s (Prog.write f) Q := ⟨hm, h⟩

/-- A weaker postcondition. -/
theorem meets_mono {a : A} {s : σ} {p : Prog σ α} {Q R : α → A → σ → Prop}
    (h : Meets C a s p Q) (hi : ∀ v b t, Q v b t → R v b t) : Meets C a s p R :=
  plan_mono (hi _) h

theorem meets_ite {a : A} {s : σ} {c : Prop} [Decidable c] {p q : Prog σ α}
    {Q : α → A → σ → Prop} (h1 : c → Meets C a s p Q) (h2 : ¬ c → Meets C a s q Q) :
    Meets C a s (if c then p else q) Q := by
  split
  · exact h1 ‹_›
  · exact h2 ‹_›

theorem meets_when {a : A} {s : σ} {c : Prop} [Decidable c] {p : Prog σ Unit}
    {Q : Unit → A → σ → Prop} (h1 : c → Meets C a s p Q) (h2 : ¬ c → Q () a s) :
    Meets C a s (Prog.when c p) Q := meets_ite h1 h2

/-- **A loop over a list** keeps what each pass keeps. -/
theorem meets_forM {ι : Type} {P : A → σ → Prop} {f : ι → Prog σ PUnit} :
    ∀ {l : List ι} {a : A} {s : σ}, P a s →
      (∀ i ∈ l, ∀ b t, P b t → Meets C b t (f i) (fun _ => P)) →
      Meets C a s (l.forM f) (fun _ => P)
  | [], _, _, h, _ => h
  | i :: l, a, s, h, hf => by
      show Meets C a s (f i >>= fun _ => l.forM f) _
      refine meets_bind (meets_mono (hf i List.mem_cons_self a s h) fun _ b t hb => ?_)
      exact meets_forM hb fun j hj => hf j (List.mem_cons_of_mem i hj)

/-- A plan whose end condition is stable survives a move of the others before it starts. -/
theorem plan_rely {Q : A → σ → Prop}
    (htrans : ∀ {a b c}, C.rely a b → C.rely b c → C.rely a c)
    (hQ : ∀ {a b s}, C.rely a b → Q a s → Q b s) {a b : A} {s : σ} (hab : C.rely a b) :
    ∀ {l : List σ}, Plan C Q a s l → Plan C Q b s l
  | [], hp => hQ hab hp
  | _ :: _, hp => ⟨hp.1, fun a' ha => hp.2 a' (htrans hab ha)⟩

/-! ## 4. A process on its own -/

/-- The contract that asks for nothing. -/
def alone (σ : Type) : Contract Unit σ := ⟨fun _ _ => True, fun _ _ => True, fun _ _ => True, fun _ _ => True⟩

/-- A run of `p` from `s` ends in `Q`, by the rules for a process on its own. -/
abbrev Ends (s : σ) (p : Prog σ α) (Q : α → σ → Prop) : Prop :=
  Meets (alone σ) () s p (fun v _ t => Q v t)

theorem ends_write {s : σ} {f : σ → σ} {Q : Unit → σ → Prop} (h : Q () (f s)) :
    Ends s (Prog.write f) Q :=
  meets_write trivial fun _ _ => ⟨(), trivial, trivial, h⟩

/-- A write, and what follows it. -/
theorem ends_write_bind {s : σ} {f : σ → σ} {g : Unit → Prog σ β} {Q : β → σ → Prop}
    (h : Ends (f s) (g ()) Q) : Ends s (Prog.write f >>= g) Q :=
  meets_bind (meets_write trivial fun _ _ => ⟨(), trivial, trivial, h⟩)

theorem plan_alone {Q : Unit → σ → Prop} : ∀ {l : List σ} {s : σ}, Plan (alone σ) Q () s l →
    Q () (l.getLastD s)
  | [], _, hp => hp
  | t :: l, s, hp => by
      obtain ⟨-, hp⟩ := hp
      obtain ⟨_, -, -, hp'⟩ := hp () trivial
      rw [List.getLastD_cons]
      exact plan_alone hp'

/-- **What a run on its own ends in.** -/
theorem ends_final {s : σ} {p : Prog σ α} {Q : α → σ → Prop} (h : Ends s p Q) :
    Q (p.value s) (p.final s) :=
  plan_alone h

theorem plan_of_final {Q : Unit → σ → Prop} : ∀ {l : List σ} {s : σ}, Q () (l.getLastD s) →
    Plan (alone σ) Q () s l
  | [], _, h => h
  | t :: l, s, h => by
      rw [List.getLastD_cons] at h
      exact ⟨trivial, fun _ _ => ⟨(), trivial, trivial, plan_of_final h⟩⟩

/-- Two facts about where a run ends. -/
theorem ends_and {s : σ} {p : Prog σ α} {Q R : α → σ → Prop} (h : Ends s p Q) (k : Ends s p R) :
    Ends s p (fun v t => Q v t ∧ R v t) :=
  plan_of_final ⟨ends_final h, ends_final k⟩

/-! ## 5. What holds at every moment -/

/-- The contract that asks for `I` at every moment. -/
def always (I : σ → Prop) : Contract Unit σ := ⟨fun _ _ => True, fun _ _ => True, fun _ => I, fun _ _ => True⟩

theorem plan_always {I : σ → Prop} {Q : Unit → σ → Prop} : ∀ {l : List σ} {s : σ},
    Plan (always I) Q () s l → ∀ t ∈ l, I t
  | [], _, _, _, ht => (List.not_mem_nil ht).elim
  | u :: l, _, hp, t, ht => by
      obtain ⟨_, -, hu, hp⟩ := hp.2 () trivial
      rcases List.mem_cons.mp ht with rfl | ht
      · exact hu
      · exact plan_always hp t ht

theorem plan_always_final {I : σ → Prop} {Q : Unit → σ → Prop} : ∀ {l : List σ} {s : σ},
    Plan (always I) Q () s l → Q () (l.getLastD s)
  | [], _, hp => hp
  | t :: l, s, hp => by
      obtain ⟨_, -, -, hp⟩ := hp.2 () trivial
      rw [List.getLastD_cons]
      exact plan_always_final hp

/-- What holds at every moment of a program, and what it ends in. -/
theorem meets_always {I : σ → Prop} {s : σ} {p : Prog σ α} {Q : α → Unit → σ → Prop}
    (hI : ∀ t ∈ p.moments s, I t) (hQ : Q (p.value s) () (p.final s)) : Meets (always I) () s p Q := by
  have hplan : ∀ {R : Unit → σ → Prop} {l : List σ} {s : σ}, (∀ t ∈ l, I t) → R () (l.getLastD s) →
      Plan (always I) R () s l := by
    intro R l
    induction l with
    | nil => exact fun _ hR => hR
    | cons t l ih =>
        intro s hl hR
        rw [List.getLastD_cons] at hR
        exact ⟨trivial, fun _ _ => ⟨(), trivial, hl t List.mem_cons_self,
          ih (fun x hx => hl x (List.mem_cons_of_mem t hx)) hR⟩⟩
  exact hplan hI hQ

theorem always_write {I : σ → Prop} {s : σ} {f : σ → σ} {Q : Unit → Unit → σ → Prop} (hI : I (f s))
    (hQ : Q () () (f s)) : Meets (always I) () s (Prog.write f) Q :=
  meets_write trivial fun _ _ => ⟨(), trivial, hI, hQ⟩

end Process
