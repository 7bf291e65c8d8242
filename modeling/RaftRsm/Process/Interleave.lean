/-
  File:      RaftRsm/Process/Interleave.lean
  Subject:   PROCESSES RUNNING SIDE BY SIDE, moment by moment, with crashes; and the rule that
             lifts a per-process contract to every reachable world.

  A process is in a SLOT: the state it is in and the moments its current run has still to pass.
  One step of the world moves one process: it begins a run (only between two runs), it passes
  to the next moment, or it crashes -- at any moment, whatever it was doing.

  * `System`, `System.Step`, `System.Reach` -- the interleaving semantics;
  * `Simulation` -- an abstract state space with one contract per process, kept by every run
    that may begin and by every restart;
  * `Simulation.holds_reach` -- **along every run of the world the abstract state moves by
    guaranteed steps and every process reads correctly at every moment**;
  * `System.reach_finish`, `System.reach_run` -- a run can be taken to its end in one go;
  * `System.ending_of` -- what every run keeps from its beginning to its end.
-/
import RaftRsm.Process.Program

namespace Process

variable {N σ A : Type}

/-! ## 1. Worlds and their steps -/

/-- A process: the state it is in, and the moments its run has still to pass. -/
structure Slot (σ : Type) where
  cur : σ
  todo : List σ

/-- A world: one slot per process. -/
abbrev World (N σ : Type) : Type := N → Slot σ

/-- The states the processes are in. -/
def World.cur (w : World N σ) (n : N) : σ := (w n).cur

/-- A process is idle between two runs. -/
def World.Idle (w : World N σ) (n : N) : Prop := (w n).todo = []

/-- Where the run of a process ends, if it is not disturbed. -/
def World.ending (w : World N σ) (n : N) : σ := (w n).todo.getLastD (w.cur n)

theorem World.ending_idle {w : World N σ} {n : N} (h : w.Idle n) : w.ending n = w.cur n := by
  unfold World.Idle at h
  rw [World.ending, h, List.getLastD_nil]

section Update

variable [DecidableEq N] {w : World N σ} {n m : N} {x : Slot σ}

@[simp] theorem World.cur_update_self : World.cur (Function.update w n x) n = x.cur := by
  unfold World.cur
  rw [Function.update_self]

theorem World.cur_update_of_ne (h : m ≠ n) : World.cur (Function.update w n x) m = w.cur m := by
  unfold World.cur
  rw [Function.update_of_ne h]

/-- A process that has ended its run is idle, and so is whoever was. -/
theorem World.idle_update {t : σ} (h : m ≠ n → w.Idle m) :
    World.Idle (Function.update w n ⟨t, []⟩) m := by
  unfold World.Idle
  by_cases hm : m = n
  · rw [hm, Function.update_self]
  · rw [Function.update_of_ne hm]
    exact h hm

end Update

/-- A system of processes: where they start, which runs a process may begin when all processes
    are in given states (a run is the list of its moments), and what a crash leaves. -/
structure System (N σ : Type) where
  init : N → σ
  begins : (N → σ) → N → List σ → Prop
  restart : N → σ → σ → Prop

namespace System

variable [DecidableEq N] (S : System N σ)

/-- The world at the start: every process idle. -/
def start : World N σ := fun n => ⟨S.init n, []⟩

/-- **One step of the world**, taken by one process while it lives. -/
inductive Live : World N σ → N → World N σ → Prop where
  | begin (w : World N σ) (n : N) (l : List σ) (hi : w.Idle n) (hb : S.begins w.cur n l) :
      Live w n (Function.update w n ⟨w.cur n, l⟩)
  | advance (w : World N σ) (n : N) (t : σ) (l : List σ) (ht : (w n).todo = t :: l) :
      Live w n (Function.update w n ⟨t, l⟩)

/-- **One step of the world**: a process goes on, or crashes. -/
inductive Step : World N σ → N → World N σ → Prop where
  | live (w w' : World N σ) (n : N) (h : S.Live w n w') : Step w n w'
  | crash (w : World N σ) (n : N) (t : σ) (hr : S.restart n (w.cur n) t) :
      Step w n (Function.update w n ⟨t, []⟩)

/-- The worlds a run from `w` passes through. -/
def Reach : World N σ → World N σ → Prop := Relation.ReflTransGen fun w w' => ∃ n, S.Step w n w'

/-- The worlds a run from `w` passes through in one incarnation of the process `n`. -/
def Spans (n : N) : World N σ → World N σ → Prop :=
  Relation.ReflTransGen fun w w' => S.Live w n w' ∨ ∃ m, m ≠ n ∧ S.Step w m w'

/-- The worlds a run from the start passes through. -/
def Reachable (w : World N σ) : Prop := S.Reach S.start w

variable {S}

theorem live_other {w w' : World N σ} {n m : N} (h : S.Live w n w') (hm : m ≠ n) :
    w' m = w m := by
  cases h <;> exact Function.update_of_ne hm _ _

/-- A process that takes no step keeps its slot. -/
theorem step_other {w w' : World N σ} {n m : N} (h : S.Step w n w') (hm : m ≠ n) :
    w' m = w m := by
  cases h with
  | live _ _ h => exact live_other h hm
  | crash => exact Function.update_of_ne hm _ _

theorem reach_of_spans {n : N} {w w' : World N σ} (h : S.Spans n w w') : S.Reach w w' := by
  refine Relation.ReflTransGen.mono ?_ _ _ h
  intro v v' hv
  rcases hv with hv | ⟨m, -, hv⟩
  · exact ⟨n, .live _ _ _ hv⟩
  · exact ⟨m, hv⟩

/-- A begun run can be taken to its last moment. -/
theorem reach_finish (n : N) (l : List σ) : ∀ w : World N σ, (w n).todo = l →
    S.Reach w (Function.update w n ⟨l.getLastD (w.cur n), []⟩) := by
  induction l with
  | nil =>
      intro w h
      have e : Function.update w n ⟨w.cur n, []⟩ = w := by
        refine Function.update_eq_self_iff.mpr ?_
        rw [World.cur, ← h]
      rw [List.getLastD_nil, e]
      exact .refl
  | cons t l ih =>
      intro w h
      have hr := ih (Function.update w n ⟨t, l⟩) (by rw [Function.update_self])
      rw [Function.update_idem] at hr
      simp only [World.cur, Function.update_self] at hr
      rw [List.getLastD_cons]
      exact .head ⟨n, .live _ _ _ (.advance w n t l h)⟩ hr

/-- **A run an idle process may begin leads to the state it ends in.** -/
theorem reach_run {n : N} {l : List σ} {w : World N σ} (hi : w.Idle n)
    (hb : S.begins w.cur n l) : S.Reach w (Function.update w n ⟨l.getLastD (w.cur n), []⟩) := by
  have hr := reach_finish (S := S) n l (Function.update w n ⟨w.cur n, l⟩)
    (by rw [Function.update_self])
  rw [Function.update_idem] at hr
  simp only [World.cur, Function.update_self] at hr
  exact .head ⟨n, .live _ _ _ (.begin w n l hi hb)⟩ hr

/-- **What every run of a process keeps from its beginning to its end**, and what a restart gives back,
    holds of its state whenever it is idle. -/
theorem ending_of {n : N} {P : σ → Prop} (hinit : P (S.init n))
    (hrun : ∀ {w : World N σ} {l : List σ}, S.Reachable w → w.Idle n → P (w.cur n) →
      S.begins w.cur n l → P (l.getLastD (w.cur n)))
    (hcrash : ∀ {s t : σ}, S.restart n s t → P t) {w : World N σ} (h : S.Reachable w) :
    P (w.ending n) := by
  have hput : ∀ {w : World N σ} {m : N} {x : Slot σ}, P (w.ending n) →
      (m = n → P (x.todo.getLastD x.cur)) → P (World.ending (Function.update w m x) n) := by
    intro w m x hw hx
    by_cases hm : n = m
    · subst hm
      rw [World.ending, World.cur_update_self, Function.update_self]
      exact hx rfl
    · rw [World.ending, World.cur_update_of_ne hm, Function.update_of_ne hm]
      exact hw
  induction h with
  | refl => exact hinit
  | @tail w _ hw hs ih =>
      obtain ⟨m, hs⟩ := hs
      cases hs with
      | live _ _ hs =>
          cases hs with
          | begin l hi hb =>
              refine hput ih fun hm => ?_
              subst hm
              rw [World.ending_idle hi] at ih
              exact hrun hw hi ih hb
          | advance t l ht =>
              refine hput ih fun hm => ?_
              subst hm
              rw [World.ending, ht, List.getLastD_cons] at ih
              exact ih
      | crash _ t hr =>
          refine hput ih fun hm => ?_
          subst hm
          exact hcrash hr

end System

/-! ## 2. Contracts for all processes -/

/-- **An abstract state space that the processes of `S` share**, one contract per process: the
    others rely on what each guarantees, and every run and every restart keeps its contract. -/
structure Simulation (S : System N σ) (A : Type) where
  C : N → Contract A σ
  idle : N → A → σ → Prop
  zero : A
  rely_refl : ∀ n a, (C n).rely a a
  rely_trans : ∀ n {a b c}, (C n).rely a b → (C n).rely b c → (C n).rely a c
  guar_rely : ∀ {n m a b}, m ≠ n → (C n).guar a b → (C m).rely a b
  mid_rely : ∀ {n a b s}, (C n).rely a b → (C n).mid a s → (C n).mid b s
  idle_rely : ∀ {n a b s}, (C n).rely a b → idle n a s → idle n b s
  init_ok : ∀ n, (C n).mid zero (S.init n) ∧ idle n zero (S.init n)
  begins_ok : ∀ {a x n l}, (∀ m, (C m).mid a (x m)) → idle n a (x n) → S.begins x n l →
    Plan (C n) (idle n) a (x n) l
  restart_ok : ∀ {a n s t}, (C n).mid a s → S.restart n s t → (C n).mid a t ∧ idle n a t

namespace Simulation

variable {S : System N σ} (I : Simulation S A)

/-- The abstract state `a` explains the world `w`: every process reads correctly, and what is
    left of its run keeps its contract. -/
def Holds (a : A) (w : World N σ) : Prop :=
  ∀ n, (I.C n).mid a (w.cur n) ∧ Plan (I.C n) (I.idle n) a (w.cur n) (w n).todo

/-- The moves some process guarantees. -/
def Moves : A → A → Prop := Relation.ReflTransGen fun a b => ∃ n, (I.C n).guar a b

variable {I}

theorem Holds.mid {a : A} {w : World N σ} (h : I.Holds a w) (n : N) :
    (I.C n).mid a (w.cur n) := (h n).1

/-- An idle process also satisfies what holds between two runs. -/
theorem Holds.idle {a : A} {w : World N σ} (h : I.Holds a w) {n : N} (hi : w.Idle n) :
    I.idle n a (w.cur n) := by
  have hp := (h n).2
  rw [World.Idle] at hi
  rw [hi] at hp
  exact hp

theorem holds_start : I.Holds I.zero S.start := fun n => I.init_ok n

variable [DecidableEq N]

/-- The slots that stay are explained by the new abstract state as well. -/
theorem Holds.update {a b : A} {w : World N σ} {n : N} {s : Slot σ} (h : I.Holds a w)
    (hab : ∀ m, m ≠ n → (I.C m).rely a b)
    (hs : (I.C n).mid b s.cur ∧ Plan (I.C n) (I.idle n) b s.cur s.todo) :
    I.Holds b (Function.update w n s) := by
  intro m
  by_cases hm : m = n
  · subst hm
    simp only [World.cur, Function.update_self]
    exact hs
  · simp only [World.cur, Function.update_of_ne hm]
    exact ⟨I.mid_rely (hab m hm) (h m).1,
      plan_rely (Q := I.idle m) (I.rely_trans m) I.idle_rely (hab m hm) (h m).2⟩

/-- A live step is explained: by no move of the abstract state, or by one the acting process
    guarantees; and the process moves as its contract says. -/
theorem holds_live {a : A} {w w' : World N σ} {n : N} (h : I.Holds a w) (hs : S.Live w n w') :
    ∃ b, (b = a ∨ (I.C n).guar a b) ∧ I.Holds b w' ∧
      (w'.cur n = w.cur n ∨ (I.C n).move (w.cur n) (w'.cur n)) := by
  cases hs with
  | begin l hi hb =>
      refine ⟨a, .inl rfl, h.update (fun m _ => I.rely_refl m a) ⟨h.mid n, ?_⟩, .inl ?_⟩
      · exact I.begins_ok (fun m => h.mid m) (h.idle hi) hb
      · simp only [World.cur, Function.update_self]
  | advance t l ht =>
      have hp := (h n).2
      rw [ht] at hp
      obtain ⟨hmv, hp⟩ := hp
      obtain ⟨b, hg, hm, hp'⟩ := hp a (I.rely_refl n a)
      refine ⟨b, .inr hg, h.update (fun m hmn => I.guar_rely hmn hg) ⟨hm, hp'⟩, .inr ?_⟩
      simp only [World.cur, Function.update_self]
      exact hmv

/-- **One step of the world is explained.** -/
theorem holds_step {a : A} {w w' : World N σ} {n : N} (h : I.Holds a w) (hs : S.Step w n w') :
    ∃ b, (b = a ∨ (I.C n).guar a b) ∧ I.Holds b w' := by
  cases hs with
  | live _ _ hs =>
      obtain ⟨b, hb, hw, -⟩ := holds_live h hs
      exact ⟨b, hb, hw⟩
  | crash _ t hr =>
      obtain ⟨hm, hi⟩ := I.restart_ok (h.mid n) hr
      exact ⟨a, .inl rfl, h.update (fun m _ => I.rely_refl m a) ⟨hm, hi⟩⟩

/-- **Every run of the world is explained.** -/
theorem holds_reach {a : A} {w w' : World N σ} (h : I.Holds a w) (hr : S.Reach w w') :
    ∃ b, I.Moves a b ∧ I.Holds b w' := by
  induction hr with
  | refl => exact ⟨a, .refl, h⟩
  | tail _ hs ih =>
      obtain ⟨b, hab, hb⟩ := ih
      obtain ⟨n, hs⟩ := hs
      obtain ⟨c, hc | hc, hw⟩ := holds_step hb hs
      · subst hc
        exact ⟨c, hab, hw⟩
      · exact ⟨c, hab.tail ⟨n, hc⟩, hw⟩

/-- **Every reachable world is explained.** -/
theorem holds_reachable {w : World N σ} (hr : S.Reachable w) :
    ∃ a, I.Moves I.zero a ∧ I.Holds a w := holds_reach holds_start hr

/-- **Within one incarnation a process only moves as its contract says.** -/
theorem spans_move {n : N} {P : σ → σ → Prop} (hrefl : ∀ s, P s s)
    (htrans : ∀ {s t u}, P s t → P t u → P s u) (hmove : ∀ {s t}, (I.C n).move s t → P s t)
    {a : A} {w w' : World N σ} (h : I.Holds a w) (hr : S.Spans n w w') :
    P (w.cur n) (w'.cur n) := by
  have key : (∃ b, I.Holds b w') ∧ P (w.cur n) (w'.cur n) := by
    induction hr with
    | refl => exact ⟨⟨a, h⟩, hrefl _⟩
    | tail _ hs ih =>
        obtain ⟨⟨b, hb⟩, hp⟩ := ih
        rcases hs with hs | ⟨m, hm, hs⟩
        · obtain ⟨c, -, hc, he | hmv⟩ := holds_live hb hs
          · exact ⟨⟨c, hc⟩, by rw [he]; exact hp⟩
          · exact ⟨⟨c, hc⟩, htrans hp (hmove hmv)⟩
        · obtain ⟨c, -, hc⟩ := holds_step hb hs
          refine ⟨⟨c, hc⟩, ?_⟩
          have he := System.step_other hs hm.symm
          unfold World.cur at hp ⊢
          rw [he]
          exact hp
  exact key.2

end Simulation

end Process
