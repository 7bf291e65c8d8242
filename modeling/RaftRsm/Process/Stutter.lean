/-
  File:      RaftRsm/Process/Stutter.lean
  Subject:   TWO SYSTEMS THAT LOOK ALIKE up to moments in which nothing can be seen.

  Of a process only `b s` is visible, its state without some of the members. Two runs look alike if
  they show the same sequence, not counting how often each view is repeated.

  * `Shadow b c l l'` -- the moments `l`, begun in `c`, look like the moments `l'`;
  * `Shadows S T b` -- whatever a process of `S` may begin, a process of `T` that looks the same may
    begin something that looks the same;
  * `Mirrors b w v`, `exists_mirror` -- then every run of `S` is, to the eye, a run of `T`.
-/
import RaftRsm.Process.Interleave

namespace Process

variable {N σ τ : Type} {b : σ → τ}

/-! ## 1. Moments that look alike -/

/-- **The moments `l`, begun in the state `c`, look like the moments `l'`.** -/
inductive Shadow (b : σ → τ) : σ → List σ → List σ → Prop where
  | done {c : σ} {l' : List σ} (h : ∀ t ∈ l', b t = b c) : Shadow b c [] l'
  | stay {c t : σ} {l l' : List σ} (h : b t = b c) (hl : Shadow b t l l') : Shadow b c (t :: l) l'
  | move {c t t' : σ} {p l l' : List σ} (hp : ∀ x ∈ p, b x = b c) (h : b t' = b t)
      (hl : Shadow b t l l') : Shadow b c (t :: l) (p ++ t' :: l')

/-- Views of one and the same state may come first. -/
theorem Shadow.after {c : σ} {l l' p : List σ} (hp : ∀ x ∈ p, b x = b c) (h : Shadow b c l l') :
    Shadow b c l (p ++ l') := by
  induction h with
  | done h =>
      refine .done fun t ht => ?_
      rcases List.mem_append.mp ht with ht | ht
      · exact hp t ht
      · exact h t ht
  | stay h _ ih => exact .stay h (ih fun x hx => (hp x hx).trans h.symm)
  | move hq h hl =>
      rw [← List.append_assoc]
      refine .move (fun x hx => ?_) h hl
      rcases List.mem_append.mp hx with hx | hx
      · exact hp x hx
      · exact hq x hx

theorem Shadow.append {c : σ} {l l' m m' : List σ} (h : Shadow b c l l')
    (hm : ∀ d, b d = b (l.getLastD c) → Shadow b d m m') : Shadow b c (l ++ m) (l' ++ m') := by
  induction h with
  | done h => exact (hm _ rfl).after h
  | stay h _ ih =>
      refine .stay h (ih ?_)
      rw [List.getLastD_cons] at hm
      exact hm
  | move hp h _ ih =>
      rw [List.append_assoc, List.cons_append]
      refine .move hp h (ih ?_)
      rw [List.getLastD_cons] at hm
      exact hm

/-- The same views, one by one. -/
theorem shadow_of_map : ∀ {l l' : List σ} {c : σ}, l'.map b = l.map b → Shadow b c l l'
  | [], l', _, h => by
      rw [List.map_nil, List.map_eq_nil_iff] at h
      subst h
      exact .done fun _ ht => (List.not_mem_nil ht).elim
  | t :: l, l', c, h => by
      obtain ⟨t', m', rfl, ht, hm⟩ := List.map_eq_cons_iff.mp h
      exact .move (p := []) (fun _ hx => (List.not_mem_nil hx).elim) ht (shadow_of_map hm)

/-- Nothing to be seen on either side. -/
theorem shadow_of_still : ∀ {l l' : List σ} {c : σ}, (∀ t ∈ l, b t = b c) → (∀ t ∈ l', b t = b c) →
    Shadow b c l l'
  | [], _, _, _, h' => .done h'
  | t :: l, l', c, h, h' => by
      have ht : b t = b c := h t List.mem_cons_self
      refine .stay ht (shadow_of_still (fun x hx => ?_) fun x hx => (h' x hx).trans ht.symm)
      exact (h x (List.mem_cons_of_mem t hx)).trans ht.symm

theorem view_getLastD {l : List σ} {c d : σ} (h : ∀ t ∈ l, b t = b c) (hd : b d = b c) :
    b (l.getLastD d) = b c := by
  rcases List.eq_nil_or_concat l with rfl | ⟨m, t, rfl⟩
  · exact hd
  · rw [List.concat_eq_append, getLastD_append]
    exact h t (by simp)

/-- Where a run ends looks the same from starts that look the same. -/
theorem view_getLastD_congr {c d : σ} (l : List σ) (h : b d = b c) : b (l.getLastD d) = b (l.getLastD c) := by
  cases l with
  | nil => exact h
  | cons t l => rw [List.getLastD_cons, List.getLastD_cons]

/-! ## 2. Systems that look alike -/

/-- **`T` can show whatever `S` shows.** -/
structure Shadows (S T : System N σ) (b : σ → τ) : Prop where
  init : ∀ n, b (T.init n) = b (S.init n)
  begins : ∀ {x x' : N → σ} {n : N} {l : List σ}, (∀ m, b (x' m) = b (x m)) → S.begins x n l →
    ∃ l', T.begins x' n l' ∧ Shadow b (x n) l l'
  restart : ∀ {s s' t : σ} {n : N}, b s' = b s → S.restart n s t →
    ∃ t', T.restart n s' t' ∧ b t' = b t

/-- **The world `v` looks like `w`**: every process shows the same, has the same to show, and rests
    if it rests in `w`. -/
structure Mirrors (b : σ → τ) (w v : World N σ) : Prop where
  view : ∀ n, b (v.cur n) = b (w.cur n)
  todo : ∀ n, Shadow b (w.cur n) (w n).todo (v n).todo
  idle : ∀ n, w.Idle n → v.Idle n

theorem mirrors_start {S T : System N σ} (H : Shadows S T b) : Mirrors b S.start T.start :=
  ⟨H.init, fun _ => .done fun _ ht => (List.not_mem_nil ht).elim, fun _ _ => rfl⟩

variable [DecidableEq N] {S T : System N σ} {w w' v : World N σ} {n : N}

/-- A begun run can be taken to any of its moments. -/
theorem reach_advance {t : σ} {l : List σ} : ∀ (p : List σ) {v : World N σ}, (v n).todo = p ++ t :: l →
    S.Reach v (Function.update v n ⟨t, l⟩)
  | [], v, h => .single ⟨n, .live _ _ _ (.advance v n t l h)⟩
  | u :: p, v, h => by
      have hr := reach_advance p (v := Function.update v n ⟨u, p ++ t :: l⟩) (by rw [Function.update_self])
      rw [Function.update_idem] at hr
      exact .head ⟨n, .live _ _ _ (.advance v n u _ h)⟩ hr

/-- One slot changes on both sides; a process that rests in `w` is taken to its rest. -/
theorem Mirrors.update (h : Mirrors b w v) {x y : Slot σ} (hv : b y.cur = b x.cur)
    (ht : Shadow b x.cur x.todo y.todo) : ∃ v', T.Reach (Function.update v n y) v' ∧
      Mirrors b (Function.update w n x) v' := by
  have hput : ∀ z : Slot σ, b z.cur = b x.cur → Shadow b x.cur x.todo z.todo →
      (x.todo = [] → z.todo = []) → Mirrors b (Function.update w n x) (Function.update v n z) := by
    intro z hz hzt hzi
    refine ⟨fun m => ?_, fun m => ?_, fun m hi => ?_⟩ <;> by_cases hm : m = n
    · subst hm
      rw [World.cur_update_self, World.cur_update_self]
      exact hz
    · rw [World.cur_update_of_ne hm, World.cur_update_of_ne hm]
      exact h.view m
    · subst hm
      rw [World.cur_update_self, Function.update_self, Function.update_self]
      exact hzt
    · rw [World.cur_update_of_ne hm, Function.update_of_ne hm, Function.update_of_ne hm]
      exact h.todo m
    · subst hm
      unfold World.Idle at hi ⊢
      rw [Function.update_self] at hi ⊢
      exact hzi hi
    · unfold World.Idle at hi ⊢
      rw [Function.update_of_ne hm] at hi ⊢
      exact h.idle m hi
  by_cases hx : x.todo = []
  · -- what is left to `y` shows nothing new
    rw [hx] at ht
    cases ht with
    | done hstill =>
        have hr := System.reach_finish (S := T) n y.todo (Function.update v n y) (by rw [Function.update_self])
        rw [Function.update_idem, World.cur_update_self] at hr
        refine ⟨_, hr, hput _ (view_getLastD hstill hv) ?_ fun _ => rfl⟩
        rw [hx]
        exact .done fun _ ht => (List.not_mem_nil ht).elim
  · exact ⟨_, .refl, hput y hv ht fun h => absurd h hx⟩

variable (H : Shadows S T b)

include H

/-- **One step of the world is mirrored.** -/
theorem Mirrors.step (h : Mirrors b w v) (hs : S.Step w n w') : ∃ v', T.Reach v v' ∧ Mirrors b w' v' := by
  cases hs with
  | live _ _ hs =>
      cases hs with
      | begin l hi hb =>
          obtain ⟨l', hb', hl⟩ := H.begins h.view hb
          obtain ⟨v', hr, hm⟩ := h.update (T := T) (n := n) (x := ⟨w.cur n, l⟩) (y := ⟨v.cur n, l'⟩)
            (h.view n) hl
          exact ⟨v', .head ⟨n, .live _ _ _ (.begin v n l' (h.idle n hi) hb')⟩ hr, hm⟩
      | advance t l ht =>
          have htodo := h.todo n
          rw [ht] at htodo
          generalize hv : (v n).todo = d at htodo
          cases htodo with
          | stay hb hl =>
              obtain ⟨v', hr, hm⟩ := h.update (T := T) (n := n) (x := ⟨t, l⟩) (y := v n)
                ((h.view n).trans hb.symm) (hv ▸ hl)
              rw [Function.update_eq_self] at hr
              exact ⟨v', hr, hm⟩
          | @move _ _ t' p _ l' hp hb hl =>
              obtain ⟨v', hr, hm⟩ := h.update (T := T) (n := n) (x := ⟨t, l⟩) (y := ⟨t', l'⟩) hb hl
              exact ⟨v', .trans (reach_advance p hv) hr, hm⟩
  | crash _ t hr =>
      obtain ⟨t', hr', hb⟩ := H.restart (h.view n) hr
      obtain ⟨v', hv, hm⟩ := h.update (T := T) (n := n) (x := ⟨t, []⟩) (y := ⟨t', []⟩) hb
        (.done fun _ ht => (List.not_mem_nil ht).elim)
      exact ⟨v', .head ⟨n, .crash v n t' hr'⟩ hv, hm⟩

/-- **Every run is mirrored, step by step.** -/
theorem Mirrors.reach (h : Mirrors b w v) (hr : S.Reach w w') : ∃ v', T.Reach v v' ∧ Mirrors b w' v' := by
  induction hr with
  | refl => exact ⟨v, .refl, h⟩
  | tail _ hs ih =>
      obtain ⟨u, hu, hm⟩ := ih
      obtain ⟨n, hs⟩ := hs
      obtain ⟨v', hv, hm'⟩ := hm.step H hs
      exact ⟨v', hu.trans hv, hm'⟩

/-- **Every reachable world has a mirror image.** -/
theorem exists_mirror (hr : S.Reachable w) : ∃ v, T.Reachable v ∧ Mirrors b w v :=
  (mirrors_start H).reach H hr

end Process
