/-
  File:      RaftRsm/Watch/Keyed.lean
  Subject:   MONITORS WITH A MEMORY PER KEY. A monitor is called over and over; each call has a key, is
             judged by what the monitor remembers for that key, and changes that memory alone.

  * `Keyed` -- such a monitor, over whatever state it keeps its memories in;
  * `memory_run` -- what it remembers for a key comes from the calls with that key only;
  * `silent_iff` -- it has said nothing exactly if no call was bad against the calls before it;
  * `last_cases`, `getLast?_callsOf`, `foldl_last` -- a monitor that keeps the last call of a key;
  * `silent_first_iff` -- a monitor that compares every call with the first of its key compares any two.
-/
import Mathlib.Data.List.Basic
import Mathlib.Data.List.Induction

namespace Watch

variable {S C K V W : Type} [DecidableEq K]

/-- **A monitor with a memory per key**: `next` is what a call makes of the memory, `bad` what there is
    to say about it. -/
structure Keyed (S C K V W : Type) [DecidableEq K] where
  step : S → C → S
  key : C → K
  memory : S → K → Option V
  said : S → List W
  next : Option V → C → Option V
  bad : Option V → C → List W
  fresh : S
  memory_fresh : ∀ k, memory fresh k = none
  said_fresh : said fresh = []
  memory_step : ∀ s c k, memory (step s c) k = if key c = k then next (memory s k) c else memory s k
  said_step : ∀ s c, said (step s c) = said s ++ bad (memory s (key c)) c

namespace Keyed

variable (M : Keyed S C K V W)

/-- The monitor after some calls. -/
def run (cs : List C) : S := cs.foldl M.step M.fresh

/-- The calls with the key `k`. -/
def callsOf (k : K) (cs : List C) : List C := cs.filter fun c => M.key c = k

variable {M}

theorem run_snoc (cs : List C) (c : C) : M.run (cs ++ [c]) = M.step (M.run cs) c := List.foldl_concat _ _ _ _

theorem callsOf_snoc_self (cs : List C) (c : C) : M.callsOf (M.key c) (cs ++ [c]) = M.callsOf (M.key c) cs ++ [c] := by
  unfold callsOf
  rw [List.filter_append, List.filter_cons_of_pos (by simp), List.filter_nil]

theorem callsOf_snoc_of_ne {k : K} {c : C} (h : M.key c ≠ k) (cs : List C) : M.callsOf k (cs ++ [c]) = M.callsOf k cs := by
  unfold callsOf
  rw [List.filter_append, List.filter_cons_of_neg (by simpa using h), List.filter_nil, List.append_nil]

theorem mem_callsOf {k : K} {cs : List C} {c : C} : c ∈ M.callsOf k cs ↔ c ∈ cs ∧ M.key c = k := by
  unfold callsOf
  rw [List.mem_filter, decide_eq_true_iff]

/-- **A memory comes from the calls with its key.** -/
theorem memory_run (k : K) (cs : List C) : M.memory (M.run cs) k = (M.callsOf k cs).foldl M.next none := by
  induction cs using List.reverseRecOn with
  | nil => exact M.memory_fresh k
  | append_singleton cs c ih =>
      rw [run_snoc, M.memory_step, ih]
      split_ifs with hk
      · subst hk
        rw [callsOf_snoc_self, List.foldl_concat]
      · rw [callsOf_snoc_of_ne hk]

/-- **The monitor is silent exactly if no call was bad against those before it.** -/
theorem silent_iff (cs : List C) : M.said (M.run cs) = [] ↔
    ∀ before c after, cs = before ++ c :: after →
      M.bad ((M.callsOf (M.key c) before).foldl M.next none) c = [] := by
  induction cs using List.reverseRecOn with
  | nil =>
      refine ⟨fun _ before c after h => ?_, fun _ => M.said_fresh⟩
      exact absurd h.symm (List.append_ne_nil_of_right_ne_nil _ (List.cons_ne_nil _ _))
  | append_singleton cs d ih =>
      rw [run_snoc, M.said_step, List.append_eq_nil_iff, ih, memory_run]
      constructor
      · rintro ⟨hold, hnew⟩ before c after heq
        rcases List.eq_nil_or_concat' after with rfl | ⟨after', x, rfl⟩
        · obtain ⟨rfl, hlast⟩ := List.append_inj' heq rfl
          obtain rfl := List.singleton_inj.mp hlast
          exact hnew
        · rw [← List.cons_append, ← List.append_assoc] at heq
          obtain ⟨rfl, -⟩ := List.append_inj' heq rfl
          exact hold before c after' rfl
      · intro h
        refine ⟨fun before c after heq => ?_, h cs d [] rfl⟩
        exact h before c (after ++ [d]) (by rw [heq, List.append_assoc, List.cons_append])

theorem getLast?_callsOf {k : K} {c : C} {after : List C} (before : List C) (hc : M.key c = k)
    (hafter : ∀ x ∈ after, M.key x ≠ k) : (M.callsOf k (before ++ c :: after)).getLast? = some c := by
  have hnone : after.filter (fun x => M.key x = k) = [] :=
    List.filter_eq_nil_iff.mpr fun x hx => by simpa using hafter x hx
  unfold callsOf
  rw [List.filter_append, List.filter_cons_of_pos (by simpa using hc), hnone, List.getLast?_concat]

/-- The last call with the key `k`, if there is one. -/
theorem last_cases (k : K) (cs : List C) : M.callsOf k cs = [] ∨
    ∃ before c after, cs = before ++ c :: after ∧ M.key c = k ∧ ∀ x ∈ after, M.key x ≠ k := by
  induction cs using List.reverseRecOn with
  | nil => exact .inl rfl
  | append_singleton cs d ih =>
      by_cases hd : M.key d = k
      · exact .inr ⟨cs, d, [], rfl, hd, fun _ h => (List.not_mem_nil h).elim⟩
      · rw [callsOf_snoc_of_ne hd]
        refine ih.imp_right ?_
        rintro ⟨before, c, after, rfl, hc, hafter⟩
        refine ⟨before, c, after ++ [d], by rw [List.append_assoc, List.cons_append], hc, fun x hx => ?_⟩
        rcases List.mem_append.mp hx with hx | hx
        · exact hafter x hx
        · exact List.mem_singleton.mp hx ▸ hd

/-- What a monitor that keeps the last call of a key remembers. -/
theorem foldl_last {f : C → Option V} (hnext : ∀ m c, M.next m c = f c) (l : List C) :
    l.foldl M.next none = l.getLast?.bind f := by
  induction l using List.reverseRecOn with
  | nil => rfl
  | append_singleton l c _ => rw [List.foldl_concat, hnext, List.getLast?_concat, Option.bind_some]

section First

variable {U : Type} {f : C → V} {g : V → U}

/-- What a monitor that keeps the first call of a key remembers. -/
theorem foldl_first (hnext : ∀ m c, M.next m c = m.or (some (f c))) :
    ∀ (l : List C) (m : Option V), l.foldl M.next m = m.or (l.head?.map f)
  | [], m => (Option.or_none).symm
  | c :: l, m => by
      rw [List.foldl_cons, hnext, foldl_first hnext l]
      cases m <;> rfl

/-- **Comparing every call with the first of its key is comparing any two calls of one key.** -/
theorem silent_first_iff (hnext : ∀ m c, M.next m c = m.or (some (f c)))
    (hnone : ∀ c, M.bad none c = []) (hsome : ∀ v c, M.bad (some v) c = [] ↔ g v = g (f c)) (cs : List C) :
    M.said (M.run cs) = [] ↔ ∀ c ∈ cs, ∀ d ∈ cs, M.key c = M.key d → g (f c) = g (f d) := by
  induction cs using List.reverseRecOn with
  | nil => exact ⟨fun _ c hc => (List.not_mem_nil hc).elim, fun _ => M.said_fresh⟩
  | append_singleton cs c ih =>
      have hbad : M.bad (M.memory (M.run cs) (M.key c)) c = [] ↔
          ∀ d, (M.callsOf (M.key c) cs).head? = some d → g (f d) = g (f c) := by
        rw [memory_run, foldl_first hnext, Option.none_or]
        cases (M.callsOf (M.key c) cs).head? with
        | none => exact ⟨fun _ d hd => (Option.some_ne_none d hd.symm).elim, fun _ => hnone c⟩
        | some d =>
            rw [Option.map_some, hsome]
            exact ⟨fun h e he => Option.some.inj he ▸ h, fun h => h d rfl⟩
      rw [run_snoc, M.said_step, List.append_eq_nil_iff, ih, hbad]
      constructor
      · rintro ⟨hold, hnew⟩
        -- the call agrees with the first of its key, so with all of them
        have hc : ∀ d ∈ cs, M.key d = M.key c → g (f d) = g (f c) := by
          intro d hd hk
          have hmem : d ∈ M.callsOf (M.key c) cs := mem_callsOf.mpr ⟨hd, hk⟩
          obtain ⟨e, l, hel⟩ := List.exists_cons_of_ne_nil (List.ne_nil_of_mem hmem)
          have he : (M.callsOf (M.key c) cs).head? = some e := by rw [hel, List.head?_cons]
          obtain ⟨hecs, hek⟩ := mem_callsOf.mp (List.mem_of_head? he)
          exact (hold d hd e hecs (hk.trans hek.symm)).trans (hnew e he)
        intro d hd e he hk
        rcases List.mem_append.mp hd with hd | hd <;> rcases List.mem_append.mp he with he | he
        · exact hold d hd e he hk
        · cases List.mem_singleton.mp he
          exact hc d hd hk
        · cases List.mem_singleton.mp hd
          exact (hc e he hk.symm).symm
        · cases List.mem_singleton.mp hd
          cases List.mem_singleton.mp he
          rfl
      · intro h
        refine ⟨fun d hd e he => h d (List.mem_append_left _ hd) e (List.mem_append_left _ he), fun d hd => ?_⟩
        obtain ⟨hmem, hk⟩ := mem_callsOf.mp (List.mem_of_head? hd)
        exact h d (List.mem_append_left _ hmem) c (List.mem_append_right _ (List.mem_singleton_self c)) hk

end First

end Keyed

end Watch
