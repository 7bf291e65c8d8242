/-
  File:      RaftRsm/Replication/LogMatching.lean
  Subject:   LOG MATCHING on the abstract machine: every log is grown out of leaders' logs.

  The invariant is about one log at a time. A log is GROWN (`Grown`) when each of its prefixes
  that ends in an entry of term `t` is a prefix of `llog t`, the log of the leader of `t`. Two
  grown logs that hold entries of one term at one index therefore agree up to that index
  (`Grown.matching`), and the stamps of a grown log never decrease (`Grown.sorted`).

  `LogInv` says so of every node's log, every leader's log and the log of every voter at the
  time of its vote, and relates `elog` to `llog`: what a leader adds carries its own term, what
  it started from carries earlier ones.
-/
import RaftRsm.Replication.Election

namespace Replication

variable {N E : Type} (𝒮 : Setting N E)

/-- **`l` is grown out of leaders' logs of terms up to `b`.** -/
def Grown (s : State N E) (b : ℕ) (l : List E) : Prop :=
  ∀ i e, l[i]? = some e → 1 ≤ 𝒮.stamp e ∧ 𝒮.stamp e ≤ b ∧
    (∃ m, s.leader (𝒮.stamp e) = some m) ∧ l.take (i + 1) <+: s.llog (𝒮.stamp e)

/-- **The log invariant.** -/
structure LogInv (s : State N E) : Prop where
  node : ∀ n, Grown 𝒮 s (s.term n) (s.log n)
  ldr : ∀ T, Grown 𝒮 s T (s.llog T)
  voted : ∀ {v T c L}, s.voted v T c L → Grown 𝒮 s T L
  elog_llog : ∀ T, s.elog T <+: s.llog T
  elog_lt : ∀ {T e}, e ∈ s.elog T → 𝒮.stamp e < T
  llog_new : ∀ {T i e}, (s.llog T)[i]? = some e → (s.elog T).length ≤ i → 𝒮.stamp e = T
  own : ∀ {T l}, s.leader T = some l → s.term l = T → s.log l = s.llog T
  unled : ∀ {T}, s.leader T = none → s.llog T = [] ∧ s.elog T = []

variable {𝒮} {s t : State N E} {b : ℕ} {l m : List E}

/-! ## 1. Grown logs -/

theorem grown_nil : Grown 𝒮 s b [] := fun _ _ h => by simp at h

theorem Grown.mono (h : Grown 𝒮 s b l) (hst : Le s t) {c : ℕ} (hbc : b ≤ c) :
    Grown 𝒮 t c l := by
  intro i e he
  obtain ⟨h1, h2, ⟨k, hk⟩, h3⟩ := h i e he
  exact ⟨h1, h2.trans hbc, ⟨k, hst.leader hk⟩, h3.trans (hst.llog hk)⟩

theorem Grown.sub (h : Grown 𝒮 s b l) (hm : m <+: l) : Grown 𝒮 s b m := by
  intro i e he
  obtain ⟨k, rfl⟩ := hm
  have hi := (List.getElem?_eq_some_iff.mp he).1
  obtain ⟨h1, h2, h3, h4⟩ := h i e (by rw [List.getElem?_append_left hi]; exact he)
  rw [List.take_append_of_le_length (by omega)] at h4
  exact ⟨h1, h2, h3, h4⟩

/-- A leader's log grown by an entry of its own term. -/
theorem Grown.concat (h : Grown 𝒮 s b l) {e : E} {n : N} (h1 : 1 ≤ 𝒮.stamp e)
    (hb : 𝒮.stamp e ≤ b) (hl : s.leader (𝒮.stamp e) = some n)
    (hp : l ++ [e] <+: s.llog (𝒮.stamp e)) : Grown 𝒮 s b (l ++ [e]) := by
  intro i f hf
  rcases Nat.lt_or_ge i l.length with hi | hi
  · rw [List.getElem?_append_left hi] at hf
    rw [List.take_append_of_le_length (by omega)]
    exact h i f hf
  · rw [List.getElem?_append_right hi] at hf
    obtain ⟨hlt, rfl⟩ := List.getElem?_eq_some_iff.mp hf
    simp only [List.length_singleton, Nat.lt_one_iff] at hlt
    simp only [List.getElem_singleton]
    rw [List.take_of_length_le (by simp; omega)]
    exact ⟨h1, hb, ⟨n, hl⟩, hp⟩

/-- Two prefixes of one list that reach past `i` hold the same entry at `i`. -/
theorem getElem_of_pre {i : ℕ} {e : E} (hm : m <+: l) (he : m[i]? = some e) :
    l[i]? = some e := by
  obtain ⟨k, rfl⟩ := hm
  rw [List.getElem?_append_left (List.getElem?_eq_some_iff.mp he).1]
  exact he

theorem getElem_take_succ {i j : ℕ} {e : E} (he : l[i]? = some e) (hij : i ≤ j) :
    (l.take (j + 1))[i]? = some e := by
  rw [List.getElem?_take_of_lt (by omega)]
  exact he

/-- **The stamps of a grown log never decrease.** -/
theorem Grown.sorted (h : LogInv 𝒮 s) (hl : Grown 𝒮 s b l) {i j : ℕ} {e f : E}
    (he : l[i]? = some e) (hf : l[j]? = some f) (hij : i ≤ j) : 𝒮.stamp e ≤ 𝒮.stamp f := by
  -- the entry at `i` sits in the log of the leader that made the entry at `j`
  have hp := (hl j f hf).2.2.2
  have hi := getElem_of_pre hp (getElem_take_succ he hij)
  exact ((h.ldr _) i e hi).2.1

/-- **Log matching**: two grown logs with entries of one term at one index agree up to it. -/
theorem Grown.matching {c : ℕ} (hl : Grown 𝒮 s b l) (hm : Grown 𝒮 s c m) {i : ℕ} {e f : E}
    (he : l[i]? = some e) (hf : m[i]? = some f) (hef : 𝒮.stamp e = 𝒮.stamp f) :
    l.take (i + 1) = m.take (i + 1) := by
  have h1 := (hl i e he).2.2.2
  have h2 := (hm i f hf).2.2.2
  rw [hef] at h1
  have hli := (List.getElem?_eq_some_iff.mp he).1
  have hmi := (List.getElem?_eq_some_iff.mp hf).1
  refine (List.prefix_of_prefix_length_le h1 h2 ?_).eq_of_length ?_ <;>
    simp only [List.length_take] <;> omega

/-- Where another log holds the same term higher up, it holds the entry as well. -/
theorem Grown.below {c : ℕ} (hl : Grown 𝒮 s b l) (hm : Grown 𝒮 s c m) {i j : ℕ} {e f : E}
    (he : l[i]? = some e) (hf : m[j]? = some f) (hij : i ≤ j) (hef : 𝒮.stamp e = 𝒮.stamp f) :
    m[i]? = some e := by
  obtain ⟨g, hg⟩ : ∃ g, m[i]? = some g :=
    ⟨_, List.getElem?_eq_getElem (Nat.lt_of_le_of_lt hij (List.getElem?_eq_some_iff.mp hf).1)⟩
  -- both entries are the one the leader of that term has at `i`
  have h1 := getElem_of_pre (hl i e he).2.2.2 (getElem_take_succ he (Nat.le_refl i))
  have h2 := getElem_of_pre (hm j f hf).2.2.2 (getElem_take_succ hg hij)
  rw [hef, h2] at h1
  rw [hg, h1]

/-! ## 2. The invariant is inductive -/

theorem logInv_zero : LogInv 𝒮 (State.zero : State N E) where
  node _ := grown_nil
  ldr _ := grown_nil
  voted h := h.elim
  elog_llog _ := List.prefix_refl _
  elog_lt h := absurd h List.not_mem_nil
  llog_new h := by simp [State.zero] at h
  own h := by cases h
  unled _ := ⟨rfl, rfl⟩

variable [DecidableEq N] {n : N}

theorem logInv_campaign (hE : ElectInv 𝒮 s) (h : LogInv 𝒮 s) : LogInv 𝒮 (s.campaign n) := by
  have hle := le_of_step (Step.campaign (𝒮 := 𝒮) (n := n) s)
  refine { h with
    node := fun m => (h.node m).mono hle (hle.term m)
    ldr := fun T => (h.ldr T).mono hle (Nat.le_refl _)
    voted := ?_
    own := fun {T l} hl hT => ?_ }
  · rintro v T c L (hv | ⟨hvn, hT, -, hL⟩)
    · exact (h.voted hv).mono hle (Nat.le_refl _)
    · subst hvn hT hL
      exact (h.node v).mono hle (Nat.le_succ _)
  · by_cases hln : l = n
    · subst hln
      simp only [State.campaign, Function.update_self] at hT
      have := (hE.leader_le hl).2
      omega
    · simp only [State.campaign, Function.update_of_ne hln] at hT
      exact h.own hl hT

theorem logInv_observe (hE : ElectInv 𝒮 s) (h : LogInv 𝒮 s) {T : ℕ} (hT : s.term n < T) :
    LogInv 𝒮 (s.observe n T) := by
  have hle := le_of_step (Step.observe (𝒮 := 𝒮) s T hT)
  refine { h with
    node := fun m => (h.node m).mono hle (hle.term m)
    ldr := fun T => (h.ldr T).mono hle (Nat.le_refl _)
    voted := fun hv => (h.voted hv).mono hle (Nat.le_refl _)
    own := fun {U l} hl hU => ?_ }
  by_cases hln : l = n
  · subst hln
    simp only [State.observe, Function.update_self] at hU
    have := (hE.leader_le hl).2
    omega
  · simp only [State.observe, Function.update_of_ne hln] at hU
    exact h.own hl hU

theorem logInv_grant (h : LogInv 𝒮 s) {c : N} (hle : Le s (s.grant n c)) :
    LogInv 𝒮 (s.grant n c) := by
  refine { h with
    node := fun m => (h.node m).mono hle (Nat.le_refl _)
    ldr := fun T => (h.ldr T).mono hle (Nat.le_refl _)
    voted := ?_ }
  rintro v T d L (hv | ⟨rfl, rfl, rfl, rfl⟩)
  · exact (h.voted hv).mono hle (Nat.le_refl _)
  · exact (h.node v).mono hle (Nat.le_refl _)

omit [DecidableEq N] in
theorem logInv_win (h : LogInv 𝒮 s) (hl : s.leader (s.term n) = none) (hle : Le s (s.win n)) :
    LogInv 𝒮 (s.win n) := by
  -- no entry of the new leader's term exists yet
  have hlt : ∀ e ∈ s.log n, 𝒮.stamp e < s.term n := by
    intro e he
    obtain ⟨i, hi⟩ := List.getElem?_of_mem he
    obtain ⟨-, h2, ⟨m, hm⟩, -⟩ := h.node n i e hi
    refine lt_of_le_of_ne h2 fun hT => ?_
    rw [hT, hl] at hm
    cases hm
  constructor
  · exact fun m => (h.node m).mono hle (Nat.le_refl _)
  · intro T
    by_cases hT : T = s.term n
    · subst hT
      simp only [State.win, Function.update_self]
      exact (h.node n).mono hle (Nat.le_refl _)
    · simp only [State.win, Function.update_of_ne hT]
      exact (h.ldr T).mono hle (Nat.le_refl _)
  · exact fun hv => (h.voted hv).mono hle (Nat.le_refl _)
  · intro T
    by_cases hT : T = s.term n
    · subst hT; simp [State.win]
    · simp only [State.win, Function.update_of_ne hT]; exact h.elog_llog T
  · intro T e he
    by_cases hT : T = s.term n
    · subst hT
      simp only [State.win, Function.update_self] at he
      exact hlt e he
    · simp only [State.win, Function.update_of_ne hT] at he
      exact h.elog_lt he
  · intro T i e he hi
    by_cases hT : T = s.term n
    · subst hT
      simp only [State.win, Function.update_self] at he hi
      have := (List.getElem?_eq_some_iff.mp he).1
      omega
    · simp only [State.win, Function.update_of_ne hT] at he hi
      exact h.llog_new he hi
  · intro T l hT hlT
    by_cases hTn : T = s.term n
    · subst hTn
      simp only [State.win, Function.update_self, Option.some.injEq] at hT ⊢
      rw [hT]
    · simp only [State.win, Function.update_of_ne hTn] at hT ⊢
      exact h.own hT hlT
  · intro T hT
    by_cases hTn : T = s.term n
    · subst hTn; simp [State.win] at hT
    · simp only [State.win, Function.update_of_ne hTn] at hT ⊢
      exact h.unled hT

theorem logInv_propose (hE : ElectInv 𝒮 s) (h : LogInv 𝒮 s) {e : E}
    (hl : s.leader (s.term n) = some n) (he : 𝒮.stamp e = s.term n) :
    LogInv 𝒮 (s.propose n e) := by
  have hle := le_of_step (Step.propose (𝒮 := 𝒮) s e hl he)
  have hown := h.own hl rfl
  have hnew : (s.propose n e).llog (s.term n) = s.llog (s.term n) ++ [e] :=
    Function.update_self ..
  have hlog : (s.propose n e).log n = s.llog (s.term n) ++ [e] := by
    rw [← hown]; exact Function.update_self ..
  have hgrow : Grown 𝒮 (s.propose n e) (s.term n) (s.llog (s.term n) ++ [e]) := by
    refine ((h.ldr (s.term n)).mono hle (Nat.le_refl _)).concat (n := n) ?_ he.le ?_ ?_
    · rw [he]; exact (hE.leader_le hl).1
    · rw [he]; exact hl
    · rw [he, hnew]
  refine { h with
    node := fun m => ?_, ldr := fun T => ?_, elog_llog := fun T => ?_
    voted := fun hv => (h.voted hv).mono hle (Nat.le_refl _)
    llog_new := fun {T i f} hf hi => ?_, own := fun {T l} hT hlT => ?_
    unled := fun {T} hT => ?_ }
  · by_cases hm : m = n
    · subst hm
      rw [hlog]
      exact hgrow
    · simp only [State.propose, Function.update_of_ne hm]
      exact (h.node m).mono hle (Nat.le_refl _)
  · by_cases hT : T = s.term n
    · subst hT; rw [hnew]; exact hgrow
    · simp only [State.propose, Function.update_of_ne hT]
      exact (h.ldr T).mono hle (Nat.le_refl _)
  · by_cases hT : T = s.term n
    · subst hT; rw [hnew]; exact (h.elog_llog _).trans (List.prefix_append _ _)
    · simp only [State.propose, Function.update_of_ne hT]; exact h.elog_llog T
  · by_cases hT : T = s.term n
    · subst hT
      rw [hnew] at hf
      rcases Nat.lt_or_ge i (s.llog (s.term n)).length with hlt | hge
      · rw [List.getElem?_append_left hlt] at hf
        exact h.llog_new hf hi
      · rw [List.getElem?_append_right hge] at hf
        have hfe := List.mem_of_getElem? hf
        rw [List.mem_singleton] at hfe
        rw [hfe, he]
    · simp only [State.propose, Function.update_of_ne hT] at hf
      exact h.llog_new hf hi
  · by_cases hln : l = n
    · subst hln
      have hlT' : s.term l = T := hlT
      subst hlT'
      rw [hlog, hnew]
    · -- another leader's log belongs to another term
      have hTn : T ≠ s.term n := by
        rintro rfl
        have hT' : s.leader (s.term n) = some l := hT
        rw [hl] at hT'
        exact hln (Option.some.inj hT').symm
      simp only [State.propose, Function.update_of_ne hln, Function.update_of_ne hTn]
      exact h.own hT hlT
  · have hTn : T ≠ s.term n := by
      rintro rfl
      have hT' : s.leader (s.term n) = none := hT
      rw [hl] at hT'
      cases hT'
    simp only [State.propose, Function.update_of_ne hTn]
    exact h.unled hT

/-- A follower's log may become any grown log: its leader's invariant is about others. -/
theorem logInv_setLog (h : LogInv 𝒮 s) {c : N} {k : List E} (hl : s.leader (s.term n) = some c)
    (hn : c ≠ n) (hk : Grown 𝒮 s (s.term n) k) : LogInv 𝒮 (s.setLog n k) := by
  refine { h with node := fun m => ?_, own := fun {T d} hT hd => ?_ }
  · by_cases hm : m = n
    · subst hm
      simp only [State.setLog, Function.update_self]
      exact hk
    · simp only [State.setLog, Function.update_of_ne hm]
      exact h.node m
  · have hdn : d ≠ n := by
      rintro rfl
      have hd' : s.term d = T := hd
      subst hd'
      have hT' : s.leader (s.term d) = some d := hT
      rw [hl] at hT'
      exact hn (Option.some.inj hT')
    simp only [State.setLog, Function.update_of_ne hdn]
    exact h.own hT hd

/-- **Every step keeps the log invariant.** -/
theorem logInv_step (hE : ElectInv 𝒮 s) (h : LogInv 𝒮 s) (hs : Step 𝒮 n s t) :
    LogInv 𝒮 t := by
  have hle := le_of_step hs
  cases hs with
  | campaign => exact logInv_campaign hE h
  | observe T hT => exact logInv_observe hE h hT
  | grant c L hc hv hu => exact logInv_grant h hle
  | win Q hq hv hc hl => exact logInv_win h hl hle
  | propose e hl he => exact logInv_propose hE h hl he
  | truncate c i e f hl hn hp he hf hne =>
      exact logInv_setLog h hl hn ((h.node n).sub ( List.take_prefix _ _))
  | extend c k hl hn hp hk => exact logInv_setLog h hl hn ((h.ldr _).sub hk)
  | ack => exact { h with }

end Replication
