/-
  File:      RaftRsm/Linear/Accepted.lean
  Subject:   EXACTLY ONCE, told by the history alone: which commands of a sequence count, and that a
             machine with a session table is where those commands alone would have taken it.

  A command counts if it is well formed and has no session, or has a number above those of all
  earlier commands of its client that count. The machine knows nothing of the history; what it has
  is the last number and the last answer of each client.

  * `accepted L` -- the commands of `L` that count;
  * `Lawful` -- what a machine does with its table, one command at a time;
  * `Remembers` -- the table holds the answer of the latest command that counts;
  * `exactlyOnce` -- the state and the answers, for every sequence of commands.
-/
import Mathlib.Logic.Function.Basic
import Mathlib.Data.List.Infix

namespace Linear

open scoped List

/-- A machine that takes commands in sessions and may get stuck. -/
structure SessionMachine (S B R : Type) where
  init : S
  apply : S → B → Option (S × R)
  wellFormed : B → Bool
  /-- The client and the number of a command, if it has a session. -/
  session : B → Option (ℕ × ℕ)
  /-- The table: the last number of a client, and the answer it got. -/
  last : S → ℕ → Option (ℕ × R)

namespace SessionMachine

variable {S B R : Type} (M : SessionMachine S B R)

/-! ## 1. Runs, and the commands that count -/

/-- The state after a sequence of commands. -/
def after (L : List B) : Option S := L.foldlM (fun s b => (M.apply s b).map Prod.fst) M.init

/-- What a command is answered after a sequence of others. -/
def answer (L : List B) (b : B) : Option R := (M.after L).bind fun s => (M.apply s b).map Prod.snd

/-- The state and the answers of a sequence of commands from a state on. -/
def run : S → List B → Option (S × List R)
  | s, [] => some (s, [])
  | s, b :: L => (M.apply s b).bind fun x => (run x.1 L).map fun y => (y.1, x.2 :: y.2)

/-- After the commands `A`, which all count, the command `b` counts too. -/
def accepts (A : List B) (b : B) : Bool :=
  M.wellFormed b && match M.session b with
    | none => true
    | some (c, q) => A.all fun a => match M.session a with
        | none => true
        | some (c', q') => c' ≠ c || q' < q

/-- **The commands that count.** -/
def accepted (L : List B) : List B :=
  L.foldl (fun A b => if M.accepts A b then A ++ [b] else A) []

variable {M} {L P : List B} {a b : B} {s s' : S} {c q : ℕ} {r : R}

theorem after_snoc (h : M.after L = some s) :
    M.after (L ++ [b]) = (M.apply s b).map Prod.fst := by
  unfold after at h ⊢
  rw [List.foldlM_append, h]
  simp

theorem answer_of_after (h : M.after L = some s) : M.answer L b = (M.apply s b).map Prod.snd := by
  unfold answer
  rw [h]
  rfl

theorem run_append {L' : List B} : ∀ {L : List B} {s s' : S} {rs : List R},
    M.run s L = some (s', rs) → M.run s (L ++ L') = (M.run s' L').map fun y => (y.1, rs ++ y.2)
  | [], s, _, _, h => by
      cases h
      simp
  | b :: L, s, _, _, h => by
      unfold run at h
      obtain ⟨x, hx, h⟩ := Option.bind_eq_some_iff.mp h
      obtain ⟨y, hy, he⟩ := Option.map_eq_some_iff.mp h
      cases he
      rw [List.cons_append, run, hx, Option.bind_some, run_append hy, Option.map_map]
      rfl

theorem exists_run : ∀ {L : List B} {s : S},
    L.foldlM (fun s b => (M.apply s b).map Prod.fst) s = some s' → ∃ rs, M.run s L = some (s', rs)
  | [], s, h => ⟨[], by cases h; rfl⟩
  | b :: L, s, h => by
      rw [List.foldlM_cons] at h
      obtain ⟨t, ht, h⟩ := Option.bind_eq_some_iff.mp h
      obtain ⟨x, hx, rfl⟩ := Option.map_eq_some_iff.mp ht
      obtain ⟨rs, hrs⟩ := exists_run h
      exact ⟨x.2 :: rs, by rw [run, hx, Option.bind_some, hrs]; rfl⟩

/-- **A machine that never gets stuck goes on from where it is**: the answers of the second half are
    those it gives from the state after the first. -/
theorem run_resumes (hM : ∀ L, (M.after L).isSome = true) (h : M.after L = some s) (L' : List B) :
    ∃ t rs rs', M.run M.init L = some (s, rs) ∧ M.run s L' = some (t, rs') ∧
      M.run M.init (L ++ L') = some (t, rs ++ rs') := by
  obtain ⟨rs, hrs⟩ := exists_run h
  obtain ⟨t, ht⟩ := Option.isSome_iff_exists.mp (hM (L ++ L'))
  obtain ⟨rs₂, hrs₂⟩ := exists_run ht
  have happ : M.run M.init (L ++ L') = _ := run_append hrs
  rw [hrs₂] at happ
  obtain ⟨⟨u, rs'⟩, hy, he⟩ := Option.map_eq_some_iff.mp happ.symm
  cases he
  exact ⟨u, rs, rs', hrs, hy, hrs₂⟩

theorem accepts_iff {A : List B} : M.accepts A b = true ↔ M.wellFormed b = true ∧
    ∀ c q, M.session b = some (c, q) → ∀ a ∈ A, ∀ q', M.session a = some (c, q') → q' < q := by
  unfold accepts
  rw [Bool.and_eq_true]
  refine and_congr_right fun _ => ?_
  cases hb : M.session b with
  | none => simp
  | some cq =>
      simp only [List.all_eq_true, Option.some.injEq]
      constructor
      · rintro h c q rfl a ha q' hq'
        have := h a ha
        rw [hq'] at this
        simpa using this
      · intro h a ha
        cases hq' : M.session a with
        | none => rfl
        | some cq' =>
            by_cases hc : cq'.1 = cq.1
            · have := h cq.1 cq.2 rfl a ha cq'.2 (by rw [hq', ← hc])
              simp [this]
            · simp [hc]

theorem accepted_snoc : M.accepted (L ++ [b]) =
    if M.accepts (M.accepted L) b then M.accepted L ++ [b] else M.accepted L := by
  unfold accepted
  rw [List.foldl_append]
  rfl

theorem accepted_snoc_of (h : M.accepts (M.accepted L) b = true) :
    M.accepted (L ++ [b]) = M.accepted L ++ [b] := by
  rw [accepted_snoc, if_pos h]

theorem accepted_snoc_of_not (h : ¬ M.accepts (M.accepted L) b = true) :
    M.accepted (L ++ [b]) = M.accepted L := by
  rw [accepted_snoc, if_neg h]

variable (M) in
/-- More commands only add to those that count. -/
theorem accepted_grows (h : P <+: L) : M.accepted P <+: M.accepted L := by
  obtain ⟨T, rfl⟩ := h
  induction T using List.reverseRecOn with
  | nil => rw [List.append_nil]
  | append_singleton T b ih =>
      rw [← List.append_assoc, accepted_snoc]
      split
      · exact ih.trans (List.prefix_append _ _)
      · exact ih

theorem mem_accepted (h : P ++ [a] <+: L) (ha : M.accepts (M.accepted P) a = true) :
    a ∈ M.accepted L := by
  refine (accepted_grows M h).subset ?_
  rw [accepted_snoc_of ha]
  exact List.mem_append_right _ (List.mem_singleton_self a)

/-! ## 2. What a machine does with its table -/

variable (M) in
/-- **The laws of a session table.** -/
structure Lawful : Prop where
  init : ∀ c, M.last M.init c = none
  malformed : ∀ {s b}, M.wellFormed b = false → ∃ r, M.apply s b = some (s, r)
  duplicate : ∀ {s b c q q' r}, M.wellFormed b = true → M.session b = some (c, q) →
    M.last s c = some (q', r) → q ≤ q' → M.apply s b = some (s, r)
  fresh : ∀ {L s b s' r}, M.after L = some s → M.wellFormed b = true →
    (∀ c q, M.session b = some (c, q) → ∀ q' r, M.last s c = some (q', r) → q' < q) →
    M.apply s b = some (s', r) → M.last s' = match M.session b with
      | none => M.last s
      | some (c, q) => Function.update (M.last s) c (some (q, r))

variable (M) in
/-- Of the commands of the client `c` that count in `L`, the one after `P` is the latest. -/
structure Latest (L : List B) (c : ℕ) (P : List B) (a : B) : Prop where
  mem : P ++ [a] <+: L
  accepts : M.accepts (M.accepted P) a = true
  client : ∃ q, M.session a = some (c, q)
  latest : ∀ Q x, P ++ [a] <+: Q → Q ++ [x] <+: L → M.accepts (M.accepted Q) x = true →
    ∀ q, M.session x ≠ some (c, q)

/-- A prefix of a list that has grown by one is the whole list, or was one before. -/
theorem prefix_snoc_cases {Q : List B} {x : B} (h : Q ++ [x] <+: L ++ [b]) :
    (Q = L ∧ x = b) ∨ Q ++ [x] <+: L := by
  rcases List.prefix_concat_iff.mp h with h | h
  · obtain ⟨hQ, hx⟩ := List.append_inj' h rfl
    exact .inl ⟨hQ, List.singleton_inj.mp hx⟩
  · exact .inr h

theorem Latest.snoc (h : M.Latest L c P a)
    (hb : M.accepts (M.accepted L) b = true → ∀ q, M.session b ≠ some (c, q)) :
    M.Latest (L ++ [b]) c P a := by
  refine ⟨h.mem.trans (List.prefix_append _ _), h.accepts, h.client, fun Q x hQ hx hacc => ?_⟩
  rcases prefix_snoc_cases hx with ⟨rfl, rfl⟩ | hx
  · exact hb hacc
  · exact h.latest Q x hQ hx hacc

theorem latest_self (hb : M.accepts (M.accepted L) b = true) (hc : M.session b = some (c, q)) :
    M.Latest (L ++ [b]) c L b := by
  refine ⟨List.prefix_rfl, hb, ⟨q, hc⟩, fun Q x hQ hx _ => ?_⟩
  have h1 := hQ.length_le
  have h2 := hx.length_le
  simp only [List.length_append, List.length_singleton] at h1 h2
  omega

variable (M) in
/-- **The table holds the answers of the latest commands that count.** -/
structure Remembers (L : List B) (s : S) : Prop where
  last : ∀ c q r, M.last s c = some (q, r) →
    ∃ P a, M.Latest L c P a ∧ M.session a = some (c, q) ∧ M.answer P a = some r
  seen : ∀ a ∈ M.accepted L, ∀ c q, M.session a = some (c, q) →
    ∃ q' r, M.last s c = some (q', r) ∧ q ≤ q'

namespace Remembers

/-- A command counts exactly if the table says that its number is new. -/
theorem accepts_iff (h : M.Remembers L s) (hb : M.wellFormed b = true) :
    M.accepts (M.accepted L) b = true ↔ ∀ c q, M.session b = some (c, q) →
      ∀ q' r, M.last s c = some (q', r) → q' < q := by
  rw [SessionMachine.accepts_iff]
  constructor
  · intro hacc c q hc q' r hl
    obtain ⟨P, a, hla, hs, -⟩ := h.last c q' r hl
    exact hacc.2 c q hc a (mem_accepted hla.mem hla.accepts) q' hs
  · intro hnew
    refine ⟨hb, fun c q hc a ha q' ha' => ?_⟩
    obtain ⟨x, r, hl, hx⟩ := h.seen a ha c q' ha'
    exact Nat.lt_of_le_of_lt hx (hnew c q hc x r hl)

/-- A command that does not count leaves the table as it is. -/
theorem skip (h : M.Remembers L s) (hb : ¬ M.accepts (M.accepted L) b = true) :
    M.Remembers (L ++ [b]) s := by
  refine ⟨fun c q r hl => ?_, ?_⟩
  · obtain ⟨P, a, hla, hrest⟩ := h.last c q r hl
    exact ⟨P, a, hla.snoc fun hacc => absurd hacc hb, hrest⟩
  · rw [accepted_snoc_of_not hb]
    exact h.seen

/-- A command that counts without a session leaves it as well. -/
theorem plain (h : M.Remembers L s) (hb : M.accepts (M.accepted L) b = true)
    (hs : M.session b = none) (hl : M.last s' = M.last s) : M.Remembers (L ++ [b]) s' := by
  refine ⟨fun c q r hlast => ?_, fun a ha c q hc => ?_⟩
  · rw [hl] at hlast
    obtain ⟨P, a, hla, hrest⟩ := h.last c q r hlast
    refine ⟨P, a, hla.snoc fun _ q => ?_, hrest⟩
    rw [hs]
    exact Option.some_ne_none _ ∘ Eq.symm
  · rw [accepted_snoc_of hb] at ha
    rw [hl]
    rcases List.mem_append.mp ha with ha | ha
    · exact h.seen a ha c q hc
    · rw [List.mem_singleton.mp ha, hs] at hc
      cases hc

/-- A command that counts in a session is what the table holds from now on. -/
theorem record (h : M.Remembers L s) (hb : M.accepts (M.accepted L) b = true)
    (hs : M.session b = some (c, q)) (hans : M.answer L b = some r)
    (hl : M.last s' = Function.update (M.last s) c (some (q, r))) : M.Remembers (L ++ [b]) s' := by
  refine ⟨fun c' q' r' hlast => ?_, fun a ha c' q' hc' => ?_⟩
  · rw [hl] at hlast
    by_cases hcc : c' = c
    · subst hcc
      rw [Function.update_self] at hlast
      cases hlast
      exact ⟨L, b, latest_self hb hs, hs, hans⟩
    · rw [Function.update_of_ne hcc] at hlast
      obtain ⟨P, a, hla, hrest⟩ := h.last c' q' r' hlast
      refine ⟨P, a, hla.snoc fun _ x hx => ?_, hrest⟩
      rw [hs] at hx
      cases hx
      exact hcc rfl
  · rw [accepted_snoc_of hb] at ha
    rw [hl]
    by_cases hcc : c' = c
    · subst hcc
      rw [Function.update_self]
      refine ⟨q, r, rfl, ?_⟩
      rcases List.mem_append.mp ha with ha | ha
      · exact Nat.le_of_lt ((SessionMachine.accepts_iff.mp hb).2 c' q hs a ha q' hc')
      · rw [List.mem_singleton.mp ha, hs] at hc'
        cases hc'
        exact Nat.le_refl _
    · rw [Function.update_of_ne hcc]
      rcases List.mem_append.mp ha with ha | ha
      · exact h.seen a ha c' q' hc'
      · rw [List.mem_singleton.mp ha, hs] at hc'
        cases hc'
        exact absurd rfl hcc

end Remembers

/-! ## 3. Exactly once -/

/-- A command that does not count has no effect. -/
theorem Lawful.apply_skip (hM : M.Lawful) (h : M.Remembers L s)
    (hb : ¬ M.accepts (M.accepted L) b = true) : ∃ r, M.apply s b = some (s, r) := by
  cases hw : M.wellFormed b with
  | false => exact hM.malformed hw
  | true =>
      rw [h.accepts_iff hw] at hb
      push Not at hb
      obtain ⟨c, q, hc, q', r, hl, hq⟩ := hb
      exact ⟨r, hM.duplicate hw hc hl hq⟩

/-- **The table remembers**, in every run. -/
theorem Lawful.remembers (hM : M.Lawful) : ∀ {L : List B} {s : S}, M.after L = some s →
    M.Remembers L s := by
  intro L
  induction L using List.reverseRecOn with
  | nil =>
      intro s h
      cases h
      refine ⟨fun c q r hl => ?_, fun a ha => absurd ha List.not_mem_nil⟩
      rw [hM.init] at hl
      cases hl
  | append_singleton L b ih =>
      intro s' h
      cases hL : M.after L with
      | none =>
          have : M.after (L ++ [b]) = none := by
            unfold after at hL ⊢
            rw [List.foldlM_append, hL]
            rfl
          rw [this] at h
          cases h
      | some s =>
          have hrem := ih hL
          rw [after_snoc hL] at h
          by_cases hb : M.accepts (M.accepted L) b = true
          · obtain ⟨⟨s₁, r⟩, hap, rfl⟩ := Option.map_eq_some_iff.mp h
            have hw := (SessionMachine.accepts_iff.mp hb).1
            have hlast := hM.fresh hL hw ((hrem.accepts_iff hw).mp hb) hap
            have hans : M.answer L b = some r := by rw [answer_of_after hL, hap]; rfl
            cases hs : M.session b with
            | none =>
                rw [hs] at hlast
                exact hrem.plain hb hs hlast
            | some cq =>
                rw [hs] at hlast
                exact hrem.record hb hs hans hlast
          · obtain ⟨r, hap⟩ := hM.apply_skip hrem hb
            rw [hap] at h
            cases h
            exact hrem.skip hb

variable (M) in
/-- The sequence `L` has its effect once: only the commands that count have one, they are answered
    as if they were alone, and the others of a session are answered as its latest one that counts. -/
structure ExactlyOnce (L : List B) : Prop where
  runs : (M.after L).isSome = true
  state : M.after L = M.after (M.accepted L)
  answers : ∀ P b, P ++ [b] <+: L → M.accepts (M.accepted P) b = true →
    (M.answer P b).isSome = true ∧ M.answer P b = M.answer (M.accepted P) b
  repeats : ∀ P b, P ++ [b] <+: L → M.wellFormed b = true → ¬ M.accepts (M.accepted P) b = true →
    ∃ c q Q a, M.session b = some (c, q) ∧ M.Latest P c Q a ∧ (M.answer P b).isSome = true ∧
      M.answer P b = M.answer Q a

theorem Lawful.after_accepted (hM : M.Lawful) (hrun : ∀ L, (M.after L).isSome = true) (L : List B) :
    M.after L = M.after (M.accepted L) := by
  induction L using List.reverseRecOn with
  | nil => rfl
  | append_singleton L b ih =>
      obtain ⟨s, hs⟩ := Option.isSome_iff_exists.mp (hrun L)
      by_cases hb : M.accepts (M.accepted L) b = true
      · rw [accepted_snoc_of hb, after_snoc hs, after_snoc (ih ▸ hs)]
      · obtain ⟨r, hap⟩ := hM.apply_skip (hM.remembers hs) hb
        rw [accepted_snoc_of_not hb, after_snoc hs, hap, ← ih, hs]
        rfl

/-- **Exactly once**, for a machine that keeps the laws and never gets stuck. -/
theorem Lawful.exactlyOnce (hM : M.Lawful) (hrun : ∀ L, (M.after L).isSome = true) (L : List B) :
    M.ExactlyOnce L := by
  have hsome : ∀ P b, (M.answer P b).isSome = true := by
    intro P b
    obtain ⟨s, hs⟩ := Option.isSome_iff_exists.mp (hrun P)
    have := hrun (P ++ [b])
    rw [after_snoc hs] at this
    rw [answer_of_after hs]
    simpa using this
  refine ⟨hrun L, hM.after_accepted hrun L, fun P b _ _ => ⟨hsome P b, ?_⟩,
    fun P b _ hw hb => ?_⟩
  · unfold answer
    rw [hM.after_accepted hrun P]
  · obtain ⟨s, hs⟩ := Option.isSome_iff_exists.mp (hrun P)
    have hrem := hM.remembers hs
    rw [hrem.accepts_iff hw] at hb
    push Not at hb
    obtain ⟨c, q, hc, q', r, hl, hq⟩ := hb
    obtain ⟨Q, a, hla, -, hans⟩ := hrem.last c q' r hl
    refine ⟨c, q, Q, a, hc, hla, hsome P b, ?_⟩
    rw [hans, answer_of_after hs, hM.duplicate hw hc hl hq]
    rfl

end SessionMachine

end Linear
