/-
  File:      RaftRsm/Linear/Sessions.lean
  Subject:   EXACTLY-ONCE SESSIONS over a sequential object: a command that carries a client and a
             sequence number has its effect once, however often it is applied.

  The sessions remember, for each client, the last number they have seen and the answer it got.
  A command whose number is not above it gets the remembered answer and has no effect. Only the
  LATEST answer is remembered: a command that is applied again after a later one of its client gets
  an answer that is not its own.

  * `apply`, `after` -- the object behind its sessions;
  * `order L` -- the commands of `L` that count, in order, each once;
  * `tracks` -- the object behind its sessions is always where `order` takes the object itself;
  * `apply_gives` -- a command gets its own answer if no later one of its client came before it;
  * `executed_once` -- a command that counts is executed at exactly one place.
-/
import RaftRsm.Linear.History
import Mathlib.Logic.Function.Basic

namespace Linear.Sessions

open Linear

variable {σ B R : Type} (X : Object σ B R) (tag : B → Option (ℕ × ℕ))

/-! ## 1. The object behind its sessions -/

/-- The object's state, and for each client the last number and its answer. -/
structure State (σ R : Type) where
  data : σ
  last : ℕ → Option (ℕ × R)

/-- The remembered answer a command gets, if its number is not new. -/
def cached (s : State σ R) (b : B) : Option R :=
  match tag b with
  | none => none
  | some (c, q) =>
      match s.last c with
      | none => none
      | some (q', r) => if q ≤ q' then some r else none

/-- What the sessions remember after a command has been executed. -/
def record (last : ℕ → Option (ℕ × R)) (b : B) (r : R) : ℕ → Option (ℕ × R) :=
  match tag b with
  | none => last
  | some (c, q) => Function.update last c (some (q, r))

/-- One command. -/
def apply (s : State σ R) (b : B) : State σ R × R :=
  match cached tag s b with
  | some r => (s, r)
  | none =>
      (⟨(X.step s.data b).1, record tag s.last b (X.step s.data b).2⟩, (X.step s.data b).2)

/-- The state after a sequence of commands. -/
def after (L : List B) : State σ R :=
  L.foldl (fun s b => (apply X tag s b).1) ⟨X.init, fun _ => none⟩

variable {X tag} {L M : List B} {b : B} {c q : ℕ} {r : R} {s : State σ R}

theorem after_snoc : after X tag (L ++ [b]) = (apply X tag (after X tag L) b).1 := by
  unfold after
  rw [List.foldl_append]
  rfl

theorem cached_of_tag_none (h : tag b = none) : cached tag s b = none := by
  unfold cached
  rw [h]

theorem cached_eq_some (h : tag b = some (c, q)) :
    cached tag s b = some r ↔ ∃ q', s.last c = some (q', r) ∧ q ≤ q' := by
  unfold cached
  rw [h]
  dsimp only
  cases hl : s.last c with
  | none => simp
  | some x =>
      obtain ⟨q', r'⟩ := x
      by_cases hq : q ≤ q'
      · simp [hq]
      · simp only [hq, if_false, Option.some.injEq, Prod.mk.injEq]
        constructor
        · intro hn
          cases hn
        · intro hn
          obtain ⟨x, ⟨rfl, -⟩, hx⟩ := hn
          exact absurd hx hq

theorem apply_of_cached (h : cached tag s b = some r) : apply X tag s b = (s, r) := by
  unfold apply
  rw [h]

theorem apply_of_new (h : cached tag s b = none) : apply X tag s b =
    (⟨(X.step s.data b).1, record tag s.last b (X.step s.data b).2⟩, (X.step s.data b).2) := by
  unfold apply
  rw [h]

/-! ## 2. The commands that count -/

variable (X tag) in
/-- After the commands `L` the command `b` counts: it has a new number, or it has none and is not
    among them. -/
def Fresh (L : List B) (b : B) : Prop :=
  if tag b = none then b ∉ L else (cached tag (after X tag L) b).isNone = true

theorem fresh_of_tag_none (h : tag b = none) : Fresh X tag L b ↔ b ∉ L := by
  unfold Fresh
  rw [if_pos h]

theorem fresh_of_tag (h : tag b = some (c, q)) :
    Fresh X tag L b ↔ cached tag (after X tag L) b = none := by
  unfold Fresh
  rw [if_neg (by rw [h]; exact Option.some_ne_none _), Option.isNone_iff_eq_none]

variable [DecidableEq B]

instance (L : List B) (b : B) : Decidable (Fresh X tag L b) := by
  unfold Fresh
  infer_instance

variable (X tag) in
/-- The commands that count in `L`, after those of `M`. -/
def orderFrom (M : List B) : List B → List B
  | [] => []
  | b :: L => (if Fresh X tag M b then [b] else []) ++ orderFrom (M ++ [b]) L

variable (X tag) in
/-- **The commands that count**, in order. -/
def order (L : List B) : List B := orderFrom X tag [] L

theorem orderFrom_append (L N : List B) : ∀ M : List B,
    orderFrom X tag M (L ++ N) = orderFrom X tag M L ++ orderFrom X tag (M ++ L) N := by
  induction L with
  | nil =>
      intro M
      simp [orderFrom]
  | cons b L ih =>
      intro M
      simp only [List.cons_append, orderFrom, ih, List.append_assoc]
      rfl

theorem order_snoc : order X tag (L ++ [b]) =
    order X tag L ++ if Fresh X tag L b then [b] else [] := by
  unfold order
  rw [orderFrom_append]
  simp [orderFrom]

theorem order_snoc_fresh (h : Fresh X tag L b) : order X tag (L ++ [b]) = order X tag L ++ [b] := by
  rw [order_snoc, if_pos h]

theorem order_snoc_stale (h : ¬ Fresh X tag L b) : order X tag (L ++ [b]) = order X tag L := by
  rw [order_snoc, if_neg h, List.append_nil]

variable (X tag) in
/-- More commands only add to the order. -/
theorem order_grows (h : L <+: M) : order X tag L <+: order X tag M := by
  obtain ⟨N, rfl⟩ := h
  unfold order
  rw [orderFrom_append]
  exact List.prefix_append _ _

theorem mem_of_mem_order : ∀ {L : List B}, b ∈ order X tag L → b ∈ L := by
  intro L
  induction L using List.reverseRecOn with
  | nil => exact fun h => h
  | append_singleton L a ih =>
      intro h
      rw [order_snoc] at h
      rcases List.mem_append.mp h with h | h
      · exact List.mem_append_left _ (ih h)
      · split at h
        · exact List.mem_append_right _ h
        · cases h

/-! ## 3. The order explains the sessions -/

/-- A command that changes nothing and is always answered alike. -/
structure Inert (X : Object σ B R) (b : B) : Prop where
  keeps : ∀ s, (X.step s b).1 = s
  same : ∀ s t, (X.step s b).2 = (X.step t b).2

/-- What the object behind its sessions has to do with the object itself. -/
structure Tracks (X : Object σ B R) (tag : B → Option (ℕ × ℕ)) (L : List B) : Prop where
  data : (after X tag L).data = X.after (order X tag L)
  last : ∀ c q r, (after X tag L).last c = some (q, r) →
    ∃ b ∈ L, tag b = some (c, q) ∧ X.Gives (order X tag L) b r
  seen : ∀ b ∈ L, ∀ c q, tag b = some (c, q) →
    ∃ q' r, (after X tag L).last c = some (q', r) ∧ q ≤ q'
  plain : ∀ b ∈ L, tag b = none → b ∈ order X tag L
  nodup : (order X tag L).Nodup

theorem tracks_nil : Tracks X tag [] :=
  ⟨rfl, fun _ _ _ h => (Option.some_ne_none _ h.symm).elim, fun _ h => (List.not_mem_nil h).elim,
    fun _ h => (List.not_mem_nil h).elim, List.nodup_nil⟩

/-- A command without a session. -/
theorem Tracks.snoc_plain (h : Tracks X tag L) (hX : Inert X b) (hb : tag b = none) :
    Tracks X tag (L ++ [b]) := by
  have hstate : after X tag (L ++ [b]) = after X tag L := by
    rw [after_snoc, apply_of_new (cached_of_tag_none hb)]
    unfold record
    rw [hX.keeps, hb]
  have hmem : ∀ a ∈ L ++ [b], tag a ≠ none → a ∈ L := by
    intro a ha hne
    rcases List.mem_append.mp ha with ha | ha
    · exact ha
    · exact absurd (List.mem_singleton.mp ha ▸ hb) hne
  have hgrow := order_grows X tag (List.prefix_append L [b])
  refine ⟨?_, fun c q r hl => ?_, fun a ha c q ht => ?_, fun a ha ht => ?_, ?_⟩
  · rw [hstate, h.data, order_snoc]
    split
    · rw [Object.after_snoc, hX.keeps]
    · rw [List.append_nil]
  · rw [hstate] at hl
    obtain ⟨a, ha, ht, hg⟩ := h.last c q r hl
    exact ⟨a, List.mem_append_left _ ha, ht, hg.mono hgrow⟩
  · rw [hstate]
    exact h.seen a (hmem a ha (by rw [ht]; exact Option.some_ne_none _)) c q ht
  · by_cases haL : a ∈ L
    · exact hgrow.subset (h.plain a haL ht)
    · have hab : a = b := by
        rcases List.mem_append.mp ha with ha | ha
        · exact absurd ha haL
        · exact List.mem_singleton.mp ha
      subst hab
      rw [order_snoc_fresh ((fresh_of_tag_none ht).mpr haL)]
      exact List.mem_append_right _ (List.mem_singleton_self a)
  · rw [order_snoc]
    split
    · rename_i hf
      exact nodup_snoc h.nodup fun hm => (fresh_of_tag_none hb).mp hf (mem_of_mem_order hm)
    · rw [List.append_nil]
      exact h.nodup

/-- A command with an old number. -/
theorem Tracks.snoc_cached (h : Tracks X tag L) (hb : tag b = some (c, q))
    (hc : cached tag (after X tag L) b = some r) : Tracks X tag (L ++ [b]) := by
  have hstate : after X tag (L ++ [b]) = after X tag L := by
    rw [after_snoc, apply_of_cached hc]
  have horder : order X tag (L ++ [b]) = order X tag L := by
    refine order_snoc_stale fun hf => ?_
    rw [fresh_of_tag hb, hc] at hf
    cases hf
  refine ⟨?_, fun c q r hl => ?_, fun a ha c q ht => ?_, fun a ha ht => ?_, ?_⟩
  · rw [hstate, horder]
    exact h.data
  · rw [hstate] at hl
    rw [horder]
    obtain ⟨a, ha, ht, hg⟩ := h.last c q r hl
    exact ⟨a, List.mem_append_left _ ha, ht, hg⟩
  · rw [hstate]
    rcases List.mem_append.mp ha with ha | ha
    · exact h.seen a ha c q ht
    · rw [List.mem_singleton.mp ha, hb] at ht
      cases ht
      obtain ⟨q', hl, hq⟩ := (cached_eq_some hb).mp hc
      exact ⟨q', r, hl, hq⟩
  · rw [horder]
    rcases List.mem_append.mp ha with ha | ha
    · exact h.plain a ha ht
    · rw [List.mem_singleton.mp ha, hb] at ht
      cases ht
  · rw [horder]
    exact h.nodup

/-- A command with a new number. -/
theorem Tracks.snoc_new (h : Tracks X tag L) (hb : tag b = some (c, q))
    (hc : cached tag (after X tag L) b = none) : Tracks X tag (L ++ [b]) := by
  have hfresh : Fresh X tag L b := (fresh_of_tag hb).mpr hc
  have hstate : after X tag (L ++ [b]) =
      ⟨(X.step (after X tag L).data b).1, Function.update (after X tag L).last c
        (some (q, (X.step (after X tag L).data b).2))⟩ := by
    rw [after_snoc, apply_of_new hc]
    unfold record
    rw [hb]
  have hgrow := order_grows X tag (List.prefix_append L [b])
  have hself : X.Gives (order X tag (L ++ [b])) b (X.step (after X tag L).data b).2 := by
    rw [order_snoc_fresh hfresh, h.data]
    exact Object.gives_snoc
  -- a number that was seen is at most the last one, and `q` is above that
  have hlt : ∀ q' r, (after X tag L).last c = some (q', r) → q' < q := by
    intro q' r hl
    by_contra hle
    rw [(cached_eq_some hb).mpr ⟨q', hl, Nat.le_of_not_lt hle⟩] at hc
    cases hc
  refine ⟨?_, fun c' q' r hl => ?_, fun a ha c' q' ht => ?_, fun a ha ht => ?_, ?_⟩
  · rw [hstate, order_snoc_fresh hfresh, Object.after_snoc, ← h.data]
  · rw [hstate] at hl
    by_cases hcc : c' = c
    · subst hcc
      dsimp only at hl
      rw [Function.update_self] at hl
      cases hl
      exact ⟨b, List.mem_append_right _ (List.mem_singleton_self b), hb, hself⟩
    · dsimp only at hl
      rw [Function.update_of_ne hcc] at hl
      obtain ⟨a, ha, ht, hg⟩ := h.last c' q' r hl
      exact ⟨a, List.mem_append_left _ ha, ht, hg.mono hgrow⟩
  · rw [hstate]
    dsimp only
    by_cases hcc : c' = c
    · subst hcc
      rw [Function.update_self]
      refine ⟨q, _, rfl, ?_⟩
      rcases List.mem_append.mp ha with ha | ha
      · obtain ⟨x, r, hl, hx⟩ := h.seen a ha c' q' ht
        have := hlt x r hl
        omega
      · rw [List.mem_singleton.mp ha, hb] at ht
        cases ht
        exact Nat.le_refl _
    · rw [Function.update_of_ne hcc]
      rcases List.mem_append.mp ha with ha | ha
      · exact h.seen a ha c' q' ht
      · rw [List.mem_singleton.mp ha, hb] at ht
        cases ht
        exact absurd rfl hcc
  · rcases List.mem_append.mp ha with ha | ha
    · exact hgrow.subset (h.plain a ha ht)
    · rw [List.mem_singleton.mp ha, hb] at ht
      cases ht
  · rw [order_snoc_fresh hfresh]
    refine nodup_snoc h.nodup fun hm => ?_
    obtain ⟨x, r, hl, hx⟩ := h.seen b (mem_of_mem_order hm) c q hb
    have := hlt x r hl
    omega

/-- **The order explains the sessions**, for every sequence of commands in which those without a
    session are inert. -/
theorem tracks (hX : ∀ b ∈ L, tag b = none → Inert X b) : Tracks X tag L := by
  induction L using List.reverseRecOn with
  | nil => exact tracks_nil
  | append_singleton L b ih =>
      have ih := ih fun a ha => hX a (List.mem_append_left _ ha)
      cases hb : tag b with
      | none => exact ih.snoc_plain (hX b (List.mem_append_right _ (List.mem_singleton_self b)) hb) hb
      | some cq =>
          cases hc : cached tag (after X tag L) b with
          | none => exact ih.snoc_new hb hc
          | some r => exact ih.snoc_cached hb hc

/-! ## 4. Answers, and the one execution -/

/-- **A command gets its own answer** if no later one of its client was applied before it. -/
theorem apply_gives (hX : ∀ b ∈ L, tag b = none → Inert X b) (hL : M ++ [b] <+: L)
    (hsame : ∀ a ∈ M, ∀ x, tag b = some x → tag a = some x → a = b)
    (hlate : ∀ a ∈ M, ∀ c q q', tag b = some (c, q) → tag a = some (c, q') → q' ≤ q) :
    X.Gives (order X tag L) b (apply X tag (after X tag M) b).2 := by
  have hbL : b ∈ L := hL.subset (List.mem_append_right _ (List.mem_singleton_self b))
  have hM : Tracks X tag M := tracks fun a ha => hX a (hL.subset (List.mem_append_left _ ha))
  cases hb : tag b with
  | none =>
      -- it is in the order somewhere, and is answered alike everywhere
      have hmem : b ∈ order X tag L := (tracks hX).plain b hbL hb
      obtain ⟨T, U, hTU⟩ := List.append_of_mem hmem
      refine ⟨T, ⟨U, by rw [hTU, List.append_assoc]; rfl⟩, ?_⟩
      rw [apply_of_new (cached_of_tag_none hb)]
      exact (hX b hbL hb).same _ _
  | some cq =>
      obtain ⟨c, q⟩ := cq
      have hgrow := order_grows X tag hL
      cases hc : cached tag (after X tag M) b with
      | none =>
          rw [apply_of_new hc, hM.data]
          refine Object.Gives.mono ?_ hgrow
          rw [order_snoc_fresh ((fresh_of_tag hb).mpr hc)]
          exact Object.gives_snoc
      | some r =>
          rw [apply_of_cached hc]
          obtain ⟨q', hl, hq⟩ := (cached_eq_some hb).mp hc
          obtain ⟨a, ha, ht, hg⟩ := hM.last c q' r hl
          have hle := hlate a ha c q q' hb ht
          obtain rfl : q' = q := Nat.le_antisymm hle hq
          rw [hsame a ha _ hb ht] at hg
          exact hg.mono ((order_grows X tag (List.prefix_append M [b])).trans hgrow)

variable (X tag) in
/-- The command at position `i` of `L` is `b`, and it is executed there. -/
def ExecutedAt (L : List B) (b : B) (i : ℕ) : Prop :=
  L[i]? = some b ∧ cached tag (after X tag (L.take i)) b = none

theorem exists_executedAt (hb : tag b = some (c, q)) : ∀ {L : List B}, b ∈ order X tag L →
    ∃ i, ExecutedAt X tag L b i := by
  intro L
  induction L using List.reverseRecOn with
  | nil => exact fun h => (List.not_mem_nil h).elim
  | append_singleton L a ih =>
      intro h
      by_cases hL : b ∈ order X tag L
      · obtain ⟨i, hi, hc⟩ := ih hL
        have hlt : i < L.length := (List.getElem?_eq_some_iff.mp hi).1
        refine ⟨i, ?_, ?_⟩
        · rw [List.getElem?_append_left hlt]
          exact hi
        · rw [List.take_append_of_le_length (Nat.le_of_lt hlt)]
          exact hc
      · rw [order_snoc] at h
        have ha : b ∈ if Fresh X tag L a then [a] else [] :=
          (List.mem_append.mp h).resolve_left hL
        split at ha
        · rename_i hf
          obtain rfl := List.mem_singleton.mp ha
          refine ⟨L.length, ?_, ?_⟩
          · rw [List.getElem?_concat_length]
          · rw [List.take_left]
            exact (fresh_of_tag hb).mp hf
        · cases ha

/-- **A command that counts is executed at exactly one place.** -/
theorem executed_once (hX : ∀ b ∈ L, tag b = none → Inert X b) (hb : tag b = some (c, q))
    (hm : b ∈ order X tag L) : ∃! i, ExecutedAt X tag L b i := by
  -- once it has been executed, its number has been seen
  have hlt : ∀ i j, ExecutedAt X tag L b i → ExecutedAt X tag L b j → ¬ i < j := by
    intro i j hi hj hij
    have hmem : b ∈ L.take j := by
      refine List.mem_of_getElem? (i := i) ?_
      rw [List.getElem?_take_of_lt hij]
      exact hi.1
    have htake : Tracks X tag (L.take j) := tracks fun a ha => hX a (List.mem_of_mem_take ha)
    obtain ⟨q', r, hl, hq⟩ := htake.seen b hmem c q hb
    have hc := (cached_eq_some (r := r) hb).mpr ⟨q', hl, hq⟩
    rw [hj.2] at hc
    cases hc
  obtain ⟨i, hi⟩ := exists_executedAt hb hm
  refine ⟨i, hi, fun j hj => ?_⟩
  have h1 := hlt i j hi hj
  have h2 := hlt j i hj hi
  omega

end Linear.Sessions
