/-
  File:      RaftRsm/Replication/Completeness.lean
  Subject:   LEADER COMPLETENESS on the abstract machine: what a quorum has acknowledged in a
             leader's own term is in the log of every later leader.

  An acknowledgement can outlive the entries it is about: its node may move to a later term and
  lose them to a leader that lacks them, and the old leader may still count the ack afterwards.
  So the invariant does not say that acknowledged entries are kept. It says that they are kept
  OR that a leader was elected in between without them (`Kept`). With that disjunct it is
  inductive (`AckInv`), for the logs of the nodes and for the logs voters held when they voted.

  `leader_complete` then discharges the disjunct by induction over the terms: take the first
  leader that lacks a committed prefix; its voters and the acknowledging quorum share a node,
  whose log at the vote still held the prefix, and the up-to-date order carries it over.

  * `Committed s T k` -- a quorum acknowledged the first `k` entries of the leader of `T`, and
    the `k`th is of term `T`;
  * `committed_held` -- a quorum of nodes holds a committed prefix NOW;
  * `Chosen s i e`, `chosen_unique` -- at most one entry is ever chosen at an index.
-/
import RaftRsm.Replication.LogMatching

namespace Replication

variable {N E : Type} (𝒮 : Setting N E)

/-- **The first `k` entries of the leader of `T` are kept in `L`**, unless a leader of a term
    in `(T, b]` was elected without them. -/
def Kept (s : State N E) (T k b : ℕ) (L : List E) : Prop :=
  (s.llog T).take k <+: L ∨
    ∃ U m, T < U ∧ U ≤ b ∧ s.leader U = some m ∧ ¬ (s.llog T).take k <+: s.elog U

/-- **The acknowledgement invariant.** -/
structure AckInv (s : State N E) : Prop where
  acked_led : ∀ {v T k}, s.acked v T k → ∃ m, s.leader T = some m
  acked_len : ∀ {v T k}, s.acked v T k → k ≤ (s.llog T).length
  acked_le : ∀ {v T k}, s.acked v T k → T ≤ s.term v
  acked_down : ∀ {v T j k}, s.acked v T k → j ≤ k → s.acked v T j
  kept_log : ∀ {v T k}, s.acked v T k → Kept s T k (s.term v) (s.log v)
  kept_vote : ∀ {v T k U c L}, s.voted v U c L → s.acked v T k → T < U → Kept s T k U L
  elected : ∀ {U n}, s.leader U = some n → ∃ Q, 𝒮.Quorum Q ∧ ∀ v ∈ Q, ∃ L, s.voted v U n L ∧
    𝒮.UpToDate (s.elog U) L ∧ ∀ T k, T < U → s.acked v T k → Kept s T k (U - 1) L

/-- **Committed**: a quorum acknowledged the prefix, and its last entry is of the term of the
    leader that counts. -/
def Committed (s : State N E) (T k : ℕ) : Prop :=
  ∃ Q, 𝒮.Quorum Q ∧ (∀ v ∈ Q, s.acked v T k) ∧
    ∃ i e, k = i + 1 ∧ (s.llog T)[i]? = some e ∧ 𝒮.stamp e = T

/-- **Chosen**: `e` is at index `i` of a committed prefix. -/
def Chosen (s : State N E) (i : ℕ) (e : E) : Prop :=
  ∃ T k, Committed 𝒮 s T k ∧ i < k ∧ (s.llog T)[i]? = some e

/-- The three invariants together. -/
structure Inv (s : State N E) : Prop where
  elect : ElectInv 𝒮 s
  log : LogInv 𝒮 s
  ack : AckInv 𝒮 s

variable {𝒮} {s t : State N E}

/-! ## 1. Kept prefixes -/

theorem Kept.mono {T k b c : ℕ} {L : List E} {l : N} (h : Kept s T k b L) (hst : Le s t)
    (hl : s.leader T = some l) (hk : k ≤ (s.llog T).length) (hbc : b ≤ c) : Kept t T k c L := by
  unfold Kept at h ⊢
  rw [hst.take_llog hl hk]
  rcases h with h | ⟨U, m, h1, h2, h3, h4⟩
  · exact .inl h
  · exact .inr ⟨U, m, h1, h2.trans hbc, hst.leader h3, by rw [hst.elog h3]; exact h4⟩

theorem Kept.append {T k b : ℕ} {L M : List E} (h : Kept s T k b L) (hLM : L <+: M) :
    Kept s T k b M := h.imp (fun h => h.trans hLM) id

/-- A common prefix of two lists ends before their first difference. -/
theorem take_of_conflict {p l m : List E} {i : ℕ} {e f : E} (hl : p <+: l) (hm : p <+: m)
    (he : l[i]? = some e) (hf : m[i]? = some f) (hef : e ≠ f) : p <+: l.take i := by
  refine List.prefix_of_prefix_length_le hl ( List.take_prefix i l) ?_
  have hil := (List.getElem?_eq_some_iff.mp he).1
  rw [List.length_take]
  rcases Nat.lt_or_ge i p.length with hi | hi
  · obtain ⟨g, hg⟩ : ∃ g, p[i]? = some g := ⟨p[i], List.getElem?_eq_getElem hi⟩
    have h1 := getElem_of_pre hl hg
    have h2 := getElem_of_pre hm hg
    rw [he] at h1
    rw [hf] at h2
    exact absurd ((Option.some.inj h1).trans (Option.some.inj h2).symm) hef
  · omega

/-- Dropping a conflicting suffix loses only what the leader did not start from. -/
theorem Kept.truncate {T k U : ℕ} {L : List E} {i : ℕ} {e f : E} {c : N} (hlog : LogInv 𝒮 s)
    (h : Kept s T k U L) (hTU : T ≤ U) (hl : s.leader U = some c) (he : L[i]? = some e)
    (hf : (s.llog U)[i]? = some f) (hne : 𝒮.stamp e ≠ 𝒮.stamp f) : Kept s T k U (L.take i) := by
  have hef : e ≠ f := fun h => hne (h ▸ rfl)
  rcases h with h | h
  · by_cases hp : (s.llog T).take k <+: s.llog U
    · exact .inl (take_of_conflict h hp he hf hef)
    · have hT : T < U := lt_of_le_of_ne hTU fun e => hp (e ▸ List.take_prefix _ _)
      exact .inr ⟨U, c, hT, Nat.le_refl _, hl, fun hp' => hp (hp'.trans (hlog.elog_llog U))⟩
  · exact .inr h

/-! ## 2. The invariant is inductive -/

theorem ackInv_zero : AckInv 𝒮 (State.zero : State N E) where
  acked_led h := h.elim
  acked_len h := h.elim
  acked_le h := h.elim
  acked_down h := h.elim
  kept_log h := h.elim
  kept_vote h := h.elim
  elected h := by cases h

/-- What a later state with the same acknowledgements inherits. -/
theorem AckInv.later (h : AckInv 𝒮 s) (hst : Le s t)
    (hack : ∀ {v T k}, t.acked v T k → s.acked v T k) {v : N} {T k b c : ℕ} {L : List E}
    (ha : t.acked v T k) (hk : Kept s T k b L) (hbc : b ≤ c) : Kept t T k c L := by
  obtain ⟨l, hl⟩ := h.acked_led (hack ha)
  exact hk.mono hst hl (h.acked_len (hack ha)) hbc

/-- **Steps that acknowledge nothing** keep the invariant if the new logs, the new votes and
    the new leader do. -/
theorem ackInv_of (h : AckInv 𝒮 s) (hst : Le s t)
    (hack : ∀ {v T k}, t.acked v T k → s.acked v T k)
    (hlog : ∀ {v T k}, s.acked v T k → Kept s T k (t.term v) (t.log v))
    (hvote : ∀ {v T k U c L}, t.voted v U c L → s.acked v T k → T < U → Kept s T k U L)
    (hlead : ∀ {U n}, t.leader U = some n → ∃ Q, 𝒮.Quorum Q ∧ ∀ v ∈ Q, ∃ L, t.voted v U n L ∧
      𝒮.UpToDate (t.elog U) L ∧ ∀ T k, T < U → s.acked v T k → Kept s T k (U - 1) L) :
    AckInv 𝒮 t where
  acked_led ha := (h.acked_led (hack ha)).imp fun _ => hst.leader
  acked_len ha := by
    obtain ⟨l, hl⟩ := h.acked_led (hack ha)
    exact (h.acked_len (hack ha)).trans (hst.llog hl).length_le
  acked_le ha := (h.acked_le (hack ha)).trans (hst.term _)
  acked_down ha hj := hst.acked (h.acked_down (hack ha) hj)
  kept_log ha := h.later hst hack ha (hlog (hack ha)) (Nat.le_refl _)
  kept_vote hv ha hTU := h.later hst hack ha (hvote hv (hack ha) hTU) (Nat.le_refl _)
  elected hl := by
    obtain ⟨Q, hq, hQ⟩ := hlead hl
    refine ⟨Q, hq, fun v hv => ?_⟩
    obtain ⟨L, h1, h2, h3⟩ := hQ v hv
    exact ⟨L, h1, h2, fun T k hTU ha => h.later hst hack ha (h3 T k hTU (hack ha)) (Nat.le_refl _)⟩

/-- The election records of the old state, for steps that elect nobody. -/
theorem AckInv.elected_later (h : AckInv 𝒮 s) (hst : Le s t) {U : ℕ} {n : N}
    (hl : s.leader U = some n) : ∃ Q, 𝒮.Quorum Q ∧ ∀ v ∈ Q, ∃ L, t.voted v U n L ∧
      𝒮.UpToDate (t.elog U) L ∧ ∀ T k, T < U → s.acked v T k → Kept s T k (U - 1) L := by
  obtain ⟨Q, hq, hQ⟩ := h.elected hl
  refine ⟨Q, hq, fun v hv => ?_⟩
  obtain ⟨L, h1, h2, h3⟩ := hQ v hv
  exact ⟨L, hst.voted h1, by rw [hst.elog hl]; exact h2, h3⟩

variable [DecidableEq N] {n : N}

theorem ackInv_campaign (h : AckInv 𝒮 s) : AckInv 𝒮 (s.campaign n) := by
  have hst := le_of_step (Step.campaign (𝒮 := 𝒮) (n := n) s)
  refine ackInv_of h hst id (fun {v T k} ha => ?_) (fun {v T k U c L} hv ha hTU => ?_)
    (fun hl => h.elected_later hst hl)
  · exact (h.kept_log ha).mono (Le.refl s) (h.acked_led ha).choose_spec (h.acked_len ha)
      (hst.term v)
  · rcases hv with hv | ⟨hvn, hU, -, hL⟩
    · exact h.kept_vote hv ha hTU
    · subst hvn hU hL
      exact (h.kept_log ha).mono (Le.refl s) (h.acked_led ha).choose_spec (h.acked_len ha)
        (Nat.le_succ _)

theorem ackInv_observe (h : AckInv 𝒮 s) {T : ℕ} (hT : s.term n < T) :
    AckInv 𝒮 (s.observe n T) := by
  have hst := le_of_step (Step.observe (𝒮 := 𝒮) s T hT)
  refine ackInv_of h hst id (fun {v T k} ha => ?_) (fun hv ha hTU => h.kept_vote hv ha hTU)
    (fun hl => h.elected_later hst hl)
  exact (h.kept_log ha).mono (Le.refl s) (h.acked_led ha).choose_spec (h.acked_len ha)
    (hst.term v)

theorem ackInv_grant (h : AckInv 𝒮 s) {c : N} (hst : Le s (s.grant n c)) :
    AckInv 𝒮 (s.grant n c) := by
  refine ackInv_of h hst id (fun ha => h.kept_log ha) (fun {v T k U d L} hv ha hTU => ?_)
    (fun hl => h.elected_later hst hl)
  rcases hv with hv | ⟨hvn, hU, -, hL⟩
  · exact h.kept_vote hv ha hTU
  · subst hvn hU hL
    exact h.kept_log ha

omit [DecidableEq N] in
theorem ackInv_win (hE : ElectInv 𝒮 s) (h : AckInv 𝒮 s) {Q : Finset N} (hq : 𝒮.Quorum Q)
    (hv : ∀ v ∈ Q, ∃ L, s.voted v (s.term n) n L) (hc : s.cand n (s.term n) (s.log n))
    (hl : s.leader (s.term n) = none) (hst : Le s (s.win n)) : AckInv 𝒮 (s.win n) := by
  refine ackInv_of h hst id (fun ha => h.kept_log ha) (fun hv ha hTU => h.kept_vote hv ha hTU)
    (fun {U m} hm => ?_)
  by_cases hU : U = s.term n
  · subst hU
    simp only [State.win, Function.update_self, Option.some.injEq] at hm
    subst hm
    refine ⟨Q, hq, fun v hvQ => ?_⟩
    obtain ⟨L, hL⟩ := hv v hvQ
    obtain ⟨K, hK, hu⟩ := hE.voted_cand hL
    have hKn := hE.cand_once hK hc
    subst hKn
    refine ⟨L, hL, ?_, fun T k hTU ha => ?_⟩
    · simp only [State.win, Function.update_self]
      exact hu
    · -- the term being won has no leader yet, so a leader without the prefix is an earlier one
      rcases h.kept_vote hL ha hTU with hk | ⟨U, d, h1, h2, h3, h4⟩
      · exact .inl hk
      · refine .inr ⟨U, d, h1, ?_, h3, h4⟩
        have hne : U ≠ s.term n := by
          intro e
          rw [e, hl] at h3
          cases h3
        omega
  · simp only [State.win, Function.update_of_ne hU] at hm
    exact h.elected_later hst hm

theorem ackInv_propose (h : AckInv 𝒮 s) {e : E} (hst : Le s (s.propose n e)) :
    AckInv 𝒮 (s.propose n e) := by
  refine ackInv_of h hst id (fun {v T k} ha => ?_) (fun hv ha hTU => h.kept_vote hv ha hTU)
    (fun hl => h.elected_later hst hl)
  by_cases hv : v = n
  · subst hv
    simp only [State.propose, Function.update_self]
    exact (h.kept_log ha).append ( List.prefix_append _ _)
  · simp only [State.propose, Function.update_of_ne hv]
    exact h.kept_log ha

/-- Replacing a follower's log keeps the invariant if it keeps what the follower had kept. -/
theorem ackInv_setLog (h : AckInv 𝒮 s) {L : List E} (hst : Le s (s.setLog n L))
    (hL : ∀ {T k}, s.acked n T k → Kept s T k (s.term n) L) : AckInv 𝒮 (s.setLog n L) := by
  refine ackInv_of h hst id (fun {v T k} ha => ?_) (fun hv ha hTU => h.kept_vote hv ha hTU)
    (fun hl => h.elected_later hst hl)
  by_cases hv : v = n
  · subst hv
    simp only [State.setLog, Function.update_self]
    exact hL ha
  · simp only [State.setLog, Function.update_of_ne hv]
    exact h.kept_log ha

omit [DecidableEq N] in
theorem ackInv_ack (hE : ElectInv 𝒮 s) (h : AckInv 𝒮 s) {c : N} {k : ℕ}
    (hl : s.leader (s.term n) = some c) (hk : k ≤ (s.llog (s.term n)).length)
    (hp : (s.llog (s.term n)).take k <+: s.log n) : AckInv 𝒮 (s.ack n k) := by
  constructor
  · rintro v T j (ha | ⟨-, rfl, -⟩)
    · exact h.acked_led ha
    · exact ⟨c, hl⟩
  · rintro v T j (ha | ⟨-, rfl, hj⟩)
    · exact h.acked_len ha
    · exact hj.trans hk
  · rintro v T j (ha | ⟨rfl, rfl, -⟩)
    · exact h.acked_le ha
    · exact Nat.le_refl _
  · rintro v T i j (ha | ⟨h1, h2, h3⟩) hij
    · exact .inl (h.acked_down ha hij)
    · exact .inr ⟨h1, h2, hij.trans h3⟩
  · rintro v T j (ha | ⟨rfl, rfl, hj⟩)
    · exact h.kept_log ha
    · exact .inl ((List.take_prefix_take_left hj).trans hp)
  · rintro v T j U d L hv (ha | ⟨rfl, rfl, -⟩) hTU
    · exact h.kept_vote hv ha hTU
    · have := hE.voted_le hv
      omega
  · intro U m hm
    obtain ⟨Q, hq, hQ⟩ := h.elected hm
    refine ⟨Q, hq, fun v hv => ?_⟩
    obtain ⟨L, h1, h2, h3⟩ := hQ v hv
    refine ⟨L, h1, h2, fun T j hTU ha => ?_⟩
    rcases ha with ha | ⟨rfl, rfl, -⟩
    · exact h3 T j hTU ha
    · -- a voter of `U` has left every earlier term
      have := hE.voted_le h1
      omega

/-- **Every step keeps the acknowledgement invariant.** -/
theorem ackInv_step (hE : ElectInv 𝒮 s) (hlog : LogInv 𝒮 s) (h : AckInv 𝒮 s)
    (hs : Step 𝒮 n s t) : AckInv 𝒮 t := by
  have hst := le_of_step hs
  cases hs with
  | campaign => exact ackInv_campaign h
  | observe T hT => exact ackInv_observe h hT
  | grant c L hc hv hu => exact ackInv_grant h hst
  | win Q hq hv hc hl => exact ackInv_win hE h hq hv hc hl hst
  | propose e hl he => exact ackInv_propose h hst
  | truncate c i e f hl hn hp he hf hne =>
      exact ackInv_setLog h hst fun ha =>
        (h.kept_log ha).truncate hlog (h.acked_le ha) hl he hf hne
  | extend c k hl hn hp hk => exact ackInv_setLog h hst fun ha => (h.kept_log ha).append hp
  | ack c k hl hk hp => exact ackInv_ack hE h hl hk hp

omit [DecidableEq N] in
theorem inv_zero : Inv 𝒮 (State.zero : State N E) := ⟨electInv_zero 𝒮, logInv_zero, ackInv_zero⟩

/-- **Every step keeps the invariant.** -/
theorem inv_step (h : Inv 𝒮 s) (hs : Step 𝒮 n s t) : Inv 𝒮 t :=
  ⟨electInv_step h.elect hs, logInv_step h.elect h.log hs, ackInv_step h.elect h.log h.ack hs⟩

/-! ## 3. Leader completeness -/

section Complete

omit [DecidableEq N]

theorem Committed.mono {T k : ℕ} (hA : AckInv 𝒮 s) (h : Committed 𝒮 s T k) (hst : Le s t) :
    Committed 𝒮 t T k := by
  obtain ⟨Q, hq, hQ, i, e, hi, he, hT⟩ := h
  obtain ⟨v, hv, -⟩ := 𝒮.meet hq hq
  obtain ⟨l, hl⟩ := hA.acked_led (hQ v hv)
  exact ⟨Q, hq, fun v hv => hst.acked (hQ v hv), i, e, hi, hst.getElem_llog hl he, hT⟩

theorem Committed.led {T k : ℕ} (hA : AckInv 𝒮 s) (h : Committed 𝒮 s T k) :
    (∃ l, s.leader T = some l) ∧ k ≤ (s.llog T).length := by
  obtain ⟨Q, hq, hQ, -⟩ := h
  obtain ⟨v, hv, -⟩ := 𝒮.meet hq hq
  exact ⟨hA.acked_led (hQ v hv), hA.acked_len (hQ v hv)⟩

/-- A grown log is a prefix of the log of the leader that made its last entry. -/
theorem Grown.whole {b : ℕ} {l : List E} (h : Grown 𝒮 s b l) (hl : l ≠ []) :
    1 ≤ 𝒮.lastStamp l ∧ 𝒮.lastStamp l ≤ b ∧ (∃ m, s.leader (𝒮.lastStamp l) = some m) ∧
      l <+: s.llog (𝒮.lastStamp l) := by
  have hlen : 0 < l.length := List.length_pos_iff.mpr hl
  have hlast : l[l.length - 1]? = some (l.getLast hl) := by
    rw [← List.getLast?_eq_getElem?, List.getLast?_eq_some_getLast hl]
  have hst : 𝒮.lastStamp l = 𝒮.stamp (l.getLast hl) := by
    rw [Setting.lastStamp, List.getLast?_eq_some_getLast hl]; rfl
  obtain ⟨h1, h2, h3, h4⟩ := h _ _ hlast
  rw [Nat.sub_add_cancel hlen, List.take_length] at h4
  rw [hst]
  exact ⟨h1, h2, h3, h4⟩

/-- The last stamp bounds every stamp of a grown log. -/
theorem Grown.le_lastStamp (hlog : LogInv 𝒮 s) {b : ℕ} {l : List E} (h : Grown 𝒮 s b l)
    {i : ℕ} {e : E} (he : l[i]? = some e) : 𝒮.stamp e ≤ 𝒮.lastStamp l := by
  have hne : l ≠ [] := by
    intro hn
    rw [hn] at he
    cases he
  exact ((hlog.ldr _) i e (getElem_of_pre (h.whole hne).2.2.2 he)).2.1

/-- **The up-to-date order carries a committed prefix**: from a voter's log to the log of the
    candidate it voted for, provided the leaders between hold it. -/
theorem carry (hlog : LogInv 𝒮 s) {T i b c : ℕ} {e : E} {L K : List E}
    (he : (s.llog T)[i]? = some e) (heT : 𝒮.stamp e = T)
    (hL : Grown 𝒮 s b L) (hK : Grown 𝒮 s c K) (hu : 𝒮.UpToDate K L)
    (hp : (s.llog T).take (i + 1) <+: L)
    (hbetween : ∀ U m, T < U → U ≤ c → s.leader U = some m →
      (s.llog T).take (i + 1) <+: s.elog U) : (s.llog T).take (i + 1) <+: K := by
  have hilen := (List.getElem?_eq_some_iff.mp he).1
  have heL : L[i]? = some e :=
    getElem_of_pre hp (getElem_take_succ he (Nat.le_refl i))
  have hLne : L ≠ [] := by
    intro hn
    rw [hn] at heL
    cases heL
  have hTL : T ≤ 𝒮.lastStamp L := heT ▸ hL.le_lastStamp hlog heL
  have hKne : K ≠ [] := by
    intro hn
    subst hn
    have h0 : 𝒮.lastStamp ([] : List E) = 0 := rfl
    have := (hL.whole hLne).1
    rcases hu with hu | ⟨hu, hlen⟩
    · omega
    · omega
  obtain ⟨-, hKc, ⟨m, hm⟩, hKp⟩ := hK.whole hKne
  rcases hu with hu | ⟨hu, hlen⟩
  · -- the candidate's last entry is from a leader after `T`, which holds the prefix
    have hU := (hbetween _ m (by omega) hKc hm).trans (hlog.elog_llog _)
    refine List.prefix_of_prefix_length_le hU hKp ?_
    rw [List.length_take]
    rcases Nat.lt_or_ge K.length (i + 1) with hlt | hge
    · -- a shorter log would end inside the prefix, in a term up to `T`
      obtain ⟨f, hf⟩ : ∃ f, K[K.length - 1]? = some f := by
        have : 0 < K.length := List.length_pos_iff.mpr hKne
        exact ⟨K[K.length - 1], List.getElem?_eq_getElem (by omega)⟩
      have hlast : 𝒮.lastStamp K = 𝒮.stamp f := by
        rw [Setting.lastStamp, List.getLast?_eq_getElem?, hf]; rfl
      have hKT : K <+: (s.llog T).take (i + 1) := by
        refine List.prefix_of_prefix_length_le hKp hU ?_
        rw [List.length_take]
        omega
      have hfT := getElem_of_pre (hKT.trans ( List.take_prefix _ _)) hf
      have := ((hlog.ldr T) _ f hfT).2.1
      omega
    · omega
  · -- equal last terms: both logs are prefixes of one leader's log
    have hLp := (hL.whole hLne).2.2.2
    rw [hu] at hLp
    exact hp.trans (List.prefix_of_prefix_length_le hLp hKp hlen)

/-- **Leader completeness.** -/
theorem leader_complete (h : Inv 𝒮 s) {T k : ℕ} (hc : Committed 𝒮 s T k) :
    ∀ U m, T < U → s.leader U = some m → (s.llog T).take k <+: s.elog U := by
  intro U
  induction U using Nat.strong_induction_on with
  | _ U ih =>
    intro m hTU hm
    obtain ⟨Q, hq, hQ, i, e, rfl, he, heT⟩ := hc
    obtain ⟨R, hr, hR⟩ := h.ack.elected hm
    obtain ⟨v, hvQ, hvR⟩ := 𝒮.meet hq hr
    obtain ⟨L, hL, hu, hkept⟩ := hR v hvR
    have hLp : (s.llog T).take (i + 1) <+: L := by
      rcases hkept T (i + 1) hTU (hQ v hvQ) with hk | ⟨V, d, h1, h2, h3, h4⟩
      · exact hk
      · exact absurd (ih V (by omega) d h1 h3) h4
    -- the stamps of the winner's log are below its term
    have hgrow : Grown 𝒮 s (U - 1) (s.elog U) := by
      intro j f hf
      obtain ⟨h1, -, h3, h4⟩ := ((h.log.ldr U).sub (h.log.elog_llog U)) j f hf
      have := h.log.elog_lt (List.mem_of_getElem? hf)
      exact ⟨h1, by omega, h3, h4⟩
    exact carry h.log he heT (h.log.voted hL) hgrow hu hLp fun V d h1 h2 h3 =>
      ih V (by omega) d h1 h3

/-- Every leader of the term or a later one holds a committed prefix. -/
theorem committed_llog (h : Inv 𝒮 s) {T k : ℕ} (hc : Committed 𝒮 s T k) {U : ℕ} {m : N}
    (hTU : T ≤ U) (hm : s.leader U = some m) : (s.llog T).take k <+: s.llog U := by
  rcases Nat.eq_or_lt_of_le hTU with rfl | hlt
  · exact List.take_prefix _ _
  · exact (leader_complete h hc U m hlt hm).trans (h.log.elog_llog U)

/-- **A quorum of nodes holds a committed prefix now.** -/
theorem committed_held (h : Inv 𝒮 s) {T k : ℕ} (hc : Committed 𝒮 s T k) :
    ∃ Q, 𝒮.Quorum Q ∧ ∀ v ∈ Q, (s.llog T).take k <+: s.log v := by
  obtain ⟨Q, hq, hQ, hlast⟩ := hc
  refine ⟨Q, hq, fun v hv => ?_⟩
  rcases h.ack.kept_log (hQ v hv) with hk | ⟨U, m, h1, -, h3, h4⟩
  · exact hk
  · exact absurd (leader_complete h ⟨Q, hq, hQ, hlast⟩ U m h1 h3) h4

/-- An acknowledged prefix is still there as long as its node stays in the term. -/
theorem acked_held (h : Inv 𝒮 s) {v : N} {T k : ℕ} (ha : s.acked v T k) (hT : s.term v = T) :
    (s.llog T).take k <+: s.log v := by
  rcases h.ack.kept_log ha with hk | ⟨U, m, h1, h2, -, -⟩
  · exact hk
  · omega

/-- Two committed prefixes agree where both reach. -/
theorem committed_agree (h : Inv 𝒮 s) {T U j k i : ℕ} (hT : Committed 𝒮 s T j)
    (hU : Committed 𝒮 s U k) (hij : i < j) (hik : i < k) : (s.llog T)[i]? = (s.llog U)[i]? := by
  -- the earlier term's prefix is a prefix of the later term's log
  have key : ∀ {V W a b : ℕ}, Committed 𝒮 s V a → Committed 𝒮 s W b → V ≤ W → i < a →
      (s.llog V)[i]? = (s.llog W)[i]? := by
    intro V W a b hV hW hVW ha
    obtain ⟨⟨m, hm⟩, -⟩ := hW.led h.ack
    obtain ⟨g, hg⟩ : ∃ g, (s.llog V)[i]? = some g :=
      ⟨_, List.getElem?_eq_getElem (lt_of_lt_of_le ha (hV.led h.ack).2)⟩
    have hp := committed_llog h hV hVW hm
    have hgp : ((s.llog V).take a)[i]? = some g := by
      rw [List.getElem?_take_of_lt ha]; exact hg
    rw [hg, getElem_of_pre hp hgp]
  rcases Nat.le_total T U with hTU | hUT
  · exact key hT hU hTU hij
  · exact (key hU hT hUT hik).symm

/-- **At most one entry is ever chosen at an index.** -/
theorem chosen_unique (h : Inv 𝒮 s) {i : ℕ} {e f : E} (he : Chosen 𝒮 s i e)
    (hf : Chosen 𝒮 s i f) : e = f := by
  obtain ⟨T, j, hT, hij, heT⟩ := he
  obtain ⟨U, k, hU, hik, hfU⟩ := hf
  rw [committed_agree h hT hU hij hik, hfU] at heT
  exact (Option.some.inj heT).symm

/-- **Lists of chosen entries are prefixes of one list of chosen entries.** -/
theorem chosen_common (h : Inv 𝒮 s) : ∀ (ls : List (List E)),
    (∀ l ∈ ls, ∀ i e, l[i]? = some e → Chosen 𝒮 s i e) →
    ∃ m : List E, (∀ i e, m[i]? = some e → Chosen 𝒮 s i e) ∧ ∀ l ∈ ls, l <+: m
  | [], _ => ⟨[], (fun _ _ he => by cases he), (fun _ hl => by cases hl)⟩
  | k :: ls, hls => by
      obtain ⟨m, hm, hpre⟩ := chosen_common h ls fun l hl => hls l (List.mem_cons_of_mem k hl)
      have hk := hls k List.mem_cons_self
      -- of two lists of chosen entries the shorter one is a prefix of the other
      have key : ∀ {p q : List E}, (∀ i e, p[i]? = some e → Chosen 𝒮 s i e) →
          (∀ i e, q[i]? = some e → Chosen 𝒮 s i e) → p.length ≤ q.length → p <+: q := by
        intro p q hp hq hlen
        refine List.prefix_iff_getElem?.mpr fun i hi => ?_
        have h1 := hp i _ (List.getElem?_eq_getElem hi)
        have h2 := hq i _ (List.getElem?_eq_getElem (Nat.lt_of_lt_of_le hi hlen))
        rw [chosen_unique h h1 h2]
        exact List.getElem?_eq_getElem _
      rcases Nat.le_total k.length m.length with hlen | hlen
      · refine ⟨m, hm, fun l hl => ?_⟩
        rcases List.mem_cons.mp hl with rfl | hl
        · exact key hk hm hlen
        · exact hpre l hl
      · refine ⟨k, hk, fun l hl => ?_⟩
        rcases List.mem_cons.mp hl with rfl | hl
        · exact List.prefix_refl _
        · exact (hpre l hl).trans (key hm hk hlen)

theorem Chosen.mono (hA : AckInv 𝒮 s) {i : ℕ} {e : E} (h : Chosen 𝒮 s i e) (hst : Le s t) :
    Chosen 𝒮 t i e := by
  obtain ⟨T, k, hc, hi, he⟩ := h
  obtain ⟨⟨l, hl⟩, -⟩ := hc.led hA
  exact ⟨T, k, hc.mono hA hst, hi, hst.getElem_llog hl he⟩

end Complete

end Replication
