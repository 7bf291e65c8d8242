/-
  File:      RaftRsm/Replication/Election.lean
  Subject:   ELECTION SAFETY on the abstract machine: one vote per node and term, one candidate
             log per candidacy, at most one leader per term.

  `ElectInv` is inductive on its own. Its core is `voted_now` (a vote of the current term is the
  one on disk) with `voted_once`: a node that has voted in a term never votes for another
  candidate in it, since its disk still names the first one. Two quorums of one term share a
  voter, so a term has one leader (`leader_eq_of_votes`).
-/
import RaftRsm.Replication.State

namespace Replication

variable {N E : Type} (𝒮 : Setting N E)

/-- **The election invariant.** -/
structure ElectInv (s : State N E) : Prop where
  voted_le : ∀ {v T c L}, s.voted v T c L → T ≤ s.term v
  voted_now : ∀ {v c L}, s.voted v (s.term v) c L → s.vote v = some c
  voted_once : ∀ {v T c d L M}, s.voted v T c L → s.voted v T d M → c = d
  voted_cand : ∀ {v T c L}, s.voted v T c L → ∃ K, s.cand c T K ∧ 𝒮.UpToDate K L
  cand_le : ∀ {c T L}, s.cand c T L → 1 ≤ T ∧ T ≤ s.term c
  cand_once : ∀ {c T L M}, s.cand c T L → s.cand c T M → L = M
  leader_le : ∀ {T l}, s.leader T = some l → 1 ≤ T ∧ T ≤ s.term l
  leader_votes : ∀ {T l}, s.leader T = some l →
    ∃ Q, 𝒮.Quorum Q ∧ ∀ v ∈ Q, ∃ L, s.voted v T l L

theorem electInv_zero : ElectInv 𝒮 (State.zero : State N E) where
  voted_le h := h.elim
  voted_now h := h.elim
  voted_once h := h.elim
  voted_cand h := h.elim
  cand_le h := h.elim
  cand_once h := h.elim
  leader_le h := by cases h
  leader_votes h := by cases h

variable {𝒮} {n : N} {s : State N E}

/-- **A term whose quorum voted for `n` has no other leader.** -/
theorem ElectInv.leader_eq_of_votes (h : ElectInv 𝒮 s) {T : ℕ} {l : N} {Q : Finset N}
    (hq : 𝒮.Quorum Q) (hv : ∀ v ∈ Q, ∃ L, s.voted v T n L) (hl : s.leader T = some l) : l = n := by
  obtain ⟨R, hR, hvR⟩ := h.leader_votes hl
  obtain ⟨v, hvQ, hvR'⟩ := 𝒮.meet hq hR
  obtain ⟨L, hL⟩ := hv v hvQ
  obtain ⟨M, hM⟩ := hvR v hvR'
  exact h.voted_once hM hL

variable [DecidableEq N]

theorem electInv_campaign (h : ElectInv 𝒮 s) : ElectInv 𝒮 (s.campaign n) := by
  have hle := (le_of_step (Step.campaign (𝒮 := 𝒮) (n := n) s)).term
  have hnew : ∀ {c L}, ¬ s.voted n (s.term n + 1) c L := fun hv => by
    have := h.voted_le hv; omega
  have hself : (s.campaign n).term n = s.term n + 1 := Function.update_self ..
  constructor
  · rintro v T c L (hv | ⟨rfl, rfl, -, -⟩)
    · exact (h.voted_le hv).trans (hle v)
    · exact hself.ge
  · rintro v c L hv
    by_cases hvn : v = n
    · subst hvn
      rcases hv with hv | ⟨-, -, rfl, -⟩
      · rw [hself] at hv; exact absurd hv hnew
      · exact Function.update_self ..
    · simp only [State.campaign, Function.update_of_ne hvn] at hv ⊢
      rcases hv with hv | ⟨rfl, -⟩
      · exact h.voted_now hv
      · exact absurd rfl hvn
  · rintro v T c d L M (hv | ⟨hvn, hT, hcn, -⟩) (hw | ⟨hvn', hT', hdn, -⟩)
    · exact h.voted_once hv hw
    · subst hvn' hT'; exact absurd hv hnew
    · subst hvn hT; exact absurd hw hnew
    · exact hcn.trans hdn.symm
  · rintro v T c L (hv | ⟨rfl, rfl, rfl, rfl⟩)
    · obtain ⟨K, hK, hu⟩ := h.voted_cand hv
      exact ⟨K, .inl hK, hu⟩
    · exact ⟨_, .inr ⟨rfl, rfl, rfl⟩, 𝒮.upToDate_refl _⟩
  · rintro c T L (hc | ⟨rfl, rfl, -⟩)
    · exact ⟨(h.cand_le hc).1, (h.cand_le hc).2.trans (hle c)⟩
    · exact ⟨by omega, hself.ge⟩
  · rintro c T L M (hc | ⟨hcn, hT, hL⟩) (hd | ⟨hdn, hT', hM⟩)
    · exact h.cand_once hc hd
    · subst hdn; have := (h.cand_le hc).2; omega
    · subst hcn; have := (h.cand_le hd).2; omega
    · exact hL.trans hM.symm
  · intro T l hl
    exact ⟨(h.leader_le hl).1, (h.leader_le hl).2.trans (hle l)⟩
  · intro T l hl
    obtain ⟨Q, hq, hv⟩ := h.leader_votes hl
    exact ⟨Q, hq, fun v hvQ => (hv v hvQ).imp fun _ => Or.inl⟩

theorem electInv_observe (h : ElectInv 𝒮 s) {T : ℕ} (hT : s.term n < T) :
    ElectInv 𝒮 (s.observe n T) := by
  have hle := (le_of_step (Step.observe (𝒮 := 𝒮) s T hT)).term
  refine { h with
    voted_le := fun hv => (h.voted_le hv).trans (hle _)
    voted_now := fun {v c L} hv => ?_
    cand_le := fun hc => ⟨(h.cand_le hc).1, (h.cand_le hc).2.trans (hle _)⟩
    leader_le := fun hl => ⟨(h.leader_le hl).1, (h.leader_le hl).2.trans (hle _)⟩ }
  by_cases hvn : v = n
  · subst hvn
    -- no vote of a term the node has not reached
    simp only [State.observe, Function.update_self] at hv
    have := h.voted_le hv
    omega
  · simp only [State.observe, Function.update_of_ne hvn] at hv ⊢
    exact h.voted_now hv

theorem electInv_grant (h : ElectInv 𝒮 s) {c : N} {L : List E} (hc : s.cand c (s.term n) L)
    (hv : s.vote n = none ∨ s.vote n = some c) (hu : 𝒮.UpToDate L (s.log n)) :
    ElectInv 𝒮 (s.grant n c) := by
  -- an earlier vote of this term can only have gone to `c`
  have hold : ∀ {d M}, s.voted n (s.term n) d M → d = c := by
    intro d M hd
    have := h.voted_now hd
    rcases hv with hv | hv <;> rw [hv] at this <;> cases this
    rfl
  refine { h with
    voted_le := ?_, voted_now := ?_, voted_once := ?_, voted_cand := ?_, leader_votes := ?_ }
  · rintro v T d M (hd | ⟨rfl, rfl, -, -⟩)
    · exact h.voted_le hd
    · exact Nat.le_refl _
  · rintro v d M hd
    by_cases hvn : v = n
    · subst hvn
      simp only [State.grant, Function.update_self]
      rcases hd with hd | ⟨-, -, rfl, -⟩
      · rw [hold hd]
      · rfl
    · simp only [State.grant, Function.update_of_ne hvn] at hd ⊢
      rcases hd with hd | ⟨rfl, -⟩
      · exact h.voted_now hd
      · exact absurd rfl hvn
  · rintro v T d d' M M' (hd | ⟨hvn, hT, hdc, -⟩) (hd' | ⟨hvn', hT', hdc', -⟩)
    · exact h.voted_once hd hd'
    · subst hvn' hT' hdc'; exact hold hd
    · subst hvn hT hdc; exact (hold hd').symm
    · exact hdc.trans hdc'.symm
  · rintro v T d M (hd | ⟨rfl, rfl, rfl, rfl⟩)
    · exact h.voted_cand hd
    · exact ⟨L, hc, hu⟩
  · intro T l hl
    obtain ⟨Q, hq, hvQ⟩ := h.leader_votes hl
    exact ⟨Q, hq, fun v hv => (hvQ v hv).imp fun _ => Or.inl⟩

omit [DecidableEq N] in
theorem electInv_win (h : ElectInv 𝒮 s) {Q : Finset N} (hq : 𝒮.Quorum Q)
    (hv : ∀ v ∈ Q, ∃ L, s.voted v (s.term n) n L) (hc : s.cand n (s.term n) (s.log n)) :
    ElectInv 𝒮 (s.win n) := by
  refine { h with leader_le := fun {T l} hl => ?_, leader_votes := fun {T l} hl => ?_ }
  · by_cases hT : T = s.term n
    · subst hT
      simp only [State.win, Function.update_self, Option.some.injEq] at hl
      subst hl
      exact h.cand_le hc
    · simp only [State.win, Function.update_of_ne hT] at hl
      exact h.leader_le hl
  · by_cases hT : T = s.term n
    · subst hT
      simp only [State.win, Function.update_self, Option.some.injEq] at hl
      subst hl
      exact ⟨Q, hq, hv⟩
    · simp only [State.win, Function.update_of_ne hT] at hl
      exact h.leader_votes hl

/-- **Every step keeps the election invariant.** -/
theorem electInv_step {t : State N E} (h : ElectInv 𝒮 s) (hs : Step 𝒮 n s t) :
    ElectInv 𝒮 t := by
  cases hs with
  | campaign => exact electInv_campaign h
  | observe T hT => exact electInv_observe h hT
  | grant c L hc hv hu => exact electInv_grant h hc hv hu
  | win Q hq hv hc hl => exact electInv_win h hq hv hc
  | propose => exact { h with }
  | truncate => exact { h with }
  | extend => exact { h with }
  | ack => exact { h with }

end Replication
