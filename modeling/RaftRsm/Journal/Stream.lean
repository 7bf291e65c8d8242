/-
  File:      RaftRsm/Journal/Stream.lean
  Subject:   Records that arrive piece by piece.

  A reader of a stream has only the beginning of what will come. Where the format is STABLE, what it
  has made of the beginning stands when more comes, and a record that is not yet whole is not an
  error.

    * `Scans.unique`, `exists_scans`  a stream has exactly one scan
    * `Scans.forall_mem`              what holds of every record that is read
    * `Scans.extend`                  a scan goes on where it stopped for want of symbols
    * `Scans.extend_corrupt`          and does not go on where it met an error
-/
import RaftRsm.Journal.Scan

namespace Journal.Format

variable {α β : Type*} {F : Format α β} {n : ℕ} {b c t t' : List β} {as as' : List α} {s s' : Stop}

/-- **What a reader has made of the beginning of a stream stands when more comes.** -/
structure Stable (F : Format α β) : Prop where
  record : ∀ {n b a k}, F.read n b = .record a k →
    0 < k ∧ k ≤ b.length ∧ ∀ c, F.read n (b ++ c) = .record a k
  corrupt : ∀ {n b}, F.read n b = .corrupt → ∀ c, F.read n (b ++ c) = .corrupt

/-- A scan has one outcome. -/
theorem Scans.unique (h : F.Scans n b as t s) (h' : F.Scans n b as' t' s') :
    as = as' ∧ t = t' ∧ s = s' := by
  induction h generalizing as' t' s' with
  | clean =>
      cases h' with
      | clean => exact ⟨rfl, rfl, rfl⟩
      | torn hb => exact absurd rfl hb
      | corrupt hb => exact absurd rfl hb
      | record hb => exact absurd rfl hb
  | torn hb h =>
      cases h' with
      | clean => exact absurd rfl hb
      | torn => exact ⟨rfl, rfl, rfl⟩
      | corrupt _ h' => cases h.symm.trans h'
      | record _ h' => cases h.symm.trans h'
  | corrupt hb h =>
      cases h' with
      | clean => exact absurd rfl hb
      | torn _ h' => cases h.symm.trans h'
      | corrupt => exact ⟨rfl, rfl, rfl⟩
      | record _ h' => cases h.symm.trans h'
  | record hb h _ ih =>
      cases h' with
      | clean => exact absurd rfl hb
      | torn _ h' => cases h.symm.trans h'
      | corrupt _ h' => cases h.symm.trans h'
      | record _ h' hs =>
          cases h.symm.trans h'
          obtain ⟨rfl, rfl, rfl⟩ := ih hs
          exact ⟨rfl, rfl, rfl⟩

/-- Every stream has a scan, if each record takes at least one symbol. -/
theorem exists_scans (hF : ∀ {n b a k}, F.read n b = .record a k → 0 < k) (b : List β) (n : ℕ) :
    ∃ as t s, F.Scans n b as t s := by
  induction hlen : b.length using Nat.strong_induction_on generalizing b n with
  | _ len ih =>
      by_cases hb : b = []
      · subst hb
        exact ⟨[], [], .clean, .clean⟩
      cases h : F.read n b with
      | torn => exact ⟨[], b, .torn, .torn hb h⟩
      | corrupt => exact ⟨[], b, .corrupt, .corrupt hb h⟩
      | record a k =>
          have hpos := hF h
          have hlt := List.length_pos_of_ne_nil hb
          obtain ⟨as, t, s, hs⟩ := ih (b.drop k).length
            (by rw [List.length_drop]; omega) (b.drop k) (n + 1) rfl
          exact ⟨a :: as, t, s, .record hb h hs⟩

/-- **A scan that met no error goes on when more comes**, from what it had left unread. -/
theorem Scans.extend (hF : F.Stable) (h : F.Scans n b as t s) (hs : s ≠ .corrupt)
    (h' : F.Scans (n + as.length) (t ++ c) as' t' s') : F.Scans n (b ++ c) (as ++ as') t' s' := by
  induction h with
  | clean => exact h'
  | torn => exact h'
  | corrupt => exact absurd rfl hs
  | record hb h _ ih =>
      obtain ⟨-, hle, hmore⟩ := hF.record h
      refine .record (by simp [hb]) (hmore c) ?_
      rw [List.drop_append_of_le_length hle]
      refine ih hs ?_
      rw [List.length_cons] at h'
      rwa [Nat.add_assoc, Nat.add_comm 1]

/-- **A scan that met an error stays there.** -/
theorem Scans.extend_corrupt (hF : F.Stable) (h : F.Scans n b as t .corrupt) (c : List β) :
    F.Scans n (b ++ c) as (t ++ c) .corrupt := by
  generalize hs : Stop.corrupt = s at h
  induction h with
  | clean => cases hs
  | torn => cases hs
  | corrupt hb h => exact .corrupt (by simp [hb]) (hF.corrupt h c)
  | record hb h _ ih =>
      obtain ⟨-, hle, hmore⟩ := hF.record h
      refine .record (by simp [hb]) (hmore c) ?_
      rw [List.drop_append_of_le_length hle]
      exact ih hs

/-- A scan that met an error stands before it. -/
theorem Scans.read_corrupt (h : F.Scans n b as t .corrupt) :
    t ≠ [] ∧ F.read (n + as.length) t = .corrupt := by
  generalize hs : Stop.corrupt = s at h
  induction h with
  | clean => cases hs
  | torn => cases hs
  | corrupt hb h => exact ⟨hb, h⟩
  | record _ _ _ ih =>
      obtain ⟨ht, hread⟩ := ih hs
      rw [Nat.add_assoc, Nat.add_comm 1] at hread
      exact ⟨ht, hread⟩

/-- What holds of every record that is read. -/
theorem Scans.forall_mem {P : α → Prop} (hP : ∀ {n b a k}, F.read n b = .record a k → P a)
    (h : F.Scans n b as t s) : ∀ a ∈ as, P a := by
  induction h with
  | clean => exact fun _ ha => (List.not_mem_nil ha).elim
  | torn => exact fun _ ha => (List.not_mem_nil ha).elim
  | corrupt => exact fun _ ha => (List.not_mem_nil ha).elim
  | record _ h _ ih => exact List.forall_mem_cons.mpr ⟨hP h, ih⟩

/-- Where the reader does not look at the number of a record, a scan may begin at any. -/
theorem Scans.renumber (hF : ∀ n m, F.read n = F.read m) (h : F.Scans n b as t s) (m : ℕ) :
    F.Scans m b as t s := by
  induction h generalizing m with
  | clean => exact .clean
  | torn hb h => exact .torn hb (hF _ m ▸ h)
  | corrupt hb h => exact .corrupt hb (hF _ m ▸ h)
  | record hb h _ ih => exact .record hb (hF _ m ▸ h) (ih (m + 1))

end Journal.Format
