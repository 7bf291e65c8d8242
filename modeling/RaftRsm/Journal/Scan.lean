/-
  File:      RaftRsm/Journal/Scan.lean
  Subject:   Files of records that stand back to back.

  A format says how the record number `n` is written and what a reader that has `n` records behind
  it sees at the head of the rest of a file. A scan reads one record after the other until nothing
  is left or the head is not a record.

    * `scans_encAll`      a scan passes over records that were written
    * `scans_cut`         a file that was cut anywhere inside a run of records scans to the records
                          that are whole, and is never taken for a corrupt one
-/
import Mathlib.Data.List.Infix
import Mathlib.Data.Nat.Notation
import Mathlib.Tactic.SplitIfs

namespace Journal

variable {α β : Type*}

/-- What a reader sees at the head of what is left: a record and its length, the torn rest of an
    append, or neither. -/
inductive Head (α : Type*) where
  | record (a : α) (length : ℕ)
  | torn
  | corrupt
  deriving DecidableEq, Repr

/-- How the record that has `n` records before it is written, and read. -/
structure Format (α β : Type*) where
  enc : ℕ → α → List β
  read : ℕ → List β → Head α

/-- Why a scan stopped. -/
inductive Stop where
  | clean
  | torn
  | corrupt
  deriving DecidableEq, Repr

namespace Format

variable (F : Format α β)

/-- Records back to back, the first of them with `n` before it. -/
def encAll : ℕ → List α → List β
  | _, [] => []
  | n, a :: as => F.enc n a ++ encAll (n + 1) as

/-- **A scan**: the records read, what is left unread, and why. -/
inductive Scans : ℕ → List β → List α → List β → Stop → Prop where
  | clean {n : ℕ} : Scans n [] [] [] .clean
  | torn {n : ℕ} {b : List β} (hb : b ≠ []) (h : F.read n b = .torn) : Scans n b [] b .torn
  | corrupt {n : ℕ} {b : List β} (hb : b ≠ []) (h : F.read n b = .corrupt) :
      Scans n b [] b .corrupt
  | record {n k : ℕ} {b t : List β} {a : α} {as : List α} {s : Stop} (hb : b ≠ [])
      (h : F.read n b = .record a k) (hs : Scans (n + 1) (b.drop k) as t s) :
      Scans n b (a :: as) t s

/-- The records of a run of them that are whole within its first `k` symbols. -/
def complete : ℕ → List α → ℕ → List α
  | _, [], _ => []
  | n, a :: as, k =>
      if (F.enc n a).length ≤ k then a :: complete (n + 1) as (k - (F.enc n a).length) else []

/-- What the reader does with the records `ok` that the writer wrote: it finds a whole record, and
    takes one that was cut for torn. -/
structure Lawful (ok : α → Prop) : Prop where
  whole : ∀ n a rest, ok a → F.read n (F.enc n a ++ rest) = .record a (F.enc n a).length
  cut : ∀ n a b, ok a → b <+: F.enc n a → b.length < (F.enc n a).length → F.read n b = .torn
  nonempty : ∀ n a, F.enc n a ≠ []

variable {F} {ok : α → Prop} {n : ℕ} {as : List α}

@[simp] theorem encAll_nil : F.encAll n [] = [] := rfl

@[simp] theorem encAll_cons {a : α} : F.encAll n (a :: as) = F.enc n a ++ F.encAll (n + 1) as := rfl

theorem encAll_append (bs : List α) :
    F.encAll n (as ++ bs) = F.encAll n as ++ F.encAll (n + as.length) bs := by
  induction as generalizing n with
  | nil => simp
  | cons a as ih => simp [ih, Nat.add_assoc, Nat.add_comm 1]

/-- A scan passes over records that were written. -/
theorem scans_encAll (hF : F.Lawful ok) {b t : List β} {cs : List α} {s : Stop}
    (has : ∀ a ∈ as, ok a) (h : F.Scans (n + as.length) b cs t s) :
    F.Scans n (F.encAll n as ++ b) (as ++ cs) t s := by
  induction as generalizing n with
  | nil => simpa using h
  | cons a as ih =>
      have ha : ok a := has a List.mem_cons_self
      have hne : F.encAll n (a :: as) ++ b ≠ [] := by simp [hF.nonempty]
      refine .record hne (k := (F.enc n a).length) ?_ ?_
      · rw [encAll_cons, List.append_assoc]
        exact hF.whole n a _ ha
      · rw [encAll_cons, List.append_assoc, List.drop_left]
        refine ih (fun x hx => has x (List.mem_cons_of_mem a hx)) ?_
        rw [List.length_cons] at h
        rwa [Nat.add_assoc, Nat.add_comm 1]

/-- **A cut inside a run of records** leaves the whole ones, and after them nothing or what the
    reader takes for torn. -/
theorem scans_cut (hF : F.Lawful ok) (has : ∀ a ∈ as, ok a) (k : ℕ) :
    ∃ t s, F.Scans n ((F.encAll n as).take k) (F.complete n as k) t s ∧ s ≠ .corrupt := by
  induction as generalizing n k with
  | nil => exact ⟨[], .clean, by simpa [complete] using .clean, by simp⟩
  | cons a as ih =>
      have ha : ok a := has a List.mem_cons_self
      simp only [complete, encAll_cons]
      by_cases hk : (F.enc n a).length ≤ k
      · -- the first record is whole, and the cut is further on
        obtain ⟨t, s, hs, hne⟩ := ih (n := n + 1)
          (fun x hx => has x (List.mem_cons_of_mem a hx)) (k - (F.enc n a).length)
        rw [if_pos hk, List.take_append, List.take_of_length_le hk]
        refine ⟨t, s, .record (by simp [hF.nonempty]) (hF.whole n a _ ha) ?_, hne⟩
        rwa [List.drop_left]
      · -- the cut is inside it
        have hlt : k < (F.enc n a).length := Nat.lt_of_not_le hk
        rw [if_neg hk, List.take_append_of_le_length hlt.le]
        cases k with
        | zero => exact ⟨[], .clean, by simpa using .clean, by simp⟩
        | succ k =>
            have hlen : ((F.enc n a).take (k + 1)).length = k + 1 := by simp [hlt.le]
            have hne : (F.enc n a).take (k + 1) ≠ [] := List.ne_nil_of_length_pos (by omega)
            have htorn := hF.cut n a _ ha (List.take_prefix (k + 1) _) (by omega)
            exact ⟨_, .torn, .torn hne htorn, by simp⟩

theorem Scans.left_of_clean {b t : List β} (h : F.Scans n b as t .clean) : t = [] := by
  generalize hs : Stop.clean = s at h
  induction h with
  | clean => rfl
  | torn => cases hs
  | corrupt => cases hs
  | record _ _ _ ih => exact ih hs

/-- What was scanned and what was not, where the reader finds only what the writer writes. -/
theorem Scans.append_eq {b t : List β} {s : Stop} (h : F.Scans n b as t s)
    (hread : ∀ n b a k, F.read n b = .record a k → b.take k = F.enc n a) :
    b = F.encAll n as ++ t := by
  induction h with
  | clean => rfl
  | torn => rfl
  | corrupt => rfl
  | record hb h _ ih =>
      rw [encAll_cons, List.append_assoc, ← ih, ← hread _ _ _ _ h, List.take_append_drop]

end Format

end Journal
