/-
  File:      RaftRsm/Replication/Record.lean
  Subject:   ONE RECORD OF MANY PREFIXES. Lists come in one after the other, each of them said to be a
             prefix of one sequence. The record takes from each list what lies behind its own end.

  * `Agree p q` -- the two lists hold the same wherever both reach;
  * `extend`, `record` -- the record, and its length: that of the longest list;
  * `exists_of_record` -- every element of the record stands in one of the lists, at its place;
  * `agree_record`, `prefix_extend_iff` -- a list that agrees with those before it agrees with their
    record, and is then a prefix of the record it extends.
-/
import Mathlib.Data.List.Basic
import Mathlib.Data.List.Infix
import Mathlib.Data.List.Induction

namespace Replication

variable {α : Type} {p q r : List α} {ps qs : List (List α)}

/-! ## 1. Lists that agree -/

/-- The two lists hold the same wherever both reach. -/
def Agree (p q : List α) : Prop := ∀ i, i < p.length → i < q.length → p[i]? = q[i]?

theorem agree_of_prefixes (hp : p <+: r) (hq : q <+: r) : Agree p q := by
  intro i hip hiq
  have hrp : r[i]? = some p[i] := List.prefix_iff_getElem?.mp hp i hip
  have hrq : r[i]? = some q[i] := List.prefix_iff_getElem?.mp hq i hiq
  rw [List.getElem?_eq_getElem hip, List.getElem?_eq_getElem hiq, ← hrp, hrq]

theorem prefix_iff_agree : p <+: q ↔ p.length ≤ q.length ∧ Agree p q := by
  constructor
  · intro h
    exact ⟨h.length_le, agree_of_prefixes h List.prefix_rfl⟩
  · rintro ⟨hlen, h⟩
    refine List.prefix_iff_getElem?.mpr fun i hi => ?_
    rw [← h i hi (Nat.lt_of_lt_of_le hi hlen)]
    exact List.getElem?_eq_getElem hi

/-! ## 2. The record -/

/-- The record `r`, grown by what `p` has behind its end. -/
def extend (r p : List α) : List α := r ++ p.drop r.length

def record (ps : List (List α)) : List α := ps.foldl extend []

theorem record_snoc (ps : List (List α)) (p : List α) : record (ps ++ [p]) = extend (record ps) p := by
  unfold record
  rw [List.foldl_append]
  rfl

theorem prefix_extend (r p : List α) : r <+: extend r p := List.prefix_append _ _

theorem length_extend (r p : List α) : (extend r p).length = max r.length p.length := by
  unfold extend
  rw [List.length_append, List.length_drop]
  omega

theorem record_prefix_append (ps : List (List α)) : ∀ qs, record ps <+: record (ps ++ qs) := by
  intro qs
  induction qs using List.reverseRecOn with
  | nil =>
      rw [List.append_nil]
  | append_singleton qs q ih =>
      rw [← List.append_assoc, record_snoc]
      exact ih.trans (prefix_extend _ _)

/-- The record is as long as the longest list. -/
theorem length_record_le (n : ℕ) : (record ps).length ≤ n ↔ ∀ p ∈ ps, p.length ≤ n := by
  induction ps using List.reverseRecOn with
  | nil => exact ⟨fun _ _ h => (List.not_mem_nil h).elim, fun _ => Nat.zero_le n⟩
  | append_singleton ps p ih =>
      rw [record_snoc, length_extend, List.forall_mem_append, List.forall_mem_singleton, ← ih]
      omega

theorem exists_of_record {i : ℕ} (hi : i < (record ps).length) :
    ∃ q ∈ ps, i < q.length ∧ (record ps)[i]? = q[i]? := by
  induction ps using List.reverseRecOn with
  | nil => exact (Nat.not_lt_zero i hi).elim
  | append_singleton ps p ih =>
      rw [record_snoc] at hi ⊢
      by_cases hold : i < (record ps).length
      · obtain ⟨q, hq, hiq, heq⟩ := ih hold
        refine ⟨q, List.mem_append_left _ hq, hiq, ?_⟩
        rw [extend, List.getElem?_append_left hold]
        exact heq
      · have hge := Nat.le_of_not_lt hold
        rw [length_extend] at hi
        refine ⟨p, List.mem_append_right _ (List.mem_singleton_self p), by omega, ?_⟩
        rw [extend, List.getElem?_append_right hge, List.getElem?_drop, Nat.add_sub_cancel' hge]

/-- A list that agrees with all those before it agrees with their record. -/
theorem agree_record (h : ∀ q ∈ ps, Agree p q) : Agree p (record ps) := by
  intro i hip hir
  obtain ⟨q, hq, hiq, heq⟩ := exists_of_record hir
  rw [heq]
  exact h q hq i hip hiq

theorem prefix_extend_iff : p <+: extend r p ↔ Agree p r := by
  constructor
  · exact fun h => agree_of_prefixes h (prefix_extend r p)
  · intro h
    refine prefix_iff_agree.mpr ⟨?_, fun i hi hir => ?_⟩
    · rw [length_extend]
      exact Nat.le_max_right _ _
    · unfold extend
      by_cases hold : i < r.length
      · rw [List.getElem?_append_left hold]
        exact h i hi hold
      · have hge := Nat.le_of_not_lt hold
        rw [List.getElem?_append_right hge, List.getElem?_drop, Nat.add_sub_cancel' hge]

/-- What all lists of a record begin with, the record begins with. -/
theorem record_begins {l : List α} (h : ∀ p ∈ ps, p <+: l) : record ps <+: l := by
  refine prefix_iff_agree.mpr ⟨(length_record_le l.length).mpr fun p hp => (h p hp).length_le, fun i hi hl => ?_⟩
  obtain ⟨q, hq, hiq, heq⟩ := exists_of_record hi
  rw [heq]
  exact agree_of_prefixes (h q hq) List.prefix_rfl i hiq hl

end Replication
