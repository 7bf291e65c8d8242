/-
  File:      RaftRsm/Storage/Log.lean
  Subject:   The replicated log (`storage/log.h`, `InMemoryLog`).

  Indices are 1-based; index 0 is the empty sentinel. An entry at index `i` stands at position
  `i - 1` of the list. `termAt` and `entryAt` are total here and answer out of range as the
  release build does (`entryAt` by a default entry: the source reads past its vector there);
  whether a call stays in range is recorded by the caller.
-/
import RaftRsm.Rpc.Messages
import Mathlib.Data.List.Infix
import Mathlib.Tactic.SplitIfs

namespace Rsm.Storage

open Rsm.Rpc

abbrev InMemoryLog := List LogEntry

namespace InMemoryLog

def lastIndex (l : InMemoryLog) : ℕ := l.length

def lastTerm (l : InMemoryLog) : ℕ :=
  match l.getLast? with
  | none => 0
  | some e => e.term

def termAt (l : InMemoryLog) (i : ℕ) : ℕ :=
  if i = 0 then 0
  else match l[i - 1]? with
    | none => 0
    | some e => e.term

def entryAt (l : InMemoryLog) (i : ℕ) : LogEntry := l[i - 1]?.getD default

def entriesSpan (l : InMemoryLog) (i : ℕ) : List LogEntry :=
  let i := if i < 1 then 1 else i
  if i > l.lastIndex then [] else l.drop (i - 1)

def truncateSuffixFrom (l : InMemoryLog) (i : ℕ) : InMemoryLog :=
  let i := if i < 1 then 1 else i
  if i > l.lastIndex then l else l.take (i - 1)

/-- One `push_back`: `append` is a loop of them. -/
def pushBack (l : InMemoryLog) (e : LogEntry) : InMemoryLog := l ++ [e]

def append (l : InMemoryLog) (entries : List LogEntry) : InMemoryLog := entries.foldl pushBack l

def entriesFrom (l : InMemoryLog) (i : ℕ) : List LogEntry :=
  let i := if i < 1 then 1 else i
  if i > l.lastIndex then [] else l.drop (i - 1)

/-! ## The accessors in terms of the list -/

@[simp] theorem lastIndex_eq (l : InMemoryLog) : l.lastIndex = l.length := rfl

@[simp] theorem pushBack_eq (l : InMemoryLog) (e : LogEntry) : l.pushBack e = l ++ [e] := rfl

@[simp] theorem append_eq (l : InMemoryLog) (es : List LogEntry) : l.append es = l ++ es := by
  induction es generalizing l with
  | nil => simp [append]
  | cons e es ih =>
      unfold append at ih ⊢
      rw [List.foldl_cons, ih, pushBack_eq, List.append_assoc, List.singleton_append]

theorem termAt_succ {l : InMemoryLog} {i : ℕ} {e : LogEntry} (h : l[i]? = some e) :
    l.termAt (i + 1) = e.term := by
  simp only [termAt, Nat.add_sub_cancel, h, if_neg (Nat.succ_ne_zero i)]

theorem entryAt_succ {l : InMemoryLog} {i : ℕ} {e : LogEntry} (h : l[i]? = some e) :
    l.entryAt (i + 1) = e := by
  simp only [entryAt, Nat.add_sub_cancel, h, Option.getD_some]

theorem entriesSpan_succ (l : InMemoryLog) (i : ℕ) : l.entriesSpan (i + 1) = l.drop i := by
  simp only [entriesSpan]
  rw [if_neg (show ¬ i + 1 < 1 by omega), Nat.add_sub_cancel]
  by_cases h : i + 1 > l.lastIndex
  · rw [if_pos h, List.drop_eq_nil_of_le (Nat.lt_succ_iff.mp h)]
  · rw [if_neg h]

theorem truncateSuffixFrom_succ (l : InMemoryLog) (i : ℕ) :
    l.truncateSuffixFrom (i + 1) = l.take i := by
  simp only [truncateSuffixFrom]
  rw [if_neg (show ¬ i + 1 < 1 by omega), Nat.add_sub_cancel]
  by_cases h : i + 1 > l.lastIndex
  · rw [if_pos h, List.take_of_length_le (Nat.lt_succ_iff.mp h)]
  · rw [if_neg h]

theorem mem_of_mem_entriesSpan {l : InMemoryLog} {i : ℕ} {e : LogEntry}
    (h : e ∈ l.entriesSpan i) : e ∈ l := by
  unfold entriesSpan at h
  dsimp only at h
  split_ifs at h with h1 h2 h2
  · cases h
  · exact List.mem_of_mem_drop h
  · cases h
  · exact List.mem_of_mem_drop h

theorem mem_of_mem_truncateSuffixFrom {l : InMemoryLog} {i : ℕ} {e : LogEntry}
    (h : e ∈ l.truncateSuffixFrom i) : e ∈ l := by
  unfold truncateSuffixFrom at h
  dsimp only at h
  split_ifs at h with h1 h2 h2
  · exact h
  · exact List.mem_of_mem_take h
  · exact h
  · exact List.mem_of_mem_take h

/-- Two logs that share their first `i` entries have the same term at `i`. -/
theorem termAt_of_take {l m : InMemoryLog} {i : ℕ} (h : l.take i = m.take i) :
    l.termAt i = m.termAt i := by
  cases i with
  | zero => rfl
  | succ i =>
      have hi : l[i]? = m[i]? := by
        rw [← List.getElem?_take_of_lt (Nat.lt_succ_self i), h,
          List.getElem?_take_of_lt (Nat.lt_succ_self i)]
      simp only [termAt, Nat.add_sub_cancel, hi]

end InMemoryLog

end Rsm.Storage
