/-
  File:      RaftRsm/Faults/Checker.lean
  Subject:   THE LINEARIZABILITY CHECKER (`checkLinearizable` of `faults/linearizability.cpp`) is sound
             and complete.

  The checker sorts a history by keys and searches for each key on a register of its own. That the
  register behaves as the production store does at that key is `split_applyOp`; that the keys can be
  looked at one by one is the locality of timed histories.

  * `byKey_getElem?` -- the map holds the operations on a key, in the order of the history;
  * `checker_decides` -- the verdict is whether an order of the operations explains the history.
-/
import RaftRsm.Faults.KeySearch

namespace Rsm.Sim

open Rsm.Rpc Rsm.StateMachine Linear
open scoped List

/-! ## 1. The code -/

structure LinearizabilityResult where
  ok : Bool := false
  explanation : Bytes := []
  deriving DecidableEq, Repr

def text (s : String) : Bytes := s.toUTF8.toList

/-- The comparison of `std::sort`: by invocation, then by identity. -/
def invokedBefore (a b : ClientOp) : Bool :=
  if a.invokeMs ≠ b.invokeMs then a.invokeMs < b.invokeMs
  else if a.clientId ≠ b.clientId then a.clientId < b.clientId
  else a.seqNo < b.seqNo

/-- `std::sort` may order operations that compare equal in any way; the verdict does not depend on
    it. -/
def sortOps (ops : List ClientOp) : List ClientOp := ops.mergeSort fun a b => !invokedBefore b a

abbrev ByKey := Std.ExtTreeMap Bytes (List ClientOp)

def byKey (history : List ClientOp) : ByKey :=
  history.foldl (fun m op => m.insert op.key (m.getD op.key [] ++ [op])) ∅

def notLinearizable (key : Bytes) (n : ℕ) : Bytes :=
  text "history is not linearizable for key \"" ++ key ++ text "\" (" ++ text (toString n) ++ text " ops)"

/-- The loop over the keys. -/
def checkKeys : List (Bytes × List ClientOp) → Option LinearizabilityResult
  | [] => some ⟨true, []⟩
  | (key, ops) :: rest =>
      match KeySearch.linearizable (sortOps ops) true with
      | none => none
      | some false => some ⟨false, notLinearizable key ops.length⟩
      | some true => checkKeys rest

/-- `none` if a search has not come to its end. -/
def checkLinearizable (history : List ClientOp) : Option LinearizabilityResult :=
  checkKeys (byKey history).toList

/-- `KVStateMachine::applyOp` on what a client asked for. -/
def applyClientOp (kv : KvMap) (op : ClientOp) : KvMap × Bytes :=
  match op.op with
  | some o => applyOp kv o op.key op.arg op.arg2
  | none => (kv, [kKvMalformed])

/-! ## 2. The register of a key -/

/-- The register that holds what the store has under a key. -/
def KvRegister.of : Option Bytes → KvRegister
  | none => {}
  | some value => ⟨true, value⟩

/-- **`kvModelApply` mirrors `applyOp`** at the key of the operation. -/
theorem kvModelApply_of (kv : KvMap) (op : ClientOp) : kvModelApply (.of kv[op.key]?) op =
    (.of (applyClientOp kv op).1[op.key]?, (applyClientOp kv op).2) := by
  unfold applyClientOp kvModelApply
  cases op.op with
  | none => rfl
  | some o =>
      cases o with
      | put => simp [applyOp, KvRegister.of]
      | get =>
          cases hv : kv[op.key]? with
          | none => simp [applyOp, KvRegister.of, hv]
          | some v => simp [applyOp, KvRegister.of, hv]
      | delete =>
          by_cases hm : op.key ∈ kv
          · simp [applyOp, KvRegister.of, hm]
          · simp [applyOp, KvRegister.of, hm]
      | cas =>
          -- an absent key counts as the empty string in both
          have hcur : (if (KvRegister.of kv[op.key]?).present then (KvRegister.of kv[op.key]?).value else []) =
              kv.getD op.key [] := by
            rw [Std.ExtTreeMap.getD_eq_getD_getElem?]
            cases kv[op.key]? <;> rfl
          dsimp only [applyOp]
          rw [hcur]
          split_ifs
          · rfl
          · simp [KvRegister.of]
      | append =>
          cases hv : kv[op.key]? with
          | none => simp [applyOp, KvRegister.of, Std.ExtTreeMap.getD_eq_getD_getElem?, hv]
          | some v => simp [applyOp, KvRegister.of, Std.ExtTreeMap.getD_eq_getD_getElem?, hv]

theorem applyClientOp_other (kv : KvMap) (op : ClientOp) {k : Bytes} (hk : k ≠ op.key) :
    (applyClientOp kv op).1[k]? = kv[k]? := by
  have hne : compare op.key k ≠ .eq := fun he => hk (Std.LawfulEqCmp.eq_of_compare he).symm
  unfold applyClientOp
  cases op.op with
  | none => rfl
  | some o =>
      cases o with
      | put => simp [applyOp, Std.ExtTreeMap.getElem?_insert, hne]
      | get =>
          dsimp only [applyOp]
          split <;> rfl
      | delete =>
          dsimp only [applyOp]
          split_ifs
          · simp [Std.ExtTreeMap.getElem?_erase, hne]
          · rfl
      | cas =>
          dsimp only [applyOp]
          split_ifs
          · rfl
          · simp [Std.ExtTreeMap.getElem?_insert, hne]
      | append => simp [applyOp, Std.ExtTreeMap.getElem?_insert, hne]

theorem split_applyOp : Timed.Split ClientOp.key applyClientOp kvModelApply
    fun (k : Bytes) (kv : KvMap) => KvRegister.of kv[k]? where
  own kv op := by rw [kvModelApply_of]
  answer kv op := by rw [kvModelApply_of]
  other kv op k hk := by rw [applyClientOp_other kv op hk]

/-! ## 3. The keys of a history -/

section Keys

variable {history : List ClientOp}

theorem byKey_getElem? (history : List ClientOp) (k : Bytes) : (byKey history)[k]? =
    if Timed.at_ ClientOp.key k history = [] then none
    else some (Timed.at_ ClientOp.key k history) := by
  induction history using List.reverseRecOn with
  | nil => simp [byKey, Timed.at_]
  | append_singleton history op ih =>
      have hsnoc : byKey (history ++ [op]) = (byKey history).insert op.key
          ((byKey history).getD op.key [] ++ [op]) := List.foldl_append
      have hat : Timed.at_ ClientOp.key k (history ++ [op]) = Timed.at_ ClientOp.key k history ++
          if op.key = k then [op] else [] := by
        unfold Timed.at_
        rw [List.filter_append, List.filter_singleton]
        by_cases hk : op.key = k <;> simp [hk]
      rw [hsnoc, hat, Std.ExtTreeMap.getElem?_insert]
      by_cases hk : op.key = k
      · subst hk
        rw [if_pos Std.ReflCmp.compare_self, if_pos rfl, if_neg (by simp),
          Std.ExtTreeMap.getD_eq_getD_getElem?, ih]
        split_ifs with hnil
        · rw [hnil]
          rfl
        · rfl
      · rw [if_neg fun he => hk (Std.LawfulEqCmp.eq_of_compare he), ih, if_neg hk, List.append_nil]

/-- What the map holds is what the search is for. -/
theorem mem_byKey {p : Bytes × List ClientOp} (hp : p ∈ (byKey history).toList) :
    p.2 = Timed.at_ ClientOp.key p.1 history := by
  have hp := (Std.ExtTreeMap.mem_toList_iff_getElem?_eq_some (k := p.1) (v := p.2)).mp hp
  rw [byKey_getElem?] at hp
  split_ifs at hp
  exact (Option.some_inj.mp hp).symm

theorem sortOps_perm (ops : List ClientOp) : sortOps ops ~ ops := List.mergeSort_perm _ _

/-- **The loop over the keys** comes to its end, and says whether every key is linearizable. -/
theorem checkKeys_decides : ∀ {l : List (Bytes × List ClientOp)},
    (∀ p ∈ l, KeySearch.clientTimes.WellTimed p.2) → ∃ r, checkKeys l = some r ∧
      (r.ok = true ↔ ∀ p ∈ l, KeySearch.clientTimes.Linearizable kvModelApply {} p.2)
  | [], _ => ⟨⟨true, []⟩, rfl, by simp⟩
  | (key, ops) :: rest, h => by
      obtain ⟨hops, hrest⟩ := List.forall_mem_cons.mp h
      obtain ⟨b, hrun, hb⟩ := KeySearch.linearizable_decides (hops.perm (sortOps_perm ops).symm) true
      have hb : b = true ↔ KeySearch.clientTimes.Linearizable kvModelApply {} ops :=
        hb.trans ⟨fun h => h.perm (sortOps_perm ops), fun h => h.perm (sortOps_perm ops).symm⟩
      unfold checkKeys
      rw [hrun]
      cases b with
      | false =>
          refine ⟨_, rfl, ⟨fun h => (Bool.false_ne_true h).elim, fun h => ?_⟩⟩
          exact absurd (hb.mpr (List.forall_mem_cons.mp h).1) Bool.false_ne_true
      | true =>
          obtain ⟨r, hr, hok⟩ := checkKeys_decides hrest
          refine ⟨r, hr, ?_⟩
          rw [hok, List.forall_mem_cons]
          exact ⟨fun h => ⟨hb.mp rfl, h⟩, And.right⟩

end Keys

/-! ## 4. The verdict -/

/-- **The checker is sound and complete.** For every history in which no response comes before its
    invocation it comes to a verdict, and the verdict is whether there are a set of operations with all
    that have completed in it and an order on that set, such that what was completed before something
    was invoked comes before it, and the store gives every completed operation its result. For every key
    the search comes to the same verdict without the set of visited pairs. -/
theorem checker_decides (history : List ClientOp)
    (h : ∀ op ∈ history, op.complete = true → op.invokeMs ≤ op.returnMs) :
    (∃ r, checkLinearizable history = some r ∧ (r.ok = true ↔
      ∃ S, KeySearch.clientTimes.Orders applyClientOp ∅ history S)) ∧
    ∀ k, KeySearch.linearizable (sortOps (Timed.at_ ClientOp.key k history)) true =
      KeySearch.linearizable (sortOps (Timed.at_ ClientOp.key k history)) false := by
  have hw : KeySearch.clientTimes.WellTimed history := h
  have hwk : ∀ k, KeySearch.clientTimes.WellTimed (Timed.at_ ClientOp.key k history) := fun k a ha =>
    hw a (List.mem_of_mem_filter ha)
  refine ⟨?_, fun k => ?_⟩
  · obtain ⟨r, hr, hok⟩ := checkKeys_decides (l := (byKey history).toList) fun p hp => by
      rw [mem_byKey hp]
      exact hwk p.1
    refine ⟨r, hr, hok.trans ?_⟩
    have hlocal := Timed.linearizable_iff_keys (s := (∅ : KvMap)) split_applyOp hw
    have hinit : ∀ k, KvRegister.of (∅ : KvMap)[k]? = {} := fun k => by
      rw [Std.ExtTreeMap.getElem?_empty]
      rfl
    refine Iff.trans ⟨fun hall k => ?_, fun hall p hp => ?_⟩ hlocal.symm
    · rw [hinit]
      by_cases hnil : Timed.at_ ClientOp.key k history = []
      · exact ⟨[], ⟨⟨[], by rw [hnil]; rfl, by simp⟩, List.Pairwise.nil, trivial⟩⟩
      · refine hall (k, Timed.at_ ClientOp.key k history) (Std.ExtTreeMap.mem_toList_iff_getElem?_eq_some.mpr ?_)
        rw [byKey_getElem?, if_neg hnil]
    · have := hall p.1
      rwa [hinit, ← mem_byKey hp] at this
  · have hsorted := (hwk k).perm (sortOps_perm _).symm
    obtain ⟨b, hb, hiff⟩ := KeySearch.linearizable_decides hsorted true
    obtain ⟨b', hb', hiff'⟩ := KeySearch.linearizable_decides hsorted false
    rw [hb, hb', Bool.eq_iff_iff.mpr (hiff.trans hiff'.symm)]

/-- A PUT and a GET that overlap, and an APPEND that never came back. -/
def overlapping : List ClientOp :=
  [{ clientId := 1, seqNo := 1, op := some .put, key := [107], arg := [118], returnMs := 10, result := [kKvOk] },
   { clientId := 2, seqNo := 1, op := some .get, key := [107], invokeMs := 5, returnMs := 20,
     result := [kKvNotFound] },
   { clientId := 3, seqNo := 1, op := some .append, key := [107], arg := [119], invokeMs := 7 }]

theorem checker_decides_overlapping : ∃ r, checkLinearizable overlapping = some r ∧
    (r.ok = true ↔ ∃ S, KeySearch.clientTimes.Orders applyClientOp ∅ overlapping S) :=
  (checker_decides overlapping (by decide)).1

end Rsm.Sim
