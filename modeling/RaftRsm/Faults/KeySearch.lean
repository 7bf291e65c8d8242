/-
  File:      RaftRsm/Faults/KeySearch.lean
  Subject:   The search for a linearization of the operations on ONE KEY (`faults/linearizability.cpp`).

  Which operations have been taken is a mask of 64-bit words. `dfs` takes an operation that was invoked
  no later than the earliest response of those that are left, and remembers in `visited` every pair of
  mask and register it has begun with. That pair is in the set while the search from it still goes on;
  it is never met there, because the masks only grow on the way down.

  * `rem` -- the operations that a mask leaves;
  * `memoKey_inj` -- the string in the set says what mask and register were;
  * `search_dfs` -- with fuel for every operation, the search decides whether what is left can be
    linearized, with or without the set.
-/
import RaftRsm.StateMachine.KvStore
import RaftRsm.Linear.Timed
import Mathlib.Data.List.Sigma
import Mathlib.Order.MinMax
import Mathlib.Algebra.Group.Int.Defs
import Std.Data.ExtTreeSet

namespace Rsm.Sim

open Rsm.Rpc Rsm.StateMachine Linear

/-! ## 1. The code -/

/-- `std::numeric_limits<std::int64_t>::max()`. -/
def kInf : ℤ := 2 ^ 63 - 1

structure ClientOp where
  clientId : ℕ := 0
  seqNo : ℕ := 0
  /-- `none` stands for the values of `KvOp` that are none of the operations. -/
  op : Option KvOp := none
  key : Bytes := []
  arg : Bytes := []
  arg2 : Bytes := []
  invokeMs : ℤ := 0
  returnMs : ℤ := -1
  result : Bytes := []
  /-- The times are numbers of 64 bits. -/
  returnMs_le : returnMs ≤ kInf := by decide

def ClientOp.complete (op : ClientOp) : Bool := op.returnMs ≥ 0

structure KvRegister where
  present : Bool := false
  value : Bytes := []
  deriving DecidableEq, Repr

def kvModelApply (reg : KvRegister) (op : ClientOp) : KvRegister × Bytes :=
  match op.op with
  | some .put => (⟨true, op.arg⟩, [kKvOk])
  | some .get => if !reg.present then (reg, [kKvNotFound]) else (reg, kKvOk :: reg.value)
  | some .delete => (⟨false, []⟩, if reg.present then [kKvOk] else [kKvNotFound])
  | some .cas =>
      let current := if reg.present then reg.value else []
      if current ≠ op.arg then (reg, [kKvCasFailed]) else (⟨true, op.arg2⟩, [kKvOk])
  | some .append =>
      let reg := if !reg.present then ⟨true, []⟩ else reg
      let value := reg.value ++ op.arg
      ({ reg with value }, kKvOk :: value)
  | none => (reg, [kKvMalformed])

abbrev Mask := List (BitVec 64)

abbrev Visited := Std.ExtTreeSet Bytes

namespace KeySearch

/-- `(mask[i / 64] >> (i % 64)) & 1`. -/
def taken (mask : Mask) (i : ℕ) : Bool := (mask.getD (i / 64) 0).getLsbD (i % 64)

/-- `nextMask[i / 64] |= 1ULL << (i % 64)`. -/
def take (mask : Mask) (i : ℕ) : Mask :=
  mask.set (i / 64) (mask.getD (i / 64) 0 ||| 1#64 <<< (i % 64))

def memoKey (mask : Mask) (reg : KvRegister) : Bytes :=
  mask.flatMap (fun w => leBytes 8 w.toNat) ++ (if reg.present then 1 else 0) :: reg.value

/-- The first loop of `dfs`: `minReturn` and `allCompletedDone`. -/
def earliest (ops : List ClientOp) (mask : Mask) : ℤ × Bool :=
  ops.zipIdx.foldl (fun (s : ℤ × Bool) x =>
    if taken mask x.2 || !x.1.complete then s else (min s.1 x.1.returnMs, false)) (kInf, true)

/-- The second loop of `dfs`, over the operations from some point on: `go` is the recursive call. -/
def tryEach (go : Visited → Mask → KvRegister → Option (Bool × Visited)) (mask : Mask)
    (reg : KvRegister) (minReturn : ℤ) : List (ClientOp × ℕ) → Visited → Option (Bool × Visited)
  | [], visited => some (false, visited)
  | (op, i) :: rest, visited =>
      if taken mask i then tryEach go mask reg minReturn rest visited
      else if op.invokeMs > minReturn then tryEach go mask reg minReturn rest visited
      else
        let (next, result) := kvModelApply reg op
        if op.complete && result ≠ op.result then tryEach go mask reg minReturn rest visited
        else match go visited (take mask i) next with
          | none => none
          | some (true, visited) => some (true, visited)
          | some (false, visited) => tryEach go mask reg minReturn rest visited

/-- The search, at most `fuel` operations deep. `memo` says whether a pair that was met before is left;
    in the source it always is. -/
def dfs (ops : List ClientOp) (memo : Bool) : ℕ → Visited → Mask → KvRegister →
    Option (Bool × Visited)
  | 0, _, _, _ => none
  | fuel + 1, visited, mask, reg =>
      let (minReturn, allCompletedDone) := earliest ops mask
      if allCompletedDone then some (true, visited)
      else if memo && memoKey mask reg ∈ visited then some (false, visited)
      else tryEach (fun visited mask reg => dfs ops memo fuel visited mask reg) mask reg minReturn
        ops.zipIdx (visited.insert (memoKey mask reg))

/-- One round for each operation and one more are enough. -/
def linearizable (ops : List ClientOp) (memo : Bool) : Option Bool :=
  (dfs ops memo (ops.length + 1) ∅ (List.replicate ((ops.length + 63) / 64) 0) {}).map Prod.fst

/-! ## 2. Masks and their strings -/

section Masks

variable {mask mask' : Mask} {i j : ℕ}

@[simp] theorem length_take (mask : Mask) (i : ℕ) : (take mask i).length = mask.length :=
  List.length_set

theorem taken_take (h : i / 64 < mask.length) (j : ℕ) :
    taken (take mask i) j = (taken mask j || decide (j = i)) := by
  unfold taken take
  rw [List.getD_eq_getElem?_getD, List.getElem?_set, List.getD_eq_getElem?_getD]
  by_cases hw : i / 64 = j / 64
  · rw [if_pos hw, if_pos h, Option.getD_some, BitVec.getLsbD_or, hw, BitVec.getLsbD_shiftLeft,
      BitVec.getLsbD_one]
    congr 1
    have : decide (j = i) = decide (j % 64 = i % 64) := decide_eq_decide.mpr (by omega)
    rw [this]
    by_cases hb : j % 64 = i % 64
    · simp [hb, Nat.mod_lt]
    · simp [hb]
      omega
  · rw [if_neg hw]
    have hne : j ≠ i := fun he => hw (by rw [he])
    simp [hne]

/-- What is taken in `mask` is taken in `mask'`. -/
def Above (mask mask' : Mask) : Prop := ∀ i, taken mask i = true → taken mask' i = true

theorem Above.of_take (hi : i / 64 < mask.length) (h : Above (take mask i) mask') : Above mask mask' :=
  fun j hj => h j (by rw [taken_take hi, hj, Bool.true_or])

theorem not_above_of_take (hi : i / 64 < mask.length) (hnot : taken mask i = false) :
    ¬ Above (take mask i) mask := fun h => by
  have := h i (by rw [taken_take hi, decide_eq_true rfl, Bool.or_true])
  rw [hnot] at this
  cases this

theorem leBytes_inj {w w' : BitVec 64} (h : leBytes 8 w.toNat = leBytes 8 w'.toNat) : w = w' := by
  have hlt : ∀ v : BitVec 64, v.toNat < 256 ^ 8 := fun v => v.isLt
  have hn := congrArg leNat h
  rw [leNat_leBytes, leNat_leBytes, Nat.mod_eq_of_lt (hlt w), Nat.mod_eq_of_lt (hlt w')] at hn
  exact BitVec.eq_of_toNat_eq hn

theorem words_inj : ∀ {mask mask' : Mask} {b b' : Bytes}, mask.length = mask'.length →
    mask.flatMap (fun w => leBytes 8 w.toNat) ++ b = mask'.flatMap (fun w => leBytes 8 w.toNat) ++ b' →
    mask = mask' ∧ b = b'
  | [], [], _, _, _, h => ⟨rfl, h⟩
  | w :: mask, w' :: mask', b, b', hl, h => by
      rw [List.flatMap_cons, List.flatMap_cons, List.append_assoc, List.append_assoc] at h
      obtain ⟨hw, h⟩ := List.append_inj h (by rw [length_leBytes, length_leBytes])
      obtain ⟨rfl, hb⟩ := words_inj (Nat.succ.inj hl) h
      rw [leBytes_inj hw]
      exact ⟨rfl, hb⟩

/-- **The string says what mask and register were.** -/
theorem memoKey_inj {reg reg' : KvRegister} (hl : mask.length = mask'.length)
    (h : memoKey mask reg = memoKey mask' reg') : mask = mask' ∧ reg = reg' := by
  obtain ⟨hm, hr⟩ := words_inj hl h
  obtain ⟨hp, hv⟩ := List.cons.inj hr
  obtain ⟨present, value⟩ := reg
  obtain ⟨present', value'⟩ := reg'
  refine ⟨hm, ?_⟩
  dsimp only at hp hv
  subst hv
  cases present <;> cases present' <;> first | rfl | cases hp

end Masks

/-! ## 3. What a mask leaves -/

section Left

variable {ops : List ClientOp} {mask : Mask} {i : ℕ} {op : ClientOp}

/-- The operations that have not been taken. -/
def rem (ops : List ClientOp) (mask : Mask) : List ClientOp :=
  (ops.zipIdx.filter fun x => !taken mask x.2).map Prod.fst

/-- The words are enough for all operations. -/
def Covers (mask : Mask) (ops : List ClientOp) : Prop := mask.length = (ops.length + 63) / 64

theorem Covers.lt (h : Covers mask ops) (hi : (op, i) ∈ ops.zipIdx) : i / 64 < mask.length := by
  have := List.snd_lt_of_mem_zipIdx hi
  rw [h]
  dsimp only at this
  omega

theorem mem_of_mem_rem (h : op ∈ rem ops mask) : op ∈ ops := by
  obtain ⟨x, hx, rfl⟩ := List.mem_map.mp h
  obtain ⟨-, -, he⟩ := List.mem_zipIdx (List.mem_of_mem_filter hx)
  rw [he]
  exact List.getElem_mem _

/-- Taking an operation leaves the others. -/
theorem filter_take {x : ClientOp × ℕ} {A B : List (ClientOp × ℕ)} (hc : Covers mask ops)
    (h : (ops.zipIdx.filter fun x => !taken mask x.2) = A ++ x :: B) :
    (ops.zipIdx.filter fun y => !taken (take mask x.2) y.2) = A ++ B := by
  have hx : x ∈ ops.zipIdx := List.mem_of_mem_filter (p := fun x => !taken mask x.2) (by rw [h]; simp)
  have hn : ((A ++ x :: B).map Prod.snd).Nodup := by
    rw [← h]
    exact (List.nodup_zipIdx_map_snd ops).sublist (List.filter_sublist.map _)
  rw [List.map_append, List.map_cons, List.nodup_middle, List.nodup_cons, ← List.map_append] at hn
  have hboth : (ops.zipIdx.filter fun y => !taken (take mask x.2) y.2) =
      (A ++ x :: B).filter fun y => y.2 ≠ x.2 := by
    rw [← h, List.filter_filter]
    refine List.filter_congr fun y hy => ?_
    rw [taken_take (hc.lt hx)]
    cases taken mask y.2 <;> simp
  rw [hboth, List.filter_append, List.filter_cons_of_neg (by simp), ← List.filter_append]
  refine List.filter_eq_self.mpr fun y hy => decide_eq_true fun he => hn.1 ?_
  rw [← he]
  exact List.mem_map_of_mem hy

theorem rem_take (hc : Covers mask ops) (hi : (op, i) ∈ ops.zipIdx) (hnot : taken mask i = false) :
    ∃ A B, rem ops mask = A ++ op :: B ∧ rem ops (take mask i) = A ++ B := by
  obtain ⟨A, B, h⟩ := List.append_of_mem
    (List.mem_filter (p := fun x : ClientOp × ℕ => !taken mask x.2).mpr ⟨hi, by simp [hnot]⟩)
  refine ⟨A.map Prod.fst, B.map Prod.fst, ?_, ?_⟩
  · unfold rem
    rw [h, List.map_append, List.map_cons]
  · unfold rem
    rw [filter_take hc h, List.map_append]

theorem exists_index {A B : List ClientOp} (hc : Covers mask ops) (h : rem ops mask = A ++ op :: B) :
    ∃ i, (op, i) ∈ ops.zipIdx ∧ taken mask i = false ∧ rem ops (take mask i) = A ++ B := by
  obtain ⟨A', R, hA, rfl, hR⟩ := List.map_eq_append_iff.mp h
  obtain ⟨⟨op', i⟩, B', rfl, rfl, rfl⟩ := List.map_eq_cons_iff.mp hR
  have hx : (op', i) ∈ ops.zipIdx.filter fun x => !taken mask x.2 := by rw [hA]; simp
  refine ⟨i, List.mem_of_mem_filter hx, by simpa using (List.mem_filter.mp hx).2, ?_⟩
  unfold rem
  rw [filter_take hc hA, List.map_append]

end Left

/-! ## 4. The earliest response -/

section Earliest

variable {ops : List ClientOp} {mask : Mask}

theorem earliest_eq (ops : List ClientOp) (mask : Mask) : earliest ops mask =
    ((rem ops mask).filter ClientOp.complete).foldl
      (fun (s : ℤ × Bool) o => (min s.1 o.returnMs, false)) (kInf, true) := by
  unfold earliest rem
  rw [List.foldl_filter, List.foldl_map, List.foldl_filter]
  congr 1
  funext s x
  cases taken mask x.2 <;> cases x.1.complete <;> rfl

theorem foldl_earliest : ∀ (l : List ClientOp) (m : ℤ) (b : Bool),
    ((l.foldl (fun (s : ℤ × Bool) o => (min s.1 o.returnMs, false)) (m, b)).2 = true ↔
      b = true ∧ l = []) ∧
    ∀ t, t ≤ (l.foldl (fun (s : ℤ × Bool) o => (min s.1 o.returnMs, false)) (m, b)).1 ↔
      t ≤ m ∧ ∀ o ∈ l, t ≤ o.returnMs
  | [], m, b => by simp
  | o :: l, m, b => by
      obtain ⟨hdone, hle⟩ := foldl_earliest l (min m o.returnMs) false
      rw [List.foldl_cons]
      refine ⟨by simp [hdone], fun t => ?_⟩
      rw [hle, le_min_iff, List.forall_mem_cons, and_assoc]

theorem earliest_done : (earliest ops mask).2 = true ↔ ∀ o ∈ rem ops mask, o.complete = false := by
  rw [earliest_eq, (foldl_earliest _ kInf true).1]
  simp [List.filter_eq_nil_iff]

/-- As long as something that has responded is left, being no later than `minReturn` is being no later
    than every response that is left. -/
theorem le_earliest (h : (earliest ops mask).2 = false) (t : ℤ) :
    t ≤ (earliest ops mask).1 ↔ ∀ o ∈ rem ops mask, o.complete = true → t ≤ o.returnMs := by
  have hsome : ∃ o ∈ rem ops mask, o.complete = true := by
    by_contra hno
    refine Bool.false_ne_true (h.symm.trans (earliest_done.mpr fun o ho => ?_))
    exact Bool.eq_false_iff.mpr fun hc => hno ⟨o, ho, hc⟩
  obtain ⟨o, ho, hc⟩ := hsome
  rw [earliest_eq, (foldl_earliest _ kInf true).2]
  simp only [List.mem_filter, and_imp]
  exact ⟨fun h => h.2, fun h => ⟨le_trans (h o ho hc) o.returnMs_le, h⟩⟩

end Earliest

/-! ## 5. The search -/

/-- What a client knows of its operations. -/
def clientTimes : Timed ClientOp Bytes where
  invoke := ClientOp.invokeMs
  complete := ClientOp.complete
  response := ClientOp.returnMs
  result := ClientOp.result

section Search

variable {ops : List ClientOp} {mask : Mask} {reg : KvRegister} {V V' : Visited} {i : ℕ} {op : ClientOp}

/-- What is left can be linearized. -/
def Can (ops : List ClientOp) (mask : Mask) (reg : KvRegister) : Prop :=
  clientTimes.Linearizable kvModelApply reg (rem ops mask)

/-- **The set is right from the mask on**: what is in it above the mask cannot be linearized. -/
def Known (ops : List ClientOp) (V : Visited) (mask : Mask) : Prop :=
  ∀ mask' reg', Covers mask' ops → memoKey mask' reg' ∈ V → Above mask mask' → ¬ Can ops mask' reg'

/-- The set has only got pairs above the mask that cannot be linearized. -/
def Adds (ops : List ClientOp) (mask : Mask) (V V' : Visited) : Prop :=
  ∀ mask' reg', Covers mask' ops → memoKey mask' reg' ∈ V' →
    memoKey mask' reg' ∈ V ∨ Above mask mask' ∧ ¬ Can ops mask' reg'

theorem Adds.refl (mask : Mask) (V : Visited) : Adds ops mask V V := fun _ _ _ h => .inl h

theorem Adds.trans {V'' : Visited} (h : Adds ops mask V V') (k : Adds ops mask V' V'') :
    Adds ops mask V V'' := fun mask' reg' hc hm =>
  (k mask' reg' hc hm).elim (h mask' reg' hc) .inr

theorem Known.adds {mask' : Mask} (h : Known ops V mask) (k : Adds ops mask' V V') :
    Known ops V' mask := fun mask'' reg'' hc hm ha =>
  (k mask'' reg'' hc hm).elim (fun hV => h mask'' reg'' hc hV ha) And.right

theorem wellTimed_rem (h : clientTimes.WellTimed ops) (mask : Mask) :
    clientTimes.WellTimed (rem ops mask) := fun a ha => h a (mem_of_mem_rem ha)

/-- An operation that may be tried next. -/
structure Candidate (mask : Mask) (reg : KvRegister) (minReturn : ℤ) (x : ClientOp × ℕ) : Prop where
  left : taken mask x.2 = false
  inTime : x.1.invokeMs ≤ minReturn
  answer : x.1.complete = true → (kvModelApply reg x.1).2 = x.1.result

/-- **What can be linearized begins with a candidate**, if something that has responded is left. -/
theorem can_iff (hw : clientTimes.WellTimed ops) (hc : Covers mask ops)
    (hd : (earliest ops mask).2 = false) : Can ops mask reg ↔ ∃ x ∈ ops.zipIdx,
      Candidate mask reg (earliest ops mask).1 x ∧
        Can ops (take mask x.2) (kvModelApply reg x.1).1 := by
  unfold Can
  rw [Timed.linearizable_iff (wellTimed_rem hw mask)]
  constructor
  · rintro (hno | ⟨A, o, B, hl, hfirst, hans, h⟩)
    · rw [earliest_done.mpr hno] at hd
      cases hd
    · obtain ⟨i, hi, hnot, hrest⟩ := exists_index hc hl
      exact ⟨(o, i), hi, ⟨hnot, (le_earliest hd _).mpr hfirst, hans⟩, hrest ▸ h⟩
  · rintro ⟨⟨o, i⟩, hi, hx, h⟩
    obtain ⟨A, B, hl, hrest⟩ := rem_take hc hi hx.left
    exact .inr ⟨A, o, B, hl, (le_earliest hd _).mp hx.inTime, hx.answer, hrest ▸ h⟩

/-- What a call returns: whether what is left can be linearized, and if not, a set that is still right. -/
def Decides (ops : List ClientOp) (V : Visited) (mask : Mask) (reg : KvRegister)
    (x : Option (Bool × Visited)) : Prop :=
  ∃ b V', x = some (b, V') ∧ (b = true ↔ Can ops mask reg) ∧ (b = false → Adds ops mask V V')

/-- The loop, where every recursive call decides: it finds a candidate that can go on, or there is none
    among those it has tried. -/
theorem search_tryEach {go : Visited → Mask → KvRegister → Option (Bool × Visited)}
    (reg : KvRegister) (minReturn : ℤ) (hc : Covers mask ops)
    (hgo : ∀ V x, x ∈ ops.zipIdx → taken mask x.2 = false → Known ops V (take mask x.2) →
      ∀ next, Decides ops V (take mask x.2) next (go V (take mask x.2) next)) :
    ∀ {xs : List (ClientOp × ℕ)} {V : Visited}, (∀ x ∈ xs, x ∈ ops.zipIdx) →
      (∀ x ∈ ops.zipIdx, taken mask x.2 = false → Known ops V (take mask x.2)) →
      ∃ b V', tryEach go mask reg minReturn xs V = some (b, V') ∧
        (b = true ↔ ∃ x ∈ xs, Candidate mask reg minReturn x ∧
          Can ops (take mask x.2) (kvModelApply reg x.1).1) ∧
        (b = false → Adds ops mask V V')
  | [], V, _, _ => ⟨false, V, rfl, by simp, fun _ => Adds.refl mask V⟩
  | x :: xs, V, hxs, hV => by
      have hx := hxs x List.mem_cons_self
      have htail : ∀ y ∈ xs, y ∈ ops.zipIdx := fun y hy => hxs y (List.mem_cons_of_mem x hy)
      -- an operation that is no candidate is passed over
      have hskip : ¬ Candidate mask reg minReturn x → ∃ b V',
          tryEach go mask reg minReturn xs V = some (b, V') ∧
            (b = true ↔ ∃ x' ∈ x :: xs, Candidate mask reg minReturn x' ∧
              Can ops (take mask x'.2) (kvModelApply reg x'.1).1) ∧
            (b = false → Adds ops mask V V') := by
        intro hno
        obtain ⟨b, V', hrun, hb, hadds⟩ := search_tryEach reg minReturn hc hgo htail hV
        refine ⟨b, V', hrun, ?_, hadds⟩
        rw [hb, List.exists_mem_cons_iff]
        exact ⟨.inr, fun h => h.resolve_left fun h => hno h.1⟩
      obtain ⟨op, i⟩ := x
      unfold tryEach
      by_cases hnot : taken mask i = true
      · rw [if_pos hnot]
        exact hskip fun h => by rw [h.left] at hnot; cases hnot
      rw [if_neg hnot]
      have hnot : taken mask i = false := by simpa using hnot
      by_cases htime : op.invokeMs > minReturn
      · rw [if_pos htime]
        exact hskip fun h => absurd h.inTime (not_le.mpr htime)
      rw [if_neg htime]
      dsimp only
      by_cases hans : (op.complete && decide ((kvModelApply reg op).2 ≠ op.result)) = true
      · rw [if_pos hans]
        rw [Bool.and_eq_true, decide_eq_true_eq] at hans
        exact hskip fun h => hans.2 (h.answer hans.1)
      rw [if_neg hans]
      have hcand : Candidate mask reg minReturn (op, i) :=
        ⟨hnot, not_lt.mp htime, fun hcomp => by simpa [hcomp] using hans⟩
      obtain ⟨b, V₁, hrun, hb, hadds⟩ := hgo V (op, i) hx hnot (hV _ hx hnot) (kvModelApply reg op).1
      dsimp only at hrun hb hadds
      rw [hrun]
      cases b with
      | true => exact ⟨true, V₁, rfl, ⟨fun _ => ⟨_, List.mem_cons_self, hcand, hb.mp rfl⟩, fun _ => rfl⟩,
          fun h => by cases h⟩
      | false =>
          have hV₁ : Adds ops mask V V₁ := fun mask' reg' hc' hm =>
            (hadds rfl mask' reg' hc' hm).imp_right fun h => ⟨h.1.of_take (hc.lt hx), h.2⟩
          obtain ⟨b, V', hrun', hb', hadds'⟩ := search_tryEach reg minReturn hc hgo (V := V₁) htail
            fun y hy hy' => (hV y hy hy').adds (hadds rfl)
          refine ⟨b, V', hrun', ?_, fun h => hV₁.trans (hadds' h)⟩
          rw [hb', List.exists_mem_cons_iff]
          exact ⟨.inr, fun h => h.resolve_left fun h => Bool.false_ne_true (hb.mpr h.2)⟩

/-- When the search begins with a pair, the set is still right for every operation it may take. -/
theorem Known.begin (h : Known ops V mask) (reg : KvRegister) (hc : Covers mask ops) {x : ClientOp × ℕ}
    (hx : x ∈ ops.zipIdx) (hnot : taken mask x.2 = false) :
    Known ops (V.insert (memoKey mask reg)) (take mask x.2) := by
  intro mask' reg' hc' hm ha
  rcases Std.ExtTreeSet.mem_insert.mp hm with he | hV
  · -- the pair itself is not above what was taken from it
    obtain ⟨rfl, -⟩ := memoKey_inj (hc.trans hc'.symm) (Std.LawfulEqCmp.eq_of_compare he)
    exact absurd ha (not_above_of_take (hc.lt hx) hnot)
  · exact h mask' reg' hc' hV (ha.of_take (hc.lt hx))

/-- **The search decides whether what is left can be linearized**, if there is fuel for all of it, and
    whether or not it looks at the set. -/
theorem search_dfs (hw : clientTimes.WellTimed ops) (memo : Bool) : ∀ (fuel : ℕ) {V : Visited}
    {mask : Mask} (reg : KvRegister), Covers mask ops → (rem ops mask).length < fuel →
      Known ops V mask → Decides ops V mask reg (dfs ops memo fuel V mask reg)
  | 0, _, _, _, _, hf, _ => absurd hf (Nat.not_lt_zero _)
  | fuel + 1, V, mask, reg, hc, hf, hV => by
      unfold dfs
      dsimp only
      cases hd : (earliest ops mask).2 with
      | true =>
          refine ⟨true, V, rfl, ⟨fun _ => ?_, fun _ => rfl⟩, fun h => by cases h⟩
          exact (Timed.linearizable_iff (wellTimed_rem hw mask)).mpr (.inl (earliest_done.mp hd))
      | false =>
          rw [if_neg Bool.false_ne_true]
          by_cases hm : (memo && decide (memoKey mask reg ∈ V)) = true
          · rw [if_pos hm]
            rw [Bool.and_eq_true, decide_eq_true_eq] at hm
            have hno := hV mask reg hc hm.2 fun _ h => h
            exact ⟨false, V, rfl, ⟨fun h => (Bool.false_ne_true h).elim, fun h => absurd h hno⟩, fun _ => Adds.refl mask V⟩
          rw [if_neg hm]
          -- an operation less is left for the recursive call
          have hgo : ∀ V x, x ∈ ops.zipIdx → taken mask x.2 = false → Known ops V (take mask x.2) →
              ∀ next, Decides ops V (take mask x.2) next (dfs ops memo fuel V (take mask x.2) next) := by
            rintro V ⟨op, i⟩ hx hnot hV next
            obtain ⟨A, B, hl, hrest⟩ := rem_take hc hx hnot
            refine search_dfs hw memo fuel next ((length_take mask i).trans hc) ?_ hV
            rw [hl, List.length_append, List.length_cons] at hf
            rw [hrest, List.length_append]
            omega
          obtain ⟨b, V', hrun, hb, hadds⟩ := search_tryEach reg (earliest ops mask).1 hc hgo
            (fun x hx => hx) fun x hx hnot => hV.begin reg hc hx hnot
          have hcan : b = true ↔ Can ops mask reg := hb.trans (can_iff hw hc hd).symm
          refine ⟨b, V', hrun, hcan, fun hfalse mask' reg' hc' hmem => ?_⟩
          rcases hadds hfalse mask' reg' hc' hmem with hold | hnew
          · rcases Std.ExtTreeSet.mem_insert.mp hold with he | hV'
            · obtain ⟨rfl, rfl⟩ := memoKey_inj (hc.trans hc'.symm) (Std.LawfulEqCmp.eq_of_compare he)
              refine .inr ⟨fun _ h => h, fun h => ?_⟩
              rw [hcan.mpr h] at hfalse
              cases hfalse
            · exact .inl hV'
          · exact .inr hnew

theorem taken_replicate (n i : ℕ) : taken (List.replicate n 0) i = false := by
  unfold taken
  rw [List.getD_eq_getElem?_getD, List.getElem?_replicate]
  split_ifs <;> simp

/-- **The search for one key** ends with the verdict. -/
theorem linearizable_decides (hw : clientTimes.WellTimed ops) (memo : Bool) :
    ∃ b, linearizable ops memo = some b ∧ (b = true ↔ clientTimes.Linearizable kvModelApply {} ops) := by
  have hrem : rem ops (List.replicate ((ops.length + 63) / 64) 0) = ops := by
    unfold rem
    rw [List.filter_eq_self.mpr fun x _ => by rw [taken_replicate]; rfl, List.zipIdx_map_fst]
  obtain ⟨b, V', hrun, hb, -⟩ := search_dfs hw memo (ops.length + 1) (V := ∅) {}
    List.length_replicate (by rw [hrem]; omega) fun _ _ _ h => absurd h Std.ExtTreeSet.not_mem_empty
  refine ⟨b, ?_, hb.trans ?_⟩
  · unfold linearizable
    rw [hrun]
    rfl
  · unfold Can
    rw [hrem]

end Search

end KeySearch

end Rsm.Sim
