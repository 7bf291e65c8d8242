/-
  File:      RaftRsm/Faults/Watching.lean
  Subject:   The monitors of a chaos run that look at single events (`faults/checkers.cpp`): ELECTION
             SAFETY at every win, LEADER APPEND-ONLY at every step, APPLIED CONSISTENCY at every apply.

  Each of them remembers something per term, per node or per index, and judges a call by that alone.
  What they are fed are fingerprints: `entryImage` and `logImage` of entries and logs, `fnv1a` of results.

  * `electionMonitor_exact` -- silent exactly if no term was won by two nodes;
  * `appendOnlyMonitor_exact` -- silent exactly if no leader's log loses or changes an entry between any
    two looks at it in one tenure, although only neighbouring looks are compared;
  * `appliedMonitor_exact` -- silent exactly if any two applies of one index agree in entry and result,
    although each is compared with the first alone.
-/
import RaftRsm.Faults.Monitors
import RaftRsm.Rpc.Wire
import RaftRsm.Watch.Keyed
import Std.Data.ExtTreeSet

namespace Rsm.Sim

open Rsm.Rpc Watch

/-! ## 1. Fingerprints -/

/-- 64-bit FNV-1a, on from `h`. -/
def fnv1a (data : Bytes) (h : ℕ := 14695981039346656037) : ℕ :=
  data.foldl (fun h b => (h ^^^ b.toNat) * 1099511628211 % 2 ^ 64) h

/-- The eight bytes of the term, then the command. -/
def entryImage (e : LogEntry) : EntryImage := ⟨e.term, fnv1a e.command (fnv1a (leBytes 8 e.term))⟩

def logImage (log : List LogEntry) : LogImage := log.map entryImage

/-! ## 2. Election Safety -/

structure ElectionSafetyChecker where
  leadersByTerm : Std.ExtTreeMap ℕ (Std.ExtTreeSet NodeId) := ∅
  violations : List String := []

/-- What there is to say of a win, against the winners that its term has. -/
def twoLeaders (winners : Std.ExtTreeSet NodeId) (term : ℕ) (node : NodeId) : List String :=
  if !winners.isEmpty && !winners.contains node then
    ["ELECTION SAFETY: term " ++ toString term ++ " has two leaders: node " ++ toString (winners.minD 0) ++
      " and node " ++ toString node]
  else []

def ElectionSafetyChecker.observeLeader (m : ElectionSafetyChecker) (term : ℕ) (node : NodeId) :
    ElectionSafetyChecker :=
  let winners := m.leadersByTerm.getD term ∅
  { leadersByTerm := m.leadersByTerm.insert term (winners.insert node)
    violations := m.violations ++ twoLeaders winners term node }

/-- A win: its term and its winner. -/
abbrev Win := ℕ × NodeId

def electionMonitor (wins : List Win) : ElectionSafetyChecker :=
  wins.foldl (fun m c => m.observeLeader c.1 c.2) {}

/-! ## 3. Leader Append-Only -/

structure Baseline where
  term : ℕ := 0
  log : LogImage := []
  deriving DecidableEq, Repr

structure LeaderAppendOnlyChecker where
  /-- There only while the node leads. -/
  baseline : Std.ExtTreeMap NodeId Baseline := ∅
  violations : List String := []

/-- What there is to say of a leader's log, against the one of the last look. -/
def shrunkOrChanged (node : NodeId) (term : ℕ) (base log : LogImage) : List String :=
  if log.length < base.length then
    ["LEADER APPEND-ONLY: leader " ++ toString node ++ " (term " ++ toString term ++
      ") shrank its log from " ++ toString base.length ++ " to " ++ toString log.length ++ " entries"]
  else
    match firstDifference log base base.length with
    | none => []
    | some i => ["LEADER APPEND-ONLY: leader " ++ toString node ++ " (term " ++ toString term ++
        ") changed its entry at index " ++ toString (i + 1)]

def LeaderAppendOnlyChecker.observe (m : LeaderAppendOnlyChecker) (node : NodeId) (isLeader : Bool) (term : ℕ)
    (log : LogImage) : LeaderAppendOnlyChecker :=
  if !isLeader then { m with baseline := m.baseline.erase node }
  else
    { baseline := m.baseline.insert node ⟨term, log⟩
      violations :=
        match m.baseline[node]? with
        | some base =>
            if base.term = term then m.violations ++ shrunkOrChanged node term base.log log else m.violations
        | none => m.violations }

/-- A look at a node. -/
structure Look where
  node : NodeId
  isLeader : Bool
  term : ℕ
  log : LogImage
  deriving DecidableEq, Repr

def appendOnlyMonitor (looks : List Look) : LeaderAppendOnlyChecker :=
  looks.foldl (fun m c => m.observe c.node c.isLeader c.term c.log) {}

/-! ## 4. Applied consistency -/

structure Applied where
  entry : EntryImage
  resultFp : ℕ := 0
  firstNode : NodeId := 0
  deriving DecidableEq, Repr

structure AppliedConsistencyChecker where
  record : Std.ExtTreeMap ℕ Applied := ∅
  violations : List String := []

/-- What there is to say of an apply, against the first one of its index. -/
def differently (first : Applied) (node : NodeId) (index : ℕ) (entry : EntryImage) (resultFp : ℕ) : List String :=
  if first.entry ≠ entry then
    ["STATE MACHINE SAFETY: node " ++ toString node ++ " applied a different command at index " ++
      toString index ++ " than node " ++ toString first.firstNode ++ " did"]
  else if first.resultFp ≠ resultFp then
    ["APPLY DETERMINISM: node " ++ toString node ++ " got a different result applying index " ++
      toString index ++ " than node " ++ toString first.firstNode ++ " did"]
  else []

def AppliedConsistencyChecker.observeApply (m : AppliedConsistencyChecker) (node : NodeId) (index : ℕ)
    (entry : EntryImage) (resultFp : ℕ) : AppliedConsistencyChecker :=
  match m.record[index]? with
  | none => { m with record := m.record.insert index ⟨entry, resultFp, node⟩ }
  | some first => { m with violations := m.violations ++ differently first node index entry resultFp }

/-- An apply: who, where, what, and with which result. -/
structure Apply where
  node : NodeId
  index : ℕ
  entry : EntryImage
  resultFp : ℕ
  deriving DecidableEq, Repr

def appliedMonitor (applies : List Apply) : AppliedConsistencyChecker :=
  applies.foldl (fun m c => m.observeApply c.node c.index c.entry c.resultFp) {}

/-! ## 5. One memory per node or index -/

theorem getElem?_insert_ite {K V : Type} [Ord K] [Std.TransOrd K] [Std.LawfulEqOrd K] [DecidableEq K]
    (m : Std.ExtTreeMap K V) (k a : K) (v : V) : (m.insert k v)[a]? = if k = a then some v else m[a]? := by
  rw [Std.ExtTreeMap.getElem?_insert]
  simp only [Std.LawfulEqCmp.compare_eq_iff_eq]

/-- The last log of a node that leads. -/
def LeaderAppendOnlyChecker.keyed : Keyed LeaderAppendOnlyChecker Look NodeId Baseline String where
  step m c := m.observe c.node c.isLeader c.term c.log
  key := Look.node
  memory m n := m.baseline[n]?
  said m := m.violations
  next _ c := if c.isLeader then some ⟨c.term, c.log⟩ else none
  bad m c := m.elim [] fun base =>
    if c.isLeader ∧ base.term = c.term then shrunkOrChanged c.node c.term base.log c.log else []
  fresh := {}
  memory_fresh n := Std.ExtTreeMap.getElem?_empty
  said_fresh := rfl
  memory_step m c n := by
    dsimp only [LeaderAppendOnlyChecker.observe]
    cases c.isLeader with
    | false =>
        simp only [Bool.not_false, if_true, Bool.false_eq_true, if_false]
        rw [Std.ExtTreeMap.getElem?_erase]
        simp only [Std.LawfulEqCmp.compare_eq_iff_eq]
    | true =>
        simp only [Bool.not_true, Bool.false_eq_true, if_false, if_true]
        exact getElem?_insert_ite _ _ _ _
  said_step m c := by
    dsimp only [LeaderAppendOnlyChecker.observe]
    cases c.isLeader with
    | false => cases m.baseline[c.node]? <;> simp
    | true =>
        cases m.baseline[c.node]? with
        | none => simp
        | some base =>
            simp only [Bool.not_true, Bool.false_eq_true, if_false, true_and, Option.elim_some]
            split_ifs
            · rfl
            · rw [List.append_nil]

/-- The first apply of an index. -/
def AppliedConsistencyChecker.keyed : Keyed AppliedConsistencyChecker Apply ℕ Applied String where
  step m c := m.observeApply c.node c.index c.entry c.resultFp
  key := Apply.index
  memory m i := m.record[i]?
  said m := m.violations
  next m c := m.or (some ⟨c.entry, c.resultFp, c.node⟩)
  bad m c := m.elim [] fun first => differently first c.node c.index c.entry c.resultFp
  fresh := {}
  memory_fresh i := Std.ExtTreeMap.getElem?_empty
  said_fresh := rfl
  memory_step m c i := by
    dsimp only [AppliedConsistencyChecker.observeApply]
    cases hr : m.record[c.index]? with
    | none =>
        dsimp only
        rw [getElem?_insert_ite]
        split_ifs with h
        · rw [← h, hr, Option.none_or]
        · rfl
    | some first =>
        dsimp only
        split_ifs with h
        · rw [← h, hr, Option.some_or]
        · rfl
  said_step m c := by
    dsimp only [AppliedConsistencyChecker.observeApply]
    cases m.record[c.index]? with
    | none => exact (List.append_nil _).symm
    | some first => rfl

/-! ## 6. The monitors are exact -/

theorem twoLeaders_nil {winners : Std.ExtTreeSet NodeId} {term : ℕ} {node : NodeId} :
    twoLeaders winners term node = [] ↔ (∀ n, n ∉ winners) ∨ node ∈ winners := by
  have hempty : winners.isEmpty = true ↔ ∀ n, n ∉ winners := by
    rw [Std.ExtTreeSet.isEmpty_iff]
    refine ⟨fun h n => h ▸ Std.ExtTreeSet.not_mem_empty, fun h => ?_⟩
    exact Std.ExtTreeSet.ext_mem fun n => ⟨fun hn => absurd hn (h n), fun hn => absurd hn Std.ExtTreeSet.not_mem_empty⟩
  unfold twoLeaders
  rw [ite_eq_right_iff, ← hempty, Std.ExtTreeSet.mem_iff_contains]
  cases winners.isEmpty <;> cases winners.contains node <;> simp

theorem electionMonitor_snoc (wins : List Win) (T : ℕ) (n : NodeId) :
    electionMonitor (wins ++ [(T, n)]) = (electionMonitor wins).observeLeader T n := List.foldl_concat _ _ _ _

/-- Those who have won a term. -/
theorem mem_leadersByTerm (T : ℕ) (node : NodeId) (wins : List Win) :
    node ∈ (electionMonitor wins).leadersByTerm.getD T ∅ ↔ (T, node) ∈ wins := by
  induction wins using List.reverseRecOn with
  | nil => simp [electionMonitor]
  | append_singleton wins c ih =>
      obtain ⟨T', n⟩ := c
      rw [electionMonitor_snoc, List.mem_append, List.mem_singleton, Prod.mk.injEq]
      dsimp only [ElectionSafetyChecker.observeLeader]
      rw [Std.ExtTreeMap.getD_eq_getD_getElem?, getElem?_insert_ite]
      split_ifs with hT
      · subst hT
        rw [Option.getD_some, Std.ExtTreeSet.mem_insert, Std.LawfulEqCmp.compare_eq_iff_eq, ih]
        constructor
        · rintro (rfl | h)
          · exact .inr ⟨rfl, rfl⟩
          · exact .inl h
        · rintro (h | ⟨-, rfl⟩)
          · exact .inr h
          · exact .inl rfl
      · rw [← Std.ExtTreeMap.getD_eq_getD_getElem?, ih]
        exact ⟨.inl, fun h => h.elim id fun h => absurd h.1.symm hT⟩

/-- **The election monitor is exact**: it says nothing exactly if no term was won by two nodes. -/
theorem electionMonitor_exact (wins : List Win) :
    (electionMonitor wins).violations = [] ↔ ∀ T n m, (T, n) ∈ wins → (T, m) ∈ wins → n = m := by
  induction wins using List.reverseRecOn with
  | nil => exact ⟨fun _ _ _ _ h => (List.not_mem_nil h).elim, fun _ => rfl⟩
  | append_singleton wins c ih =>
      obtain ⟨T', n'⟩ := c
      rw [electionMonitor_snoc]
      dsimp only [ElectionSafetyChecker.observeLeader]
      rw [List.append_eq_nil_iff, ih, twoLeaders_nil]
      simp only [mem_leadersByTerm]
      simp only [List.mem_append, List.mem_singleton, Prod.mk.injEq]
      constructor
      · rintro ⟨hold, hnew⟩ T n m (hn | ⟨rfl, rfl⟩) (hm | ⟨hT, rfl⟩)
        · exact hold T n m hn hm
        · subst hT
          exact hnew.elim (fun h => absurd hn (h n)) (hold T n m hn)
        · exact hnew.elim (fun h => absurd hm (h m)) fun h => hold T n m h hm
        · rfl
      · intro h
        refine ⟨fun T n m hn hm => h T n m (.inl hn) (.inl hm), ?_⟩
        by_cases hany : ∃ n, (T', n) ∈ wins
        · obtain ⟨n, hn⟩ := hany
          exact .inr (h T' n n' (.inl hn) (.inr ⟨rfl, rfl⟩) ▸ hn)
        · exact .inl fun n hn => hany ⟨n, hn⟩

theorem shrunkOrChanged_nil {node : NodeId} {term : ℕ} {base log : LogImage} :
    shrunkOrChanged node term base log = [] ↔ base <+: log := by
  unfold shrunkOrChanged
  by_cases hlen : log.length < base.length
  · rw [if_pos hlen]
    exact ⟨fun h => (List.cons_ne_nil _ _ h).elim, fun h => absurd h.length_le (Nat.not_le_of_lt hlen)⟩
  · rw [if_neg hlen, ← firstDifference_committed (Nat.le_of_not_lt hlen)]
    cases firstDifference log base base.length <;> simp

/-- The node of `c` leads, in the term of `c`, whenever it is looked at among `looks`. -/
def Leads (c : Look) (looks : List Look) : Prop :=
  ∀ x ∈ looks, x.node = c.node → x.isLeader = true ∧ x.term = c.term

/-- A look is judged by the last one at the same node. -/
theorem appendOnly_judged (before : List Look) (d : Look) :
    LeaderAppendOnlyChecker.keyed.bad ((LeaderAppendOnlyChecker.keyed.callsOf d.node before).foldl
      LeaderAppendOnlyChecker.keyed.next none) d = [] ↔
    ∀ c, (LeaderAppendOnlyChecker.keyed.callsOf d.node before).getLast? = some c →
      c.isLeader = true → d.isLeader = true → d.term = c.term → c.log <+: d.log := by
  rw [Keyed.foldl_last (M := LeaderAppendOnlyChecker.keyed) (fun _ _ => rfl)]
  cases (LeaderAppendOnlyChecker.keyed.callsOf d.node before).getLast? with
  | none => exact ⟨fun _ c hc => (Option.some_ne_none c hc.symm).elim, fun _ => rfl⟩
  | some c =>
      have hone : ∀ {P : Look → Prop}, (∀ x, some c = some x → P x) ↔ P c :=
        ⟨fun h => h c rfl, fun h x hx => Option.some.inj hx ▸ h⟩
      rw [hone, Option.bind_some]
      dsimp only [LeaderAppendOnlyChecker.keyed]
      cases c.isLeader with
      | false => simp
      | true =>
          simp only [if_true, Option.elim_some, forall_true_left]
          rw [ite_eq_right_iff, shrunkOrChanged_nil, and_imp, eq_comm (a := c.term)]

/-- It compares neighbouring looks at one node. -/
theorem appendOnly_neighbours (looks : List Look) :
    (appendOnlyMonitor looks).violations = [] ↔
      ∀ before c between d after, looks = before ++ c :: (between ++ d :: after) → d.node = c.node →
        (∀ x ∈ between, x.node ≠ c.node) → c.isLeader = true → d.isLeader = true → d.term = c.term →
        c.log <+: d.log := by
  refine (Keyed.silent_iff (M := LeaderAppendOnlyChecker.keyed) looks).trans ⟨?_, ?_⟩
  · intro h before c between d after heq hnode hbetween
    have hbad := h (before ++ c :: between) d after (by rw [heq, List.append_assoc, List.cons_append])
    refine (appendOnly_judged _ d).mp hbad c (Keyed.getLast?_callsOf before hnode.symm fun x hx hxd => ?_)
    exact hbetween x hx (Eq.trans hxd hnode)
  · intro h before d after heq
    refine (appendOnly_judged before d).mpr fun c hlast => ?_
    rcases Keyed.last_cases (M := LeaderAppendOnlyChecker.keyed) d.node before with
      hnone | ⟨b, x, between, rfl, hx, hbetween⟩
    · rw [hnone] at hlast
      cases hlast
    · rw [Keyed.getLast?_callsOf b hx hbetween] at hlast
      obtain rfl := Option.some.inj hlast
      refine h b x between d after ?_ hx.symm fun y hy hyx => hbetween y hy (Eq.trans hyx hx)
      rw [heq, List.append_assoc, List.cons_append]

/-- **The append-only monitor is exact.** It says nothing exactly if, from any look at a leader to any
    later look at it in the same tenure, no entry of its log is lost or changed. -/
theorem appendOnlyMonitor_exact (looks : List Look) :
    (appendOnlyMonitor looks).violations = [] ↔
      ∀ before c between d after, looks = before ++ c :: (between ++ d :: after) → d.node = c.node →
        Leads c (c :: (between ++ [d])) → c.log <+: d.log := by
  rw [appendOnly_neighbours]
  constructor
  · intro h before c between
    induction hlen : between.length using Nat.strong_induction_on generalizing before c between with
    | h k ih =>
        subst hlen
        intro d after heq hnode hlead
        have hc := hlead c List.mem_cons_self rfl
        have hd := hlead d (List.mem_cons_of_mem _ (List.mem_append_right _ (List.mem_singleton_self d))) hnode
        rcases Keyed.last_cases (M := LeaderAppendOnlyChecker.keyed) c.node between with
          hnone | ⟨first, x, rest, rfl, hx, hrest⟩
        · refine h before c between d after heq hnode (fun x hx hxc => ?_) hc.1 hd.1 hd.2
          exact List.not_mem_nil (hnone ▸ Keyed.mem_callsOf.mpr ⟨hx, hxc⟩)
        · -- by way of the last look in between
          have hxl := hlead x (by simp) hx
          have h1 : c.log <+: x.log := by
            refine ih first.length (by simp) before c first rfl x (rest ++ d :: after) ?_ hx fun y hy => hlead y ?_
            · rw [heq, List.append_assoc, List.cons_append]
            · simp only [List.mem_cons, List.mem_append] at hy ⊢
              tauto
          have h2 : x.log <+: d.log := by
            refine h (before ++ c :: first) x rest d after ?_ (hnode.trans hx.symm) (fun y hy hyx => hrest y hy (Eq.trans hyx hx))
              hxl.1 hd.1 (hd.2.trans hxl.2.symm)
            rw [heq]
            simp only [List.append_assoc, List.cons_append]
          exact h1.trans h2
  · intro h before c between d after heq hnode hbetween hc hd hterm
    refine h before c between d after heq hnode fun x hx hxc => ?_
    rcases List.mem_cons.mp hx with rfl | hx
    · exact ⟨hc, rfl⟩
    · rcases List.mem_append.mp hx with hx | hx
      · exact absurd hxc (hbetween x hx)
      · rw [List.mem_singleton.mp hx]
        exact ⟨hd, hterm⟩

/-- **The applied monitor is exact.** It says nothing exactly if any two applies of one index, on
    whatever nodes and in whatever incarnation, have the same entry and the same result. -/
theorem appliedMonitor_exact (applies : List Apply) :
    (appliedMonitor applies).violations = [] ↔
      ∀ c ∈ applies, ∀ d ∈ applies, c.index = d.index → c.entry = d.entry ∧ c.resultFp = d.resultFp := by
  have hsome : ∀ (v : Applied) (c : Apply), AppliedConsistencyChecker.keyed.bad (some v) c = [] ↔
      (v.entry, v.resultFp) = (c.entry, c.resultFp) := by
    intro v c
    show differently v c.node c.index c.entry c.resultFp = [] ↔ _
    unfold differently
    split_ifs with h1 h2 <;> simp_all
  have h := Keyed.silent_first_iff (M := AppliedConsistencyChecker.keyed)
    (f := fun c => ⟨c.entry, c.resultFp, c.node⟩) (g := fun v => (v.entry, v.resultFp))
    (fun _ _ => rfl) (fun _ => rfl) hsome applies
  refine Iff.trans h ?_
  simp only [Prod.mk.injEq]
  rfl

/-- **The monitors of events are exact.** Whatever they are told and in whatever order, the election
    monitor is silent exactly if no term was won by two nodes, the append-only monitor exactly if no leader
    lost or changed an entry within a tenure, and the applied monitor exactly if nothing was applied
    differently at one index. -/
theorem event_monitors_exact (wins : List Win) (looks : List Look) (applies : List Apply) :
    ((electionMonitor wins).violations = [] ↔ ∀ T n m, (T, n) ∈ wins → (T, m) ∈ wins → n = m) ∧
    ((appendOnlyMonitor looks).violations = [] ↔
      ∀ before c between d after, looks = before ++ c :: (between ++ d :: after) → d.node = c.node →
        Leads c (c :: (between ++ [d])) → c.log <+: d.log) ∧
    ((appliedMonitor applies).violations = [] ↔
      ∀ c ∈ applies, ∀ d ∈ applies, c.index = d.index → c.entry = d.entry ∧ c.resultFp = d.resultFp) :=
  ⟨electionMonitor_exact wins, appendOnlyMonitor_exact looks, appliedMonitor_exact applies⟩

end Rsm.Sim
