/-
  File:      RaftRsm/Faults/Monitors.lean
  Subject:   The monitors of a chaos run that look at logs (`faults/checkers.cpp`): the sweep for LOG
             MATCHING and the COMMIT MONITOR are exact.

  The sweep looks, for each pair of logs, only below the highest index where the terms are equal. The
  commit monitor compares what it sees with one record, which it extends from the very logs it checks.

  * `highestMatch_spec`, `comparePair_nil` -- below that index all the others are compared as well;
  * `checkLogMatching_exact` -- the sweep finds nothing exactly if Log Matching holds for every pair;
  * `monitor_run` -- the record of the monitor is the record of the committed prefixes it has seen, and
    what it has against each observation;
  * `commitMonitor_exact` -- when the monitor has something to say, and what its silence means.
-/
import RaftRsm.Rpc.Messages
import RaftRsm.Replication.Record
import Mathlib.Data.List.Pairwise
import Std.Data.ExtTreeMap

namespace Rsm.Sim

open Rsm.Rpc Replication

/-! ## 1. Images of logs -/

/-- A log entry reduced to its term and the fingerprint of term and command. -/
structure EntryImage where
  term : ℕ := 0
  fp : ℕ := 0
  deriving DecidableEq, Repr

/-- The image at position `i` describes index `i + 1`. -/
abbrev LogImage := List EntryImage

/-- The loop upwards over the positions below `n`, up to the first where the images differ. -/
def firstDifference (la lb : LogImage) (n : ℕ) : Option ℕ := (List.range n).find? fun i => la[i]? ≠ lb[i]?

theorem firstDifference_eq_none {la lb : LogImage} {n : ℕ} :
    firstDifference la lb n = none ↔ ∀ i < n, la[i]? = lb[i]? := by
  unfold firstDifference
  rw [List.find?_eq_none]
  constructor
  · intro h i hi
    by_contra hne
    exact h i (List.mem_range.mpr hi) (decide_eq_true hne)
  · intro h i hi hne
    exact of_decide_eq_true hne (h i (List.mem_range.mp hi))

/-! ## 2. The sweep for Log Matching -/

/-- The loop downwards from the index `i`: the highest index where both hold the same term, or 0. -/
def highestMatch (la lb : LogImage) : ℕ → ℕ
  | 0 => 0
  | i + 1 =>
      if la[i]?.map EntryImage.term = lb[i]?.map EntryImage.term then i + 1 else highestMatch la lb i

def comparePair (a b : NodeId × LogImage) : List String :=
  let top := min a.2.length b.2.length
  let found := highestMatch a.2 b.2 top
  match firstDifference a.2 b.2 found with
  | none => []
  | some i => ["LOG MATCHING: nodes " ++ toString a.1 ++ " and " ++ toString b.1 ++
      " agree on term at index " ++ toString found ++ " but diverge at index " ++ toString (i + 1)]

/-- Every node with all those behind it. -/
def sweep : List (NodeId × LogImage) → List String
  | [] => []
  | a :: rest => rest.flatMap (comparePair a) ++ sweep rest

def checkLogMatching (logs : Std.ExtTreeMap NodeId LogImage) : List String := sweep logs.toList

/-- **Log Matching** for two logs: where both have an entry of one term, they are equal up to there. -/
def LogsMatch (la lb : LogImage) : Prop :=
  ∀ (i : ℕ) (e f : EntryImage), la[i]? = some e → lb[i]? = some f → e.term = f.term →
    ∀ j ≤ i, la[j]? = lb[j]?

theorem LogsMatch.symm {la lb : LogImage} (h : LogsMatch la lb) : LogsMatch lb la :=
  fun i e f he hf ht j hj => (h i f e hf he ht.symm j hj).symm

theorem logsMatch_refl (l : LogImage) : LogsMatch l l := fun _ _ _ _ _ _ _ _ => rfl

/-- Where the loop stops: the terms are equal there, and nowhere above. -/
theorem highestMatch_spec {la lb : LogImage} : ∀ {n : ℕ}, n ≤ la.length → n ≤ lb.length →
    (∀ m, highestMatch la lb n = m + 1 →
      ∃ e f : EntryImage, la[m]? = some e ∧ lb[m]? = some f ∧ e.term = f.term) ∧
    ∀ (i : ℕ) (e f : EntryImage), i < n → la[i]? = some e → lb[i]? = some f → e.term = f.term →
      i < highestMatch la lb n
  | 0, _, _ => ⟨fun m h => (Nat.succ_ne_zero m h.symm).elim, fun i _ _ hi => (Nat.not_lt_zero i hi).elim⟩
  | n + 1, ha, hb => by
      have hna : la[n]? = some la[n] := List.getElem?_eq_getElem ha
      have hnb : lb[n]? = some lb[n] := List.getElem?_eq_getElem hb
      unfold highestMatch
      split_ifs with hterm
      · refine ⟨fun m hm => ?_, fun i _ _ hi _ _ _ => hi⟩
        obtain rfl := Nat.succ.inj hm
        rw [hna, hnb] at hterm
        exact ⟨_, _, hna, hnb, Option.some.inj hterm⟩
      · obtain ⟨hstop, habove⟩ := highestMatch_spec (Nat.le_of_succ_le ha) (Nat.le_of_succ_le hb)
        refine ⟨hstop, fun i e f hi he hf ht => ?_⟩
        rcases Nat.lt_succ_iff_lt_or_eq.mp hi with hlt | rfl
        · exact habove i e f hlt he hf ht
        · rw [he, hf] at hterm
          exact absurd (congrArg some ht) hterm

theorem comparePair_nil (a b : NodeId × LogImage) : comparePair a b = [] ↔ LogsMatch a.2 b.2 := by
  obtain ⟨hstop, habove⟩ := highestMatch_spec (Nat.min_le_left a.2.length b.2.length)
    (Nat.min_le_right a.2.length b.2.length)
  have hnone : comparePair a b = [] ↔
      firstDifference a.2 b.2 (highestMatch a.2 b.2 (min a.2.length b.2.length)) = none := by
    unfold comparePair
    dsimp only
    split <;> rename_i heq <;> simp only [heq, reduceCtorEq]
  rw [hnone, firstDifference_eq_none]
  constructor
  · intro h i e f he hf ht j hj
    have hia := (List.getElem?_eq_some_iff.mp he).1
    have hib := (List.getElem?_eq_some_iff.mp hf).1
    exact h j (Nat.lt_of_le_of_lt hj (habove i e f (Nat.lt_min.mpr ⟨hia, hib⟩) he hf ht))
  · intro h j hj
    cases hm : highestMatch a.2 b.2 (min a.2.length b.2.length) with
    | zero =>
        rw [hm] at hj
        exact (Nat.not_lt_zero j hj).elim
    | succ m =>
        obtain ⟨e, f, he, hf, ht⟩ := hstop m hm
        rw [hm] at hj
        exact h m e f he hf ht j (Nat.le_of_lt_succ hj)

theorem sweep_nil : ∀ l : List (NodeId × LogImage),
    sweep l = [] ↔ l.Pairwise fun a b => LogsMatch a.2 b.2
  | [] => ⟨fun _ => List.Pairwise.nil, fun _ => rfl⟩
  | a :: rest => by
      unfold sweep
      rw [List.append_eq_nil_iff, List.flatMap_eq_nil_iff, List.pairwise_cons, sweep_nil rest]
      exact and_congr_left' (forall₂_congr fun b _ => comparePair_nil a b)

/-- **The sweep is exact**: it finds nothing exactly if for any two nodes and any index where both logs
    have an entry of the same term, the logs are equal at every index up to there. -/
theorem checkLogMatching_exact (logs : Std.ExtTreeMap NodeId LogImage) :
    checkLogMatching logs = [] ↔
      ∀ (a b : NodeId) (la lb : LogImage), logs[a]? = some la → logs[b]? = some lb →
        ∀ (i : ℕ) (e f : EntryImage), la[i]? = some e → lb[i]? = some f → e.term = f.term →
          ∀ j ≤ i, la[j]? = lb[j]? := by
  unfold checkLogMatching
  rw [sweep_nil]
  constructor
  · intro h a b la lb ha hb
    have : Std.Symm fun x y : NodeId × LogImage => LogsMatch x.2 y.2 := ⟨fun _ _ hxy => hxy.symm⟩
    have hall := h.forall_of_forall fun x _ => logsMatch_refl x.2
    exact hall (Std.ExtTreeMap.mem_toList_iff_getElem?_eq_some.mpr ha)
      (Std.ExtTreeMap.mem_toList_iff_getElem?_eq_some.mpr hb)
  · intro h
    refine List.pairwise_of_forall_mem_list fun x hx y hy => ?_
    exact h x.1 y.1 x.2 y.2 (Std.ExtTreeMap.mem_toList_iff_getElem?_eq_some.mp hx)
      (Std.ExtTreeMap.mem_toList_iff_getElem?_eq_some.mp hy)

/-! ## 3. The commit monitor -/

structure CommitChecker where
  /-- The image at position `i` is the committed entry of index `i + 1`. -/
  committed : List EntryImage := []
  violations : List String := []
  deriving DecidableEq, Repr

/-- The `while`: `k` more entries, each from the place in the log where the record ends. -/
def vouch (log : LogImage) : ℕ → List EntryImage → List EntryImage
  | 0, committed => committed
  | k + 1, committed => vouch log k (committed ++ log[committed.length]?.toList)

def termAtPosition (l : LogImage) (i : ℕ) : ℕ := (l[i]?.getD {}).term

namespace CommitChecker

def observeCommit (m : CommitChecker) (node : NodeId) (commitIndex : ℕ) (log : LogImage) : CommitChecker :=
  if commitIndex > log.length then
    { m with violations := m.violations ++ ["COMMIT: node " ++ toString node ++ " reports commitIndex " ++
        toString commitIndex ++ " beyond its log (" ++ toString log.length ++ ")"] }
  else
    let committed := vouch log (commitIndex - m.committed.length) m.committed
    match firstDifference log committed commitIndex with
    | none => { m with committed := committed }
    | some i => ⟨committed, m.violations ++ ["NO LOST COMMIT: node " ++ toString node ++
        " holds a different entry at committed index " ++ toString (i + 1) ++ " (committed term " ++
        toString (termAtPosition committed i) ++ ", node has " ++ toString (termAtPosition log i) ++ ")"]⟩

def observeElectionWin (m : CommitChecker) (node : NodeId) (term : ℕ) (log : LogImage) : CommitChecker :=
  if log.length < m.committed.length then
    { m with violations := m.violations ++ ["LEADER COMPLETENESS: node " ++ toString node ++ " won term " ++
        toString term ++ " with only " ++ toString log.length ++ " entries but " ++
        toString m.committed.length ++ " are committed"] }
  else
    match firstDifference log m.committed m.committed.length with
    | none => m
    | some i => { m with violations := m.violations ++ ["LEADER COMPLETENESS: node " ++ toString node ++
        " won term " ++ toString term ++ " missing the committed entry at index " ++ toString (i + 1)] }

end CommitChecker

/-- The calls of a run. -/
inductive Observation where
  | commit (node : NodeId) (commitIndex : ℕ) (log : LogImage)
  | electionWin (node : NodeId) (term : ℕ) (log : LogImage)
  deriving DecidableEq, Repr

def CommitChecker.observe (m : CommitChecker) : Observation → CommitChecker
  | .commit node commitIndex log => m.observeCommit node commitIndex log
  | .electionWin node term log => m.observeElectionWin node term log

def monitor (obs : List Observation) : CommitChecker := obs.foldl CommitChecker.observe {}

/-- The committed prefix that an observation vouches for, if the log reaches that far. -/
def Observation.prefixOf : Observation → Option LogImage
  | .commit _ commitIndex log => if commitIndex ≤ log.length then some (log.take commitIndex) else none
  | .electionWin _ _ _ => none

/-- **The committed record** of some observations. -/
def committedRecord (obs : List Observation) : List EntryImage := record (obs.filterMap Observation.prefixOf)

/-- What can be wrong with an observation, where `r` is committed. -/
def Observation.Wrong (r : List EntryImage) : Observation → Prop
  | .commit _ commitIndex log => log.length < commitIndex ∨ ¬ Agree (log.take commitIndex) r
  | .electionWin _ _ log => ¬ r <+: log

variable {log r : LogImage} {c : ℕ} {obs : List Observation}

theorem vouch_eq (hc : c ≤ log.length) : ∀ {k : ℕ} {r : List EntryImage}, k = c - r.length →
    vouch log k r = extend r (log.take c)
  | 0, r, hk => by
      have hnone : (log.take c).drop r.length = [] := by
        refine List.drop_eq_nil_of_le ?_
        rw [List.length_take]
        omega
      rw [extend, hnone, List.append_nil]
      rfl
  | k + 1, r, hk => by
      have hlt : r.length < c := by omega
      have hin : r.length < (log.take c).length := by
        rw [List.length_take]
        omega
      have hnext : log[r.length]?.toList = [(log.take c)[r.length]] := by
        rw [List.getElem?_eq_getElem (Nat.lt_of_lt_of_le hlt hc), List.getElem_take]
        rfl
      unfold vouch
      rw [hnext, vouch_eq hc (by rw [List.length_append, List.length_singleton]; omega)]
      unfold extend
      rw [List.drop_eq_getElem_cons hin, List.append_assoc, List.length_append]
      rfl

/-- Below the commit index the log and the extended record are the same if they agree. -/
theorem firstDifference_extend (hc : c ≤ log.length) :
    firstDifference log (extend r (log.take c)) c = none ↔ Agree (log.take c) r := by
  rw [firstDifference_eq_none, ← prefix_extend_iff, prefix_iff_agree, length_extend]
  have hlen : (log.take c).length = c := by
    rw [List.length_take]
    omega
  constructor
  · intro h
    refine ⟨Nat.le_max_right _ _, fun i hi _ => ?_⟩
    rw [hlen] at hi
    rw [List.getElem?_take_of_lt hi]
    exact h i hi
  · rintro ⟨hle, h⟩ i hi
    have hi' : i < (log.take c).length := hlen.symm ▸ hi
    have heq := h i hi' (by rw [length_extend]; exact Nat.lt_of_lt_of_le hi' hle)
    rw [List.getElem?_take_of_lt hi] at heq
    exact heq

theorem firstDifference_committed (h : r.length ≤ log.length) :
    firstDifference log r r.length = none ↔ r <+: log := by
  rw [firstDifference_eq_none, prefix_iff_agree]
  constructor
  · exact fun hall => ⟨h, fun i hi _ => (hall i hi).symm⟩
  · exact fun hall i hi => (hall.2 i hi (Nat.lt_of_lt_of_le hi h)).symm

/-- **One observation**: the record grows by its committed prefix, and something is noted exactly if
    something is wrong. -/
theorem observe_spec (m : CommitChecker) (o : Observation) :
    (m.observe o).committed = (o.prefixOf.toList).foldl extend m.committed ∧
    ∃ new, (m.observe o).violations = m.violations ++ new ∧ (new ≠ [] ↔ o.Wrong m.committed) := by
  cases o with
  | commit node c log =>
      unfold CommitChecker.observe CommitChecker.observeCommit Observation.prefixOf Observation.Wrong
      dsimp only
      by_cases hc : c ≤ log.length
      · rw [if_neg (Nat.not_lt_of_le hc), if_pos hc, vouch_eq hc rfl]
        have hdiff := firstDifference_extend (r := m.committed) hc
        cases hd : firstDifference log (extend m.committed (log.take c)) c with
        | none =>
            refine ⟨rfl, [], (List.append_nil _).symm, fun h => absurd rfl h, ?_⟩
            rintro (hlt | hne)
            · exact absurd hc (Nat.not_le_of_lt hlt)
            · exact absurd (hdiff.mp hd) hne
        | some i =>
            refine ⟨rfl, _, rfl, fun _ => .inr fun hagree => ?_, fun _ => List.cons_ne_nil _ _⟩
            rw [hdiff.mpr hagree] at hd
            cases hd
      · have hlt := Nat.lt_of_not_le hc
        rw [if_pos hlt, if_neg hc]
        exact ⟨rfl, _, rfl, fun _ => .inl hlt, fun _ => List.cons_ne_nil _ _⟩
  | electionWin node term log =>
      unfold CommitChecker.observe CommitChecker.observeElectionWin Observation.prefixOf Observation.Wrong
      dsimp only
      by_cases hlen : m.committed.length ≤ log.length
      · rw [if_neg (Nat.not_lt_of_le hlen)]
        have hdiff := firstDifference_committed hlen
        cases hd : firstDifference log m.committed m.committed.length with
        | none =>
            exact ⟨rfl, [], (List.append_nil _).symm, fun h => absurd rfl h, fun hne => absurd (hdiff.mp hd) hne⟩
        | some i =>
            refine ⟨rfl, _, rfl, fun _ hpre => ?_, fun _ => List.cons_ne_nil _ _⟩
            rw [hdiff.mpr hpre] at hd
            cases hd
      · rw [if_pos (Nat.lt_of_not_le hlen)]
        exact ⟨rfl, _, rfl, fun _ hpre => hlen hpre.length_le, fun _ => List.cons_ne_nil _ _⟩

theorem committedRecord_snoc (obs : List Observation) (o : Observation) :
    committedRecord (obs ++ [o]) = (o.prefixOf.toList).foldl extend (committedRecord obs) := by
  unfold committedRecord record
  rw [List.filterMap_append, List.foldl_append]
  congr 1

/-- An observation of the run that is wrong against what those before it have committed. -/
def WrongIn (obs : List Observation) : Prop :=
  ∃ before o after, obs = before ++ o :: after ∧ o.Wrong (committedRecord before)

theorem wrongIn_snoc (obs : List Observation) (o : Observation) :
    WrongIn (obs ++ [o]) ↔ WrongIn obs ∨ o.Wrong (committedRecord obs) := by
  constructor
  · rintro ⟨before, o', after, heq, hw⟩
    rcases List.eq_nil_or_concat' after with rfl | ⟨after', x, rfl⟩
    · obtain ⟨rfl, hlast⟩ := List.append_inj' heq rfl
      obtain rfl := List.singleton_inj.mp hlast
      exact .inr hw
    · rw [← List.cons_append, ← List.append_assoc] at heq
      obtain ⟨rfl, -⟩ := List.append_inj' heq rfl
      exact .inl ⟨before, o', after', rfl, hw⟩
  · rintro (⟨before, o', after, rfl, hw⟩ | hw)
    · exact ⟨before, o', after ++ [o], List.append_assoc _ _ _, hw⟩
    · exact ⟨obs, o, [], rfl, hw⟩

/-- **Any run of the monitor**: its record is the committed record, and it has something to say exactly
    if an observation is wrong against those before it. -/
theorem monitor_run (obs : List Observation) :
    (monitor obs).committed = committedRecord obs ∧ ((monitor obs).violations ≠ [] ↔ WrongIn obs) := by
  induction obs using List.reverseRecOn with
  | nil =>
      refine ⟨rfl, fun h => absurd rfl h, ?_⟩
      rintro ⟨before, o, after, heq, -⟩
      exact absurd heq.symm (List.append_ne_nil_of_right_ne_nil _ (List.cons_ne_nil _ _))
  | append_singleton obs o ih =>
      obtain ⟨hrec, hviol⟩ := ih
      have hstep : monitor (obs ++ [o]) = (monitor obs).observe o := List.foldl_concat _ _ _ _
      obtain ⟨hgrow, new, hnew, hwrong⟩ := observe_spec (monitor obs) o
      rw [hrec] at hgrow hwrong
      rw [hstep, hgrow, hnew, committedRecord_snoc, wrongIn_snoc, ← hviol, ← hwrong]
      refine ⟨rfl, ?_⟩
      rw [Ne, List.append_eq_nil_iff, not_and_or]

theorem mem_prefixes {p : LogImage} : p ∈ obs.filterMap Observation.prefixOf ↔
    ∃ node c log, Observation.commit node c log ∈ obs ∧ c ≤ log.length ∧ log.take c = p := by
  rw [List.mem_filterMap]
  constructor
  · rintro ⟨o, ho, hp⟩
    cases o with
    | commit node c log =>
        unfold Observation.prefixOf at hp
        dsimp only at hp
        split_ifs at hp with hc
        exact ⟨node, c, log, ho, hc, Option.some.inj hp⟩
    | electionWin node term log => cases hp
  · rintro ⟨node, c, log, ho, hc, rfl⟩
    exact ⟨_, ho, if_pos hc⟩

theorem committedRecord_append (before after : List Observation) :
    committedRecord before <+: committedRecord (before ++ after) := by
  unfold committedRecord
  rw [List.filterMap_append]
  exact record_prefix_append _ _

/-- Committed prefixes that each agree with what was committed before them are prefixes of one record. -/
theorem prefix_committedRecord (h : ¬ WrongIn obs) {node : NodeId} (ho : Observation.commit node c log ∈ obs) :
    c ≤ log.length ∧ log.take c <+: committedRecord obs := by
  obtain ⟨before, after, rfl⟩ := List.append_of_mem ho
  have hright : ¬ (Observation.commit node c log).Wrong (committedRecord before) :=
    fun hw => h ⟨before, _, after, rfl, hw⟩
  have hboth : ¬ (log.length < c ∨ ¬ Agree (log.take c) (committedRecord before)) := hright
  rw [not_or, not_not, Nat.not_lt] at hboth
  obtain ⟨hc, hagree⟩ := hboth
  refine ⟨hc, (prefix_extend_iff.mpr hagree).trans ?_⟩
  have hsnoc : committedRecord (before ++ [.commit node c log]) = extend (committedRecord before) (log.take c) := by
    rw [committedRecord_snoc, Observation.prefixOf, if_pos hc]
    rfl
  have hgrow := committedRecord_append (before ++ [.commit node c log]) after
  rw [hsnoc, List.append_assoc] at hgrow
  exact hgrow

/-- If any two committed prefixes agree, none of them is wrong against those before it. -/
theorem agree_committedRecord {before after : List Observation} {node : NodeId}
    (h : ∀ p ∈ obs.filterMap Observation.prefixOf, ∀ q ∈ obs.filterMap Observation.prefixOf, Agree p q)
    (heq : obs = before ++ .commit node c log :: after) (hc : c ≤ log.length) :
    Agree (log.take c) (committedRecord before) := by
  have hmem : Observation.commit node c log ∈ obs := by
    rw [heq]
    exact List.mem_append_right _ List.mem_cons_self
  refine agree_record fun q hq => h _ (mem_prefixes.mpr ⟨node, c, log, hmem, hc, rfl⟩) q ?_
  rw [heq, List.filterMap_append]
  exact List.mem_append_left _ hq

/-- **The commit monitor is exact.** It has something to say exactly if a commit index lies beyond its
    log, or two committed prefixes differ at an index that both have committed, or the log of a winner
    does not begin with the committed record of the observations before, whose length is the greatest
    of their commit indices. Where it says nothing, all committed prefixes are prefixes of one sequence,
    and every winner's log begins with those that were seen before it. -/
theorem commitMonitor_exact (obs : List Observation) :
    ((monitor obs).violations ≠ [] ↔
      (∃ node c log, Observation.commit node c log ∈ obs ∧ log.length < c) ∨
      (∃ node c log node' c' log', Observation.commit node c log ∈ obs ∧ Observation.commit node' c' log' ∈ obs ∧
        c ≤ log.length ∧ c' ≤ log'.length ∧ ∃ i, i < c ∧ i < c' ∧ log[i]? ≠ log'[i]?) ∨
      ∃ before node term log after, obs = before ++ Observation.electionWin node term log :: after ∧
        ¬ committedRecord before <+: log) ∧
    (∀ n, (committedRecord obs).length ≤ n ↔
      ∀ node c log, Observation.commit node c log ∈ obs → c ≤ log.length → c ≤ n) ∧
    ((monitor obs).violations = [] → ∃ seq,
      (∀ node c log, Observation.commit node c log ∈ obs → c ≤ log.length ∧ log.take c <+: seq) ∧
      ∀ before node term log after, obs = before ++ Observation.electionWin node term log :: after →
        ∀ node' c log', Observation.commit node' c log' ∈ before → log'.take c <+: log) := by
  have hrun := (monitor_run obs).2
  refine ⟨hrun.trans ⟨?_, ?_⟩, fun n => ?_, fun hsilent => ?_⟩
  · rintro ⟨before, o, after, heq, hw⟩
    cases o with
    | electionWin node term log => exact .inr (.inr ⟨before, node, term, log, after, heq, hw⟩)
    | commit node c log =>
        have hmem : Observation.commit node c log ∈ obs := by
          rw [heq]
          exact List.mem_append_right _ List.mem_cons_self
        rcases Nat.lt_or_ge log.length c with hlt | hc
        · exact .inl ⟨node, c, log, hmem, hlt⟩
        · refine .inr (.inl ?_)
          have hne : ¬ Agree (log.take c) (committedRecord before) := hw.resolve_left (Nat.not_lt_of_le hc)
          -- were any two committed prefixes to agree, this one would agree with the record
          by_contra hall
          refine hne (agree_committedRecord (fun p hp q hq i hip hiq => ?_) heq hc)
          obtain ⟨n₁, c₁, l₁, h₁, hc₁, rfl⟩ := mem_prefixes.mp hp
          obtain ⟨n₂, c₂, l₂, h₂, hc₂, rfl⟩ := mem_prefixes.mp hq
          rw [List.length_take] at hip hiq
          have hi₁ : i < c₁ := by omega
          have hi₂ : i < c₂ := by omega
          rw [List.getElem?_take_of_lt hi₁, List.getElem?_take_of_lt hi₂]
          by_contra hdiff
          exact hall ⟨n₁, c₁, l₁, n₂, c₂, l₂, h₁, h₂, hc₁, hc₂, i, hi₁, hi₂, hdiff⟩
  · intro hbad
    by_contra hok
    rcases hbad with ⟨node, c, log, hmem, hlt⟩ | ⟨node, c, log, node', c', log', h, h', -, -, i, hi, hi', hdiff⟩ |
      ⟨before, node, term, log, after, heq, hne⟩
    · exact Nat.not_le_of_lt hlt (prefix_committedRecord hok hmem).1
    · obtain ⟨hc, hpre⟩ := prefix_committedRecord hok h
      obtain ⟨hc', hpre'⟩ := prefix_committedRecord hok h'
      have hsame := agree_of_prefixes hpre hpre' i (by rw [List.length_take]; omega) (by rw [List.length_take]; omega)
      rw [List.getElem?_take_of_lt hi, List.getElem?_take_of_lt hi'] at hsame
      exact hdiff hsame
    · exact hok ⟨before, _, after, heq, hne⟩
  · rw [committedRecord, length_record_le]
    constructor
    · intro h node c log hmem hc
      have hlen := h _ (mem_prefixes.mpr ⟨node, c, log, hmem, hc, rfl⟩)
      rw [List.length_take] at hlen
      omega
    · intro h p hp
      obtain ⟨node, c, log, hmem, hc, rfl⟩ := mem_prefixes.mp hp
      have := h node c log hmem hc
      rw [List.length_take]
      omega
  · have hok : ¬ WrongIn obs := fun hw => hrun.mpr hw hsilent
    refine ⟨committedRecord obs, fun node c log hmem => prefix_committedRecord hok hmem, ?_⟩
    intro before node term log after heq node' c log' hmem
    have hbefore : ¬ WrongIn before := by
      rintro ⟨b, o, a, rfl, hw⟩
      refine hok ⟨b, o, a ++ .electionWin node term log :: after, ?_, hw⟩
      rw [heq, List.append_assoc, List.cons_append]
    have hwin : committedRecord before <+: log := by
      by_contra hne
      exact hok ⟨before, _, after, heq, hne⟩
    exact (prefix_committedRecord hbefore hmem).2.trans hwin

end Rsm.Sim
