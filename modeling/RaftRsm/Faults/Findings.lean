/-
  File:      RaftRsm/Faults/Findings.lean
  Subject:   What a chaos run can find: what its monitors can say, and where its replicas end.

  Both results are for storage that survives (`Keeps`), as that of a chaos run does by default.

  * `monitors_silent` -- the monitors find nothing, except that the commit monitor may blame a win of a
    term that others had left behind; `monitors_silent_late` -- which it does in a run where nothing is
    wrong;
  * `replicas_agree` -- every replica is where a prefix of one log takes it, and at quiescence all are
    where the committed log takes them.
-/
import RaftRsm.Faults.Delivery
import RaftRsm.Faults.HarnessRuns

namespace Rsm.Sim

open Rsm.Rpc Rsm.Raft Rsm.Client Rsm.Storage Process Replication

variable {M : Type} {A : Machine M} {O : SimOptions} {a b : Abs} {C : Cluster} {P : (NodeId → RaftCore) → Prop}

section

variable {h : Harness M}

/-! ## 1. What the monitors find -/

theorem Told.electionSafety_silent (ht : Told C A P a a h) : h.electionSafety.violations = [] := by
  obtain ⟨wins, hw, hwins⟩ := ht.wins
  rw [hw, electionMonitor_exact]
  intro T n m hn hm
  exact Option.some.inj ((hwins T n hn).symm.trans (hwins T m hm))

theorem Told.appendOnly_silent (ht : Told C A P a a h) : h.appendOnly.violations = [] := by
  obtain ⟨looks, hl, -, hkept⟩ := ht.looks
  rw [hl, appendOnly_neighbours]
  intro before c between d after heq _ _ hc hd hterm
  rw [heq] at hkept
  have hcons := (List.pairwise_cons.mp (List.pairwise_append.mp hkept).2.1).1
  exact hcons d (List.mem_append_right _ List.mem_cons_self) hc hd hterm

theorem Told.applied_silent (hI : Replication.Inv C.setting a) (ht : Told C A P a a h) : h.applied.violations = [] := by
  obtain ⟨applies, ha, happ⟩ := ht.applies
  rw [ha, appliedMonitor_exact]
  intro c hc d hd hindex
  obtain ⟨P, e, hP, hi, he, hfp⟩ := happ c hc
  obtain ⟨Q, f, hQ, hj, hf, hfq⟩ := happ d hd
  have hlen : P.length = Q.length := by omega
  have hPQ : P ++ [e] = Q ++ [f] := hP.unique hI hQ (by rw [List.length_append, List.length_append, hlen]; rfl)
  obtain ⟨rfl, hef⟩ := List.append_inj hPQ hlen
  obtain rfl := List.singleton_inj.mp hef
  exact ⟨he.trans hf.symm, hfp.trans hfq.symm⟩

/-- Commit indices are within their logs, and what they cover agrees. -/
theorem agree_commits (hI : Replication.Inv C.setting a) {obs : List Observation}
    (hobs : ∀ o ∈ obs, ObservationOk C P a a o) : ∀ p ∈ obs.filterMap Observation.prefixOf,
    ∀ q ∈ obs.filterMap Observation.prefixOf, Agree p q := by
  intro p hp q hq i hip hiq
  obtain ⟨n₁, c₁, l₁, h₁, hc₁, rfl⟩ := mem_prefixes.mp hp
  obtain ⟨n₂, c₂, l₂, h₂, hc₂, rfl⟩ := mem_prefixes.mp hq
  obtain ⟨x₁, hs₁⟩ := hobs _ h₁
  obtain ⟨x₂, hs₂⟩ := hobs _ h₂
  have hcov₁ := hs₁.covered
  have hcov₂ := hs₂.covered
  rw [hs₁.log] at hip ⊢
  rw [hs₂.log] at hiq ⊢
  rw [List.length_take] at hip hiq
  unfold logImage at hip hiq ⊢
  rw [List.length_map] at hip hiq
  have hi₁ : i < (x₁ n₁).log.length := by omega
  have hi₂ : i < (x₂ n₂).log.length := by omega
  rw [List.getElem?_take_of_lt (by omega), List.getElem?_take_of_lt (by omega), List.getElem?_map, List.getElem?_map,
    List.getElem?_eq_getElem hi₁, List.getElem?_eq_getElem hi₂]
  have heq := chosen_unique hI (hcov₁.chosen (by omega) (List.getElem?_eq_getElem hi₁))
    (hcov₂.chosen (by omega) (List.getElem?_eq_getElem hi₂))
  rw [heq]

/-- **The commit monitor complains of nothing but late wins.** -/
theorem Told.commit_complaint (hI : Replication.Inv C.setting a) (ht : Told C A P a a h)
    (hviol : h.commit.violations ≠ []) : ∃ node T, a.leader T = some node ∧ Late P node T (logImage (a.elog T)) := by
  obtain ⟨obs, ho, hobs, hwon⟩ := ht.commits
  rw [ho, (monitor_run obs).2] at hviol
  obtain ⟨before, o, after, heq, hwrong⟩ := hviol
  have hmem : o ∈ obs := heq ▸ List.mem_append_right _ List.mem_cons_self
  cases o with
  | commit node c log =>
      obtain ⟨x, hs⟩ := hobs _ hmem
      have hc : c ≤ log.length := by
        rw [hs.log]
        unfold logImage
        rw [List.length_map]
        exact hs.covered.1
      rcases hwrong with hlt | hne
      · exact absurd hc (Nat.not_le_of_lt hlt)
      · exact absurd (agree_committedRecord (agree_commits hI hobs) heq hc) hne
  | electionWin node term log =>
      obtain ⟨hled, rfl⟩ := hobs _ hmem
      exact ⟨node, term, hled, (hwon before node term _ after heq).resolve_left hwrong⟩

/-- **A win that comes late** in the run `acts`, which ends in `h`: when the run had come to `h₀`, `node` had
    not won the term `T` yet, but `m` was in a later one and had committed entries that `node` does not
    have in the log `L` with which it has won `T` since then. -/
def Harness.LateWin (A : Machine M) (O : SimOptions) (acts : List Driver) (h : Harness M) : Prop :=
  ∃ pre h₀ node T L m, pre <+: acts ∧ (Harness.start A O).drive A O pre = some h₀ ∧
    T < (h₀.cores m).currentTerm ∧ (∀ ev L', Output.transition T .leader ev L' ∉ (h₀.cores node).out) ∧
    Output.transition T .leader .wonElection L ∈ (h.cores node).out ∧
    ¬ (h₀.cores m).log.take (h₀.cores m).commitIndex <+: L

/-- **The monitors of a chaos run find nothing, but for one kind of win.** Over storage that survives,
    whatever the driver does and whatever is drawn, the election, append-only and applied monitors and the
    log-matching sweeps stay silent. The commit monitor can complain only if a node has won a term that
    another had gone beyond before. -/
theorem monitors_silent (hk : O.Keeps) {acts : List Driver} (hrun : (Harness.start A O).drive A O acts = some h) :
    h.electionSafety.violations = [] ∧ h.appendOnly.violations = [] ∧ h.applied.violations = [] ∧
    h.sweepViolations = [] ∧ (h.commit.violations ≠ [] → h.LateWin A O acts) := by
  obtain ⟨a, hE, ht⟩ := (inv_drive hk hrun).told
  have hI := (hE.mid 0).inv
  refine ⟨ht.electionSafety_silent, ht.appendOnly_silent, ht.applied_silent hI, ht.sweep, fun hviol => ?_⟩
  obtain ⟨node, T, hled, x, m, ⟨pre, h₀, hpre, hdrive, rfl⟩, hlater, hfresh, hne⟩ := ht.commit_complaint hI hviol
  obtain ⟨L, hL⟩ := (hE.mid node).won hled
  have helog : a.elog T = L := ((hE.mid node).out _ hL rfl).2
  refine ⟨pre, h₀, node, T, L, m, hpre, hdrive, hlater, fun ev L' hmem => ?_, hL, fun hbegins => hne ?_⟩
  · exact hfresh (List.mem_filterMap.mpr ⟨_, hmem, rfl⟩)
  · rw [helog]
    unfold logImage
    rw [← List.map_take]
    exact logImage_begins hbegins

end

/-! ### A late win

Node 1 asks for votes in term 1. Both answers take three milliseconds. Meanwhile it is cut off, node 3
wins term 2, and a client's command is committed there. Then the answers arrive, and node 1 wins term 1.
-/

def lateMachine : Machine Unit := ⟨(), fun _ _ => ((), [])⟩

def lateOptions : SimOptions where
  raft := List.replicate 3 { electionTimeoutMin := 1, electionTimeoutMax := 9, heartbeatInterval := 9 }
  storage := durableStorage
  rng id _ k := if id = 1 ∧ k = 0 ∨ id = 3 ∧ k ≠ 0 then 0 else 8
  netRng i := if i = 9 ∨ i = 13 then 3 else if i = 17 then 2 else 0

def lateActs : List Driver :=
  [.control (.setLatency 0 3), .stepMs 9, .control (.partition [[1], [2, 3]]),
    .clientSend 9 3 ⟨0, 0, List.replicate 16 0⟩, .stepMs 9, .stepMs 9, .control .heal, .stepMs 9]

/-- The commit monitor blames a run in which nothing is wrong. -/
theorem monitors_silent_late : ∃ h, (Harness.start lateMachine lateOptions).drive lateMachine lateOptions lateActs =
      some h ∧
    h.violations = ["LEADER COMPLETENESS: node 1 won term 1 with only 0 entries but 1 are committed"] ∧
    h.electionSafety.violations = [] ∧ h.appendOnly.violations = [] ∧ h.applied.violations = [] ∧
    h.sweepViolations = [] ∧ h.LateWin lateMachine lateOptions lateActs := by
  have hsome : ((Harness.start lateMachine lateOptions).drive lateMachine lateOptions lateActs).map
      (fun h => (h.violations, h.commit.violations.length)) =
      some (["LEADER COMPLETENESS: node 1 won term 1 with only 0 entries but 1 are committed"], 1) := by
    decide +kernel
  obtain ⟨h, hrun, hviol⟩ := Option.map_eq_some_iff.mp hsome
  obtain ⟨hall, hlen⟩ := Prod.mk.inj hviol
  obtain ⟨h1, h2, h3, h4, hlate⟩ := monitors_silent (O := lateOptions) (fun _ _ _ => rfl) hrun
  refine ⟨h, hrun, hall, h1, h2, h3, h4, hlate fun hnil => ?_⟩
  rw [hnil] at hlen
  cases hlen

section

variable {h : Harness M}

/-! ## 2. The replicas -/

theorem Inv.handed (hi : Inv A O P h) (n : NodeId) :
    (h.cores n).sm = (h.cores n).log.take (h.cores n).lastApplied := by
  obtain ⟨a, hE, -⟩ := hi.told
  exact (hE.rest (n := n) rfl).sm

/-- A replica is where the entries its core has applied take it. -/
theorem Inv.machine_eq (hi : Inv A O P h) (n : NodeId) :
    (h.nodes n).sm = A.after (((h.cores n).log.take (h.cores n).lastApplied).map LogEntry.command) := by
  rw [hi.machine n, hi.handed n]

/-- Of two replicas the one that is behind has applied the beginning of what the other has. -/
theorem Inv.applied_begins (hi : Inv A O P h) {n m : NodeId} (hle : (h.cores n).lastApplied ≤ (h.cores m).lastApplied) :
    (h.cores n).log.take (h.cores n).lastApplied <+: (h.cores m).log.take (h.cores m).lastApplied := by
  obtain ⟨a, hE, -⟩ := hi.told
  have hchosen : ∀ k, AllChosen O.members a ((h.cores k).log.take (h.cores k).lastApplied) := by
    intro k i e he
    rw [← hi.handed k] at he
    exact hE.sm k he
  refine (hchosen n).le (hE.mid n).inv (hchosen m) ?_
  have hcommit : (h.cores m).commitIndex ≤ (h.cores m).log.length := (hE.mid m).commit.1
  have happlied : (h.cores m).lastApplied ≤ (h.cores m).commitIndex := (hE.mid m).applied
  rw [List.length_take, List.length_take]
  omega

/-- What `quiescent` has looked at. -/
theorem quiescent_iff : h.quiescent O = true → ∃ l ∈ O.ids, h.liveLeaders O = [l] ∧ ∀ n ∈ O.ids,
    (h.nodes n).alive = true ∧ (h.cores n).commitIndex = (h.cores l).commitIndex ∧
    (h.cores n).lastApplied = (h.cores n).commitIndex ∧ logImage (h.cores n).log = logImage (h.cores l).log := by
  intro hq
  unfold Harness.quiescent at hq
  rw [Bool.and_eq_true] at hq
  obtain ⟨hconv, hall⟩ := hq
  unfold Harness.converged at hconv
  split at hconv
  · rename_i l hl
    rw [hl] at hall
    have hmem : l ∈ h.liveLeaders O := by
      rw [hl]
      exact List.mem_singleton_self l
    refine ⟨l, (List.mem_filter.mp hmem).1, hl, fun n hn => ?_⟩
    have hn := List.all_eq_true.mp hall n hn
    simp only [Bool.and_eq_true, beq_iff_eq] at hn
    exact ⟨hn.1.1.1.1, hn.1.1.1.2, hn.1.1.2, hn.2⟩
  · cases hconv

/-- The committed entries at quiescence: every replica has applied them, and nothing else. -/
theorem Inv.quiescent_log (hi : Inv A O P h) {n l : NodeId} (hc : (h.cores n).commitIndex = (h.cores l).commitIndex)
    (hn : (h.cores n).lastApplied = (h.cores n).commitIndex) (hl : (h.cores l).lastApplied = (h.cores l).commitIndex) :
    (h.cores n).log.take (h.cores n).lastApplied = (h.cores l).log.take (h.cores l).commitIndex := by
  have hle : (h.cores n).lastApplied ≤ (h.cores l).lastApplied := by omega
  have hge : (h.cores l).lastApplied ≤ (h.cores n).lastApplied := by omega
  rw [← hl]
  exact List.IsPrefix.eq_of_length_le (hi.applied_begins hle) (hi.applied_begins hge).length_le

/-- **The replicas are one fold over one log.** In every run over storage that survives, a replica is in
    the state to which the commands that its core has applied lead, one after the other; of two replicas
    one has applied the beginning of what the other has; and where `quiescent` says so, all of them are in
    the state to which the committed log of the leader leads. -/
theorem replicas_agree (hk : O.Keeps) {acts : List Driver} (hrun : (Harness.start A O).drive A O acts = some h) :
    (∀ n, (h.nodes n).sm = A.after (((h.cores n).log.take (h.cores n).lastApplied).map LogEntry.command)) ∧
    (∀ n m, (h.cores n).log.take (h.cores n).lastApplied <+: (h.cores m).log.take (h.cores m).lastApplied ∨
      (h.cores m).log.take (h.cores m).lastApplied <+: (h.cores n).log.take (h.cores n).lastApplied) ∧
    (h.quiescent O = true → ∃ l, h.liveLeaders O = [l] ∧ ∀ n ∈ O.ids, (h.nodes n).alive = true ∧
      (h.nodes n).sm = A.after (((h.cores l).log.take (h.cores l).commitIndex).map LogEntry.command)) := by
  have hi := inv_drive hk hrun
  refine ⟨hi.machine_eq, fun n m => ?_, fun hq => ?_⟩
  · exact (Nat.le_total _ _).imp hi.applied_begins hi.applied_begins
  · obtain ⟨l, hl, hleader, hall⟩ := quiescent_iff hq
    refine ⟨l, hleader, fun n hn => ?_⟩
    obtain ⟨halive, hc, happ, -⟩ := hall n hn
    refine ⟨halive, ?_⟩
    rw [hi.machine_eq n, hi.quiescent_log hc happ (hall l hl).2.2.1]

end

/-! ### A calm run

Two nodes; node 1 is elected, commits a command and tells node 2, which goes down and comes back.
-/

def calmActs : List Driver :=
  [.control (.setLatency 0 0), .stepMs 9, .clientSend 9 1 ⟨0, 0, List.replicate 16 0⟩, .stepMs 9, .stepMs 9, .stepMs 9,
    .crash 2, .stepMs 9, .restart 2, .stepMs 9, .stepMs 9, .stepMs 9]

theorem replicas_agree_calm : ∃ h,
    (Harness.start countingMachine calmOptions).drive countingMachine calmOptions calmActs = some h ∧
    (h.nodes 2).sm = 1 ∧ ∃ l, h.liveLeaders calmOptions = [l] ∧ ∀ n ∈ calmOptions.ids, (h.nodes n).alive = true ∧
      (h.nodes n).sm = countingMachine.after (((h.cores l).log.take (h.cores l).commitIndex).map LogEntry.command) := by
  have hsome : ((Harness.start countingMachine calmOptions).drive countingMachine calmOptions calmActs).map
      (fun h => (h.quiescent calmOptions, (h.nodes 2).sm)) = some (true, 1) := by decide +kernel
  obtain ⟨h, hrun, hq⟩ := Option.map_eq_some_iff.mp hsome
  obtain ⟨hquiet, hsm⟩ := Prod.mk.inj hq
  exact ⟨h, hrun, hsm, (replicas_agree (O := calmOptions) (fun _ _ _ => rfl) hrun).2.2 hquiet⟩

end Rsm.Sim
