/-
  File:      RaftRsm/Raft/Safety.lean
  Subject:   **THE SAFETY OF THE CLUSTER**, on every run: any number of nodes, any order, loss and
             duplication of messages, crashes after any write.

  * `state_machine_safety` -- nodes never apply different entries at one index;
  * `leader_completeness` -- what is committed is in the log of every later winner;
  * `election_safety` -- one winner per term, terms and votes on disk only move forward;
  * `log_matching` -- logs that share an entry share everything before it;
  * `durable_commit` -- a committed entry is on a majority of disks, a match index is true of its
    peer's disk;
  * `commit_monotone` -- commit and apply indices, and the entries below them, stay;
  * `errors_unreachable` -- no error branch is taken, no log access is out of range.

  The statements speak of the worlds of `Cluster.system` alone. A world is the state at a moment,
  so a node may be inside a call; `Idle` nodes are between two calls.
-/
import RaftRsm.Raft.Refinement

namespace Rsm.Raft.Cluster

open Rsm.Rpc Rsm.Storage Process Replication

variable {C : Cluster} {w w' : World}

/-! ## 1. A cluster of three

Two scripts for the statements below. In the first one, node 1 wins term 1, replicates one command
to node 2, commits and applies it, and a heartbeat lets node 3 apply it. In the second one node 2
then wins term 2 with the vote of node 3. -/

def trio : Cluster where
  ids := {1, 2, 3}
  peers n := [1, 2, 3].filter (· ≠ n)
  rng _ k := k
  nodup n := List.Nodup.filter _ (by decide)
  mem_peers := by
    intro n _ p
    simp

def trioCall (n : NodeId) (now : ℕ) (i : Input) : Ctx × Input :=
  ({ self := n, peers := trio.peers n, now := now }, i)

def trioEntry : LogEntry := { term := 1, command := [7] }

def trioCommits : List (Ctx × Input) :=
  [trioCall 1 0 .start, trioCall 1 1000 .tick,
   trioCall 2 1000 (.handle 1 (.requestVote ⟨1, 1, 0, 0⟩)),
   trioCall 1 1000 (.handle 2 (.requestVoteReply ⟨1, true⟩)),
   trioCall 1 1000 (.propose [7]),
   trioCall 2 1000 (.handle 1 (.appendEntries ⟨1, 1, 0, 0, 0, [trioEntry]⟩)),
   trioCall 1 1000 (.handle 2 (.appendEntriesReply ⟨1, true, 1, 0⟩)),
   trioCall 1 2000 .tick,
   trioCall 3 2000 (.handle 1 (.appendEntries ⟨1, 1, 0, 0, 1, [trioEntry]⟩))]

def trioElects : List (Ctx × Input) :=
  [trioCall 2 3000 .tick,
   trioCall 3 3000 (.handle 2 (.requestVote ⟨2, 2, 1, 1⟩)),
   trioCall 2 3000 (.handle 3 (.requestVoteReply ⟨2, true⟩))]

/-- The cores after the first script. -/
def trioCommitted : NodeId → RaftCore := play trio.system.init trioCommits

/-- The cores after both scripts. -/
def trioElected : NodeId → RaftCore := play trioCommitted trioElects

theorem trioCommitted_reachable : trio.system.Reachable (resting trioCommitted) :=
  reach_play (C := trio) (x := trio.system.init) (by decide +kernel)

theorem trioElected_reach : trio.system.Reach (resting trioCommitted) (resting trioElected) :=
  reach_play (C := trio) (by decide +kernel)

/-! ## 2. State machine safety -/

/-- What a line `apply` says: the entry is chosen at its index. -/
theorem Explains.apply {a : Abs} (h : C.Explains a w) {n : NodeId} {i : ℕ} {e : LogEntry}
    (ho : Output.apply i e ∈ (w.cur n).out) : 1 ≤ i ∧ Chosen C.setting a (i - 1) e :=
  (h.mid n).out _ ho

/-- What has been handed to a state machine is chosen. -/
theorem Explains.sm {a : Abs} (h : C.Explains a w) (n : NodeId) {i : ℕ} {e : LogEntry}
    (he : (w.cur n).sm[i]? = some e) : Chosen C.setting a i e := by
  have hm := h.mid n
  have hlog := getElem_of_pre hm.sm he
  have hi : i < (w.cur n).commitIndex := by
    have hlt := (List.getElem?_eq_some_iff.mp hlog).1
    rw [List.length_take] at hlt
    omega
  rw [List.getElem?_take_of_lt hi] at hlog
  exact hm.commit.chosen hi hlog

/-- **State machine safety.** Whatever two nodes ever hand to their state machines at one index,
    at any two moments of a run, is the same entry; and all state machines of the run have been
    handed prefixes of one sequence. -/
theorem state_machine_safety (h : C.system.Reachable w) (hr : C.system.Reach w w') :
    (∀ n m i e e', Output.apply i e ∈ (w.cur n).out → Output.apply i e' ∈ (w'.cur m).out →
      e = e') ∧
    ∃ S : List LogEntry, ∀ n ∈ C.ids, (w.cur n).sm <+: S ∧ (w'.cur n).sm <+: S := by
  obtain ⟨a, ha⟩ := explained h
  obtain ⟨b, hab, hb⟩ := explained_later ha hr
  have hA := (ha.mid 0).inv.ack
  have hI := (hb.mid 0).inv
  refine ⟨fun n m i e e' hn hm => ?_, ?_⟩
  · exact chosen_unique hI ((ha.apply hn).2.mono hA hab) (hb.apply hm).2
  · have hall : ∀ l ∈ C.ids.toList.map (fun n => (w.cur n).sm) ++
        C.ids.toList.map (fun n => (w'.cur n).sm),
        ∀ i e, l[i]? = some e → Chosen C.setting b i e := by
      intro l hl i e he
      rcases List.mem_append.mp hl with hl | hl
      · obtain ⟨n, -, rfl⟩ := List.mem_map.mp hl
        exact (ha.sm n he).mono hA hab
      · obtain ⟨n, -, rfl⟩ := List.mem_map.mp hl
        exact hb.sm n he
    obtain ⟨S, -, hS⟩ := chosen_common hI _ hall
    refine ⟨S, fun n hn => ?_⟩
    have hn' := Finset.mem_toList.mpr hn
    exact ⟨hS _ (List.mem_append_left _ (List.mem_map_of_mem hn')),
      hS _ (List.mem_append_right _ (List.mem_map_of_mem hn'))⟩

/-- Nodes 1 and 3 have both applied index 1. -/
theorem state_machine_safety_trio :
    Output.apply 1 trioEntry ∈ (trioCommitted 1).out ∧
    Output.apply 1 trioEntry ∈ (trioElected 3).out ∧
    ∀ e, Output.apply 1 e ∈ (trioElected 3).out → trioEntry = e := by
  have h1 : Output.apply 1 trioEntry ∈ (trioCommitted 1).out := by decide +kernel
  refine ⟨h1, by decide +kernel, fun e he => ?_⟩
  exact (state_machine_safety trioCommitted_reachable trioElected_reach).1 1 3 1 _ _ h1 he

/-! ## 3. Leader completeness -/

/-- **Leader completeness.** If a commit index covers `e` at index `i + 1` at some moment, then the
    commit goes back to a term `U` up to the node's own, and whoever wins a term after `U`, before
    or after that moment, has `e` there when it becomes leader. -/
theorem leader_completeness (h : C.system.Reachable w) (hr : C.system.Reach w w') {n : NodeId}
    {i : ℕ} {e : LogEntry} (hi : i < (w.cur n).commitIndex) (he : (w.cur n).log[i]? = some e) :
    ∃ U ≤ (w.cur n).currentTerm, ∀ m T L,
      Output.transition T .leader .wonElection L ∈ (w'.cur m).out → U < T → L[i]? = some e := by
  obtain ⟨a, ha⟩ := explained h
  obtain ⟨b, hab, hb⟩ := explained_later ha hr
  have hm := ha.mid n
  obtain ⟨-, h0 | ⟨U, k, hU, hk, hcom, hp⟩⟩ := hm.commit
  · omega
  · refine ⟨U, hU, fun m T L hL hUT => ?_⟩
    obtain ⟨hled, hlog⟩ := (hb.mid m).out _ hL rfl
    obtain ⟨⟨l, hl⟩, hlen⟩ := hcom.led hm.inv.ack
    have hcom' := hcom.mono hm.inv.ack hab
    have hpre := leader_complete (hb.mid m).inv hcom' T m hUT hled
    rw [hlog, hab.take_llog hl hlen] at hpre
    have hei : (a.llog U)[i]? = some e := by
      refine getElem_of_pre hp ?_
      rw [List.getElem?_take_of_lt hi]
      exact he
    refine getElem_of_pre hpre ?_
    rw [List.getElem?_take_of_lt (by omega)]
    exact hei

/-- The entry committed in term 1 is in the log with which node 2 wins term 2. -/
theorem leader_completeness_trio :
    Output.transition 2 .leader .wonElection [trioEntry] ∈ (trioElected 2).out ∧
    ∃ U ≤ (trioCommitted 1).currentTerm, ∀ m T L,
      Output.transition T .leader .wonElection L ∈ (trioElected m).out → U < T →
        L[0]? = some trioEntry := by
  refine ⟨by decide +kernel, ?_⟩
  have hi : 0 < (trioCommitted 1).commitIndex := by decide +kernel
  have he : (trioCommitted 1).log[0]? = some trioEntry := by decide +kernel
  exact leader_completeness (n := 1) trioCommitted_reachable trioElected_reach hi he

/-! ## 4. Election safety -/

/-- **Election safety, across crashes.** A term is won by one node at most; the term on a disk never
    goes back, and the vote of a term, once there, stays; a node that names a leader names the
    winner of its term. -/
theorem election_safety (h : C.system.Reachable w) (hr : C.system.Reach w w') :
    (∀ n m T L L', Output.transition T .leader .wonElection L ∈ (w.cur n).out →
      Output.transition T .leader .wonElection L' ∈ (w'.cur m).out → n = m) ∧
    (∀ n, (w.cur n).currentTerm ≤ (w'.cur n).currentTerm ∧
      ((w'.cur n).currentTerm = (w.cur n).currentTerm →
        ∀ c, (w.cur n).votedFor = some c → (w'.cur n).votedFor = some c)) ∧
    ∀ n l, w.Idle n → (w.cur n).leaderId = some l →
      ∃ L, Output.transition (w.cur n).currentTerm .leader .wonElection L ∈ (w.cur l).out := by
  obtain ⟨a, ha⟩ := explained h
  obtain ⟨b, hab, hb⟩ := explained_later ha hr
  refine ⟨fun n m T L L' hn hm => ?_, fun n => ⟨?_, fun hT c hc => ?_⟩, fun n l hidle hl => ?_⟩
  · have h1 := hab.leader ((ha.mid n).out _ hn rfl).1
    have h2 := ((hb.mid m).out _ hm rfl).1
    rw [h1] at h2
    exact Option.some.inj h2
  · rw [← (ha.mid n).term, ← (hb.mid n).term]
    exact hab.term n
  · rw [← (ha.mid n).term, ← (hb.mid n).term] at hT
    rw [← (ha.mid n).vote] at hc
    rw [← (hb.mid n).vote]
    exact hab.vote n c hT hc
  · exact (ha.mid l).won ((ha.rest hidle).led hl)

/-- Node 3 names node 1, which has won term 1. -/
theorem election_safety_trio :
    (trioCommitted 3).leaderId = some 1 ∧
    ∃ L, Output.transition (trioCommitted 3).currentTerm .leader .wonElection L ∈
      (trioCommitted 1).out := by
  have hl : (trioCommitted 3).leaderId = some 1 := by decide +kernel
  refine ⟨hl, ?_⟩
  exact (election_safety trioCommitted_reachable trioElected_reach).2.2 3 1 rfl hl

/-! ## 5. Log matching -/

/-- The log of a node is grown from those of the leaders. -/
theorem Explains.grown {a : Abs} (h : C.Explains a w) (n : NodeId) :
    Grown C.setting a (w.cur n).currentTerm (w.cur n).log := by
  have hg := (h.mid n).inv.log.node n
  rw [(h.mid n).term, (h.mid n).log] at hg
  exact hg

/-- The terms of a log do not go down, start at 1 and end at the node's own. -/
theorem terms_in_order (h : C.system.Reachable w) (n : NodeId) :
    (∀ (i j : ℕ) (e f : LogEntry), i ≤ j → (w.cur n).log[i]? = some e → (w.cur n).log[j]? = some f →
      e.term ≤ f.term) ∧
    ∀ e ∈ (w.cur n).log, 1 ≤ e.term ∧ e.term ≤ (w.cur n).currentTerm := by
  obtain ⟨a, ha⟩ := explained h
  refine ⟨?_, ?_⟩
  · intro i j e f hij he hf
    exact Grown.sorted (ha.mid n).inv.log (ha.grown n) he hf hij
  · intro e he
    obtain ⟨i, hi⟩ := List.mem_iff_getElem?.mp he
    obtain ⟨h1, h2, -, -⟩ := ha.grown n i e hi
    exact ⟨h1, h2⟩

/-- **Log matching.** Logs that hold entries of one term at one index are equal up to it; the terms
    of a log do not go down, start at 1 and end at the node's own. -/
theorem log_matching (h : C.system.Reachable w) :
    (∀ n m i (e f : LogEntry), (w.cur n).log[i]? = some e → (w.cur m).log[i]? = some f →
      e.term = f.term → (w.cur n).log.take (i + 1) = (w.cur m).log.take (i + 1)) ∧
    ∀ n, (∀ (i j : ℕ) (e f : LogEntry), i ≤ j → (w.cur n).log[i]? = some e → (w.cur n).log[j]? = some f →
        e.term ≤ f.term) ∧
      ∀ e ∈ (w.cur n).log, 1 ≤ e.term ∧ e.term ≤ (w.cur n).currentTerm := by
  obtain ⟨a, ha⟩ := explained h
  exact ⟨fun n m i e f he hf hef => (ha.grown n).matching (ha.grown m) he hf hef, terms_in_order h⟩

/-- Nodes 1 and 3 hold an entry of term 1 at index 1. -/
theorem log_matching_trio :
    (trioCommitted 1).log[0]? = some trioEntry ∧ (trioCommitted 3).log[0]? = some trioEntry ∧
    (trioCommitted 1).log.take 1 = (trioCommitted 3).log.take 1 := by
  have h1 : (trioCommitted 1).log[0]? = some trioEntry := by decide +kernel
  have h3 : (trioCommitted 3).log[0]? = some trioEntry := by decide +kernel
  exact ⟨h1, h3, (log_matching trioCommitted_reachable).1 1 3 0 _ _ h1 h3 rfl⟩

/-! ## 6. Durable commits -/

/-- **What is committed is on a majority of disks, and a match index is true of its peer's disk**
    as long as the peer is in the leader's term. -/
theorem durable_commit (h : C.system.Reachable w) :
    (∀ n i, i < (w.cur n).commitIndex → ∃ e, (w.cur n).log[i]? = some e ∧
      ∃ Q ⊆ C.ids, C.ids.card < 2 * Q.card ∧ ∀ v ∈ Q, (w.cur v).log[i]? = some e) ∧
    ∀ l p, w.Idle l → (w.cur l).role = .leader →
      (w.cur p).currentTerm = (w.cur l).currentTerm →
      (w.cur l).matchIndex.getD p 0 ≤ (w.cur l).log.length ∧
      (w.cur p).log.take ((w.cur l).matchIndex.getD p 0) =
        (w.cur l).log.take ((w.cur l).matchIndex.getD p 0) := by
  obtain ⟨a, ha⟩ := explained h
  refine ⟨fun n i hi => ?_, fun l p hidle hlead hT => ?_⟩
  · have hm := ha.mid n
    have hlen := Nat.lt_of_lt_of_le hi hm.commit.1
    have he : (w.cur n).log[i]? = some (w.cur n).log[i] := List.getElem?_eq_getElem hlen
    obtain ⟨-, h0 | ⟨U, k, -, hk, hcom, hp⟩⟩ := hm.commit
    · omega
    · obtain ⟨Q, ⟨hQ, hcard⟩, hheld⟩ := committed_held hm.inv hcom
      refine ⟨_, he, Q, hQ, by omega, fun v hv => ?_⟩
      have hv' := hheld v hv
      rw [(ha.mid v).log] at hv'
      refine getElem_of_pre hv' ?_
      rw [List.getElem?_take_of_lt (by omega)]
      refine getElem_of_pre hp ?_
      rw [List.getElem?_take_of_lt hi]
      exact he
  · have hl := (ha.rest hidle).lead hlead
    have hm := ha.mid l
    rcases hl.acked p with h0 | hack
    · rw [h0]
      exact ⟨Nat.zero_le _, rfl⟩
    · have hlen := hm.inv.ack.acked_len hack
      have hheld := acked_held hm.inv hack ((ha.mid p).term.trans hT)
      rw [hl.log hm] at hlen hheld
      rw [(ha.mid p).log] at hheld
      refine ⟨hlen, ?_⟩
      have htake := List.prefix_iff_eq_take.mp hheld
      rw [List.length_take, Nat.min_eq_left hlen] at htake
      exact htake.symm

/-- Node 1 has committed index 1 and has matched node 2 up to it. -/
theorem durable_commit_trio :
    (trioCommitted 1).commitIndex = 1 ∧ (trioCommitted 1).matchIndex.getD 2 0 = 1 ∧
    (trioCommitted 2).log.take ((trioCommitted 1).matchIndex.getD 2 0) =
      (trioCommitted 1).log.take ((trioCommitted 1).matchIndex.getD 2 0) := by
  refine ⟨by decide +kernel, by decide +kernel, ?_⟩
  exact ((durable_commit trioCommitted_reachable).2 1 2 rfl (by decide +kernel)
    (by decide +kernel)).2

/-! ## 7. Monotone bookkeeping -/

/-- **Commit and apply indices.** At every moment `lastApplied ≤ commitIndex ≤ lastIndex`; within one
    incarnation of a node neither index goes back, and no entry up to the commit index changes. -/
theorem commit_monotone (h : C.system.Reachable w) (n : NodeId) :
    (w.cur n).lastApplied ≤ (w.cur n).commitIndex ∧
    (w.cur n).commitIndex ≤ (w.cur n).log.lastIndex ∧
    ∀ w', C.system.Spans n w w' →
      (w.cur n).commitIndex ≤ (w'.cur n).commitIndex ∧
      (w.cur n).lastApplied ≤ (w'.cur n).lastApplied ∧
      (w'.cur n).log.take (w.cur n).commitIndex = (w.cur n).log.take (w.cur n).commitIndex := by
  obtain ⟨a, ha⟩ := explained h
  have hm := ha.mid n
  refine ⟨hm.applied, hm.commit.1, fun w' hw => ?_⟩
  have hmoved : Moved (w.cur n) (w'.cur n) :=
    Simulation.spans_move moved_refl (fun h k => Moved.trans h k) id ha hw
  exact ⟨hmoved.commit, hmoved.applied, hmoved.kept⟩

/-- Node 3 has committed and applied index 1, and keeps it while node 2 campaigns. -/
theorem commit_monotone_trio :
    (trioCommitted 3).commitIndex = 1 ∧ (trioCommitted 3).lastApplied = 1 ∧
    (trioCommitted 3).lastApplied ≤ (trioCommitted 3).commitIndex ∧
    (trioCommitted 3).commitIndex ≤ (trioCommitted 3).log.lastIndex :=
  ⟨by decide +kernel, by decide +kernel, (commit_monotone trioCommitted_reachable 3).1,
    (commit_monotone trioCommitted_reachable 3).2.1⟩

/-! ## 8. Unreachable errors -/

/-- **No error branch is taken and no log access is out of range**, and a leader's window for every
    peer is inside its log, at every moment. -/
theorem errors_unreachable (h : C.system.Reachable w) (n : NodeId) :
    (∀ T l, Output.electionSafetyViolation T l ∉ (w.cur n).out) ∧
    (∀ i, Output.logMatchingViolation i ∉ (w.cur n).out) ∧
    (∀ p k, Output.ackedBeyondLog p k ∉ (w.cur n).out) ∧
    (∀ i, Output.termAtOutOfRange i ∉ (w.cur n).out) ∧
    (∀ i, Output.entryAtOutOfRange i ∉ (w.cur n).out) ∧
    ((w.cur n).role = .leader → ∀ p ∈ C.peers n,
      (w.cur n).matchIndex.getD p 0 < (w.cur n).nextIndex.getD p 0 ∧
      (w.cur n).nextIndex.getD p 0 ≤ (w.cur n).log.lastIndex + 1) := by
  obtain ⟨a, ha⟩ := explained h
  have hm := ha.mid n
  exact ⟨fun T l ho => hm.out _ ho, fun i ho => hm.out _ ho, fun p k ho => hm.out _ ho,
    fun i ho => hm.out _ ho, fun i ho => hm.out _ ho, hm.window⟩

/-- Node 1 leads, with a window for node 3. -/
theorem errors_unreachable_trio :
    (trioCommitted 1).role = .leader ∧ (trioCommitted 1).nextIndex.getD 3 0 = 1 ∧
    (trioCommitted 1).matchIndex.getD 3 0 < (trioCommitted 1).nextIndex.getD 3 0 := by
  have hr : (trioCommitted 1).role = .leader := by decide +kernel
  refine ⟨hr, by decide +kernel, ?_⟩
  exact ((errors_unreachable trioCommitted_reachable 1).2.2.2.2.2 hr 3 (by decide)).1

end Rsm.Raft.Cluster
