/-
  File:      RaftRsm/Raft/Exactness.lean
  Subject:   A LEADER'S COMMIT INDEX IS EXACT: the greatest index that it may commit by counting replicas
             is never beyond it, between any two calls of any run of the cluster.

  * `Ripe K s N` -- an entry of the leader's own term that a majority holds;
  * `Ordered` -- the terms of a log do not go down: the scan may stop at the first other term;
  * `Recounted.exact` -- the scan is exact on such a log;
  * `Exact`, `Effect.exact` -- every call keeps the leader's commit index maximal, also the calls that do
    not count;
  * `leader_commit_exact` -- in every reachable world.
-/
import RaftRsm.Raft.Safety
import RaftRsm.Raft.Calls

namespace Rsm.Raft

open Rsm.Rpc Rsm.Storage Process

variable {K K' : Ctx} {s t : RaftCore} {i : Input}

/-! ## 1. The scan -/

/-- **The index may be committed by counting**: it is of the leader's own term, and a majority holds
    it. -/
structure Ripe (K : Ctx) (s : RaftCore) (N : ℕ) : Prop where
  le : N ≤ s.log.lastIndex
  term : s.log.termAt N = s.currentTerm
  majority : K.majority ≤ replicas s N

/-- No index beyond the commit index may be. -/
def Maximal (K : Ctx) (s : RaftCore) : Prop := ∀ N, s.commitIndex < N → ¬ Ripe K s N

/-- **The terms of the log do not go down**, and end at the core's own. -/
structure Ordered (s : RaftCore) : Prop where
  sorted : ∀ (i j : ℕ) (e f : LogEntry), i ≤ j → s.log[i]? = some e → s.log[j]? = some f → e.term ≤ f.term
  bound : ∀ e ∈ s.log, e.term ≤ s.currentTerm

theorem Ripe.congr {N : ℕ} (h : Ripe K s N) (hlog : t.log = s.log) (hT : t.currentTerm = s.currentTerm)
    (hμ : t.matchIndex = s.matchIndex) : Ripe K t N := by
  refine ⟨?_, ?_, ?_⟩
  · rw [hlog]
    exact h.le
  · rw [hlog, hT]
    exact h.term
  · rw [replicas, hμ]
    exact h.majority

/-- An index of the log and its entry. -/
theorem exists_termAt {l : InMemoryLog} {N : ℕ} (h1 : 0 < N) (hN : N ≤ l.lastIndex) :
    ∃ e ∈ l, l[N - 1]? = some e ∧ l.termAt N = e.term := by
  obtain ⟨j, rfl⟩ := Nat.exists_eq_succ_of_ne_zero (Nat.ne_of_gt h1)
  have he : l[j]? = some l[j] := List.getElem?_eq_getElem hN
  exact ⟨l[j], List.getElem_mem hN, he, InMemoryLog.termAt_succ he⟩

/-- **From an entry of the core's own term on all entries are.** -/
theorem Ordered.own_above (h : Ordered s) {N M : ℕ} (h1 : 0 < M) (hM : s.log.termAt M = s.currentTerm)
    (hMN : M ≤ N) (hN : N ≤ s.log.lastIndex) : s.log.termAt N = s.currentTerm := by
  obtain ⟨e, -, he, hte⟩ := exists_termAt h1 (hMN.trans hN)
  obtain ⟨f, hf, hf', htf⟩ := exists_termAt (Nat.lt_of_lt_of_le h1 hMN) hN
  have hle := h.sorted (M - 1) (N - 1) e f (by omega) he hf'
  have hbound := h.bound f hf
  omega

/-- The core `t` is `s` with its replicas counted. -/
structure Recounted (K : Ctx) (s t : RaftCore) : Prop where
  log : t.log = s.log
  term : t.currentTerm = s.currentTerm
  acked : t.matchIndex = s.matchIndex
  commit : t.commitIndex = commitFrom K s s.log.length

/-- The commit index is raised to an index that may be committed. -/
def Raised (K : Ctx) (s t : RaftCore) : Prop :=
  t.commitIndex ≠ s.commitIndex → s.commitIndex < t.commitIndex ∧ Ripe K t t.commitIndex

/-- **The scan finds the greatest index there is**: where it stops early, nothing is missed. -/
theorem Recounted.exact (h : Recounted K s t) (ho : Ordered s) : Maximal K t ∧ Raised K s t := by
  refine ⟨fun N hN hripe => ?_, fun hne => ?_⟩
  · have hripe' : Ripe K s N := hripe.congr h.log.symm h.term.symm h.acked.symm
    rw [h.commit] at hN
    have hgt : s.commitIndex < N := Nat.lt_of_le_of_lt (le_commitPoint _) hN
    have hrun : ∀ j, N ≤ j → j ≤ s.log.length → s.log.termAt j = s.currentTerm :=
      fun j hj hl => ho.own_above (by omega) hripe'.term hj hl
    have hcan : Committable (fun i => s.log.termAt i = s.currentTerm) (fun i => K.majority ≤ replicas s i)
        s.commitIndex s.log.length N := ⟨hgt, hripe'.le, hrun, hripe'.majority⟩
    exact absurd hcan.le_commitPoint (Nat.not_le.mpr hN)
  · rw [h.commit] at hne ⊢
    rcases commitPoint_cases (fun i => s.log.termAt i = s.currentTerm) (fun i => K.majority ≤ replicas s i)
      s.commitIndex s.log.length with hstop | hc
    · exact absurd hstop hne
    · refine ⟨hc.gt, Ripe.congr (s := s) ⟨hc.le, ?_, hc.held⟩ h.log h.term h.acked⟩
      exact hc.run _ (Nat.le_refl _) hc.le

/-! ## 2. One call -/

/-- **A leader's commit index is maximal**; a candidate needs another vote than its own. -/
structure Exact (K : Ctx) (s : RaftCore) : Prop where
  leader : s.role = .leader → Maximal K s
  candidate : s.role = .candidate → 1 < K.majority

theorem exact_follower (hr : s.role = .follower) : Exact K s := by
  refine ⟨fun h => ?_, fun h => ?_⟩ <;> rw [hr] at h <;> exact Role.noConfusion h

/-- What `Exact` reads of a core is as it was. -/
structure Alike (s t : RaftCore) : Prop where
  role : t.role = s.role
  log : t.log = s.log
  term : t.currentTerm = s.currentTerm
  acked : t.matchIndex = s.matchIndex
  commit : t.commitIndex = s.commitIndex

theorem Exact.alike (h : Exact K s) (ha : Alike s t) : Exact K t := by
  refine ⟨fun hr N hN hripe => ?_, fun hr => h.candidate (ha.role.symm.trans hr)⟩
  rw [ha.commit] at hN
  exact h.leader (ha.role.symm.trans hr) N hN (hripe.congr ha.log.symm ha.term.symm ha.acked.symm)

theorem Exact.majority (h : Exact K s) (hK : K'.majority = K.majority) : Exact K' s := by
  refine ⟨fun hr N hN hripe => ?_, fun hr => hK ▸ h.candidate hr⟩
  exact h.leader hr N hN ⟨hripe.le, hripe.term, hK ▸ hripe.majority⟩

theorem raised_of_eq (h : t.commitIndex = s.commitIndex) : Raised K s t := fun hne => absurd h hne

/-- Nobody has acknowledged anything to a new leader. -/
theorem replicas_indexAll {peers : List NodeId} {N : ℕ} (hN : 0 < N) (hμ : s.matchIndex = indexAll peers 0) :
    replicas s N = 1 := by
  have hnone : s.matchIndex.toList.filter (fun pm => N ≤ pm.2) = [] := by
    refine List.filter_eq_nil_iff.mpr fun pm hpm hle => ?_
    have hget := Std.ExtTreeMap.mem_toList_iff_getElem?_eq_some.mp hpm
    have hzero : s.matchIndex.getD pm.1 0 = 0 := by
      rw [hμ, Cluster.indexAll_getD]
      split_ifs <;> rfl
    rw [Std.ExtTreeMap.getD_eq_getD_getElem?, hget] at hzero
    have hle := of_decide_eq_true hle
    have hzero : pm.2 = 0 := hzero
    omega
  rw [replicas, hnone, List.length_nil]

theorem Ordered.append (h : Ordered s) {es : List LogEntry} (hT : ∀ e ∈ es, e.term = s.currentTerm) :
    Ordered { s with log := s.log ++ es } := by
  have hbound : ∀ e ∈ s.log ++ es, e.term ≤ s.currentTerm := by
    intro e he
    rcases List.mem_append.mp he with he | he
    · exact h.bound e he
    · exact Nat.le_of_eq (hT e he)
  refine ⟨fun i j e f hij he hf => ?_, hbound⟩
  have he : (s.log ++ es)[i]? = some e := he
  have hf : (s.log ++ es)[j]? = some f := hf
  by_cases hj : j < s.log.length
  · rw [List.getElem?_append_left (Nat.lt_of_le_of_lt hij hj)] at he
    rw [List.getElem?_append_left hj] at hf
    exact h.sorted i j e f hij he hf
  · -- the later one is new: it is of the leader's own term
    have hbe := hbound e (List.mem_of_getElem? he)
    rw [List.getElem?_append_right (Nat.le_of_not_lt hj)] at hf
    rw [hT f (List.mem_of_getElem? hf)]
    exact hbe

/-- **One call keeps the commit index of a leader maximal**, and raises it only to what may be
    committed. -/
theorem Effect.exact (he : Effect K s i t) (h : Exact K s) (ho : Ordered s) :
    Exact K t ∧ (t.role = .leader → Raised K s t) := by
  have hcount : ∀ {u : RaftCore}, Recounted K u t → Ordered u → u.commitIndex = s.commitIndex →
      t.role = .leader → Exact K t ∧ (t.role = .leader → Raised K s t) := by
    intro u hre ho' hc hr
    obtain ⟨hmax, hraised⟩ := hre.exact ho'
    refine ⟨⟨fun _ => hmax, fun hcand => ?_⟩, fun _ => ?_⟩
    · rw [hr] at hcand
      exact Role.noConfusion hcand
    · unfold Raised at hraised ⊢
      rwa [hc] at hraised
  cases he with
  | started => exact ⟨h.alike ⟨rfl, rfl, rfl, rfl, rfl⟩, fun _ => raised_of_eq rfl⟩
  | noted i V ν m k o => exact ⟨h.alike ⟨rfl, rfl, rfl, rfl, rfl⟩, fun _ => raised_of_eq rfl⟩
  | beat o hr => exact ⟨h.alike ⟨rfl, rfl, rfl, rfl, rfl⟩, fun _ => raised_of_eq rfl⟩
  | campaigned o hr =>
      split_ifs with hM
      · refine ⟨⟨fun _ N hN hripe => ?_, fun hc => Role.noConfusion hc⟩, fun _ => raised_of_eq rfl⟩
        -- alone, and no entry is of the new term yet
        obtain ⟨e, hmem, -, hterm⟩ := exists_termAt (Nat.zero_lt_of_lt hN) hripe.le
        have hnew : e.term = s.currentTerm + 1 := hterm.symm.trans hripe.term
        have hold := ho.bound e hmem
        omega
      · refine ⟨⟨fun hl => Role.noConfusion hl, fun _ => Nat.lt_of_not_le hM⟩, fun _ => raised_of_eq rfl⟩
  | proposed i es m k o hr hT =>
      exact hcount (u := { s with log := s.log ++ es }) ⟨rfl, rfl, rfl, rfl⟩ (ho.append hT) rfl hr
  | granted p rv hv => exact ⟨h.alike ⟨rfl, rfl, rfl, rfl, rfl⟩, fun _ => raised_of_eq rfl⟩
  | won p r V o hr =>
      refine ⟨⟨fun _ N hN hripe => ?_, fun hc => Role.noConfusion hc⟩, fun _ => raised_of_eq rfl⟩
      have hone := replicas_indexAll (s := { led K { s with votesFrom := V } with out := s.out ++ o })
        (Nat.zero_lt_of_lt hN) rfl
      have hmaj := hripe.majority
      have hcand := h.candidate hr
      omega
  | followed p ae t hT hr ht =>
      refine ⟨exact_follower ht.role, fun hl => ?_⟩
      rw [ht.role] at hl
      exact Role.noConfusion hl
  | acked p r μ ν m k o hr =>
      exact hcount (u := { s with matchIndex := μ }) ⟨rfl, rfl, rfl, rfl⟩ ⟨ho.sorted, ho.bound⟩ rfl hr

/-- **One call.** -/
theorem exact_step (i : Input) (h : Exact K s) (ho : Ordered s) :
    Exact K ((step K i).final s) ∧
      (((step K i).final s).role = .leader → Raised K s ((step K i).final s)) := by
  have he : Effect K (seen K s i) i ((step K i).final s) := ends_final (ends_step i)
  obtain hs | ⟨T, hT, hs⟩ := seen_cases K s i
  · rw [hs] at he
    exact he.exact h ho
  · rw [hs, lowered_eq] at he
    refine he.exact (exact_follower rfl) ⟨ho.sorted, fun e hmem => ?_⟩
    exact (ho.bound e hmem).trans (Nat.le_max_left _ _)

/-! ## 3. In the cluster -/

namespace Cluster

variable {C : Cluster} {w : World} {n : NodeId}

theorem Serves.majority (h : Serves C K n) (h' : Serves C K' n) : K'.majority = K.majority := by
  rw [Ctx.majority, Ctx.majority, h.peers, h'.peers]

theorem ordered (h : C.system.Reachable w) (n : NodeId) : Ordered (w.cur n) := by
  obtain ⟨hsorted, hbound⟩ := terms_in_order h n
  exact ⟨hsorted, fun e he => (hbound e he).2⟩

/-- **Every call of every run ends with an exact commit index.** -/
theorem exact_ending (h : C.system.Reachable w) (hK : Serves C K n) : Exact K (w.ending n) := by
  refine System.ending_of (P := Exact K) (exact_follower rfl) ?_ ?_ h
  · intro w l hw _ hexact hb
    obtain ⟨hn, K₀, i, hself, hpeers, -, rfl⟩ := hb
    have hK₀ : Serves C K₀ n := ⟨hn, hself, hpeers⟩
    have hstep := exact_step i (hexact.majority (hK.majority hK₀)) (ordered hw n)
    exact hstep.1.majority (hK₀.majority hK)
  · intro s t hr
    obtain ⟨-, rng, rfl⟩ := hr
    exact exact_follower rfl

/-- **A leader's commit is exact.** In every reachable world, of a node between two calls: if it leads,
    no index of its own term beyond the commit index is held by a majority, the leader counted. Whatever
    call comes next, if the node leads after it the same is true again, and if the commit index has
    changed, it was raised, to the greatest index that is of the leader's term and held by a majority.
    And below an entry of another term there is no index that could be committed: the scan may stop. -/
theorem leader_commit_exact (h : C.system.Reachable w) (hK : Serves C K n) (hi : w.Idle n) :
    ((w.cur n).role = .leader → ∀ N, (w.cur n).commitIndex < N → N ≤ (w.cur n).log.lastIndex →
      (w.cur n).log.termAt N = (w.cur n).currentTerm → replicas (w.cur n) N < K.majority) ∧
    (∀ i t, t = (step K i).final (w.cur n) → t.role = .leader →
      (∀ N, t.commitIndex < N → N ≤ t.log.lastIndex → t.log.termAt N = t.currentTerm →
        replicas t N < K.majority) ∧
      (t.commitIndex ≠ (w.cur n).commitIndex → (w.cur n).commitIndex < t.commitIndex ∧
        IsGreatest { N | N ≤ t.log.lastIndex ∧ t.log.termAt N = t.currentTerm ∧ K.majority ≤ replicas t N }
          t.commitIndex)) ∧
    ∀ M N, 0 < M → M ≤ N → N ≤ (w.cur n).log.lastIndex →
      (w.cur n).log.termAt N ≠ (w.cur n).currentTerm → (w.cur n).log.termAt M ≠ (w.cur n).currentTerm := by
  have hmax : ∀ {s : RaftCore}, Maximal K s → ∀ N, s.commitIndex < N → N ≤ s.log.lastIndex →
      s.log.termAt N = s.currentTerm → replicas s N < K.majority := by
    intro s hs N hN hle hT
    exact Nat.lt_of_not_le fun hmaj => hs N hN ⟨hle, hT, hmaj⟩
  have hexact := exact_ending h hK
  rw [World.ending_idle hi] at hexact
  refine ⟨fun hr => hmax (hexact.leader hr), fun i t ht hr => ?_, fun M N h1 hMN hN hne hM => ?_⟩
  · subst ht
    obtain ⟨hnext, hraised⟩ := exact_step i hexact (ordered h n)
    refine ⟨hmax (hnext.leader hr), fun hne => ?_⟩
    obtain ⟨hlt, hripe⟩ := hraised hr hne
    refine ⟨hlt, ⟨hripe.le, hripe.term, hripe.majority⟩, fun N hN => ?_⟩
    exact Nat.le_of_not_lt fun hgt => hnext.leader hr N hgt ⟨hN.1, hN.2.1, hN.2.2⟩
  · exact hne ((ordered h n).own_above h1 hM hMN hN)

/-- Before the acknowledgement of node 2, node 1 has committed nothing; the call that handles it commits
    index 1, which is all there is. -/
theorem leader_commit_exact_trio :
    let x := play trio.system.init (trioCommits.take 6)
    let t := (step (trioCall 1 1000 .tick).1 (.handle 2 (.appendEntriesReply ⟨1, true, 1, 0⟩))).final (x 1)
    (x 1).role = .leader ∧ (x 1).commitIndex = 0 ∧ t.commitIndex = 1 ∧
      IsGreatest { N | N ≤ t.log.lastIndex ∧ t.log.termAt N = t.currentTerm ∧
        (trioCall 1 1000 .tick).1.majority ≤ replicas t N } 1 := by
  intro x t
  have hreach : trio.system.Reachable (resting x) :=
    reach_play (C := trio) (x := trio.system.init) (by decide +kernel)
  have hK : Serves trio (trioCall 1 1000 .tick).1 1 := ⟨by decide, rfl, rfl⟩
  have hcommit : (x 1).commitIndex = 0 := by decide +kernel
  have hcommit' : t.commitIndex = 1 := by decide +kernel
  have hexact := leader_commit_exact hreach hK rfl
  have hgreatest := ((hexact.2.1 (.handle 2 (.appendEntriesReply ⟨1, true, 1, 0⟩)) t rfl (by decide +kernel)).2
    (by rw [hcommit']; decide +kernel)).2
  rw [hcommit'] at hgreatest
  exact ⟨by decide +kernel, hcommit, hcommit', hgreatest⟩

end Cluster

end Rsm.Raft
