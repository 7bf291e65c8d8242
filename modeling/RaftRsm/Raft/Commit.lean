/-
  File:      RaftRsm/Raft/Commit.lean
  Subject:   Committing and applying keep the contract (`advanceCommit`, `applyCommitted`).

  * `meets_applyCommitted` -- the apply loop hands over covered entries only, in index order, and
    ends with the state machine at `lastApplied`;
  * `meets_advanceCommit` -- the leader's count over its match indices is a quorum of
    acknowledgements, its own included, so the new commit index is covered.
-/
import RaftRsm.Raft.Reading

namespace Rsm.Raft.Cluster

open Rsm.Rpc Rsm.Storage Process Replication

variable {C : Cluster} {K : Ctx} {a b : Abs} {n : NodeId} {s t : RaftCore}

/-- The call `K` is one of node `n` of the cluster. -/
structure Serves (C : Cluster) (K : Ctx) (n : NodeId) : Prop where
  mem : n ∈ C.ids
  self : K.self = n
  peers : K.peers = C.peers n

/-! ## 1. The apply loop -/

/-- What the apply loop does to a core. -/
structure Applied (C : Cluster) (n : NodeId) (a : Abs) (s : RaftCore) (b : Abs) (t : RaftCore) :
    Prop where
  frame : Frame n a b
  mid : C.Mid b n t
  sm : t.sm = t.log.take t.lastApplied
  only : ∃ m o k, t = { s with sm := m, out := o, lastApplied := k }

theorem take_succ_entryAt {l : InMemoryLog} {j : ℕ} (hj : j < l.length) :
    l.take (j + 1) = l.take j ++ [l.entryAt (j + 1)] := by
  rw [List.take_add_one, List.getElem?_eq_getElem hj,
    InMemoryLog.entryAt_succ (List.getElem?_eq_getElem hj)]
  rfl

/-- One entry handed over. -/
theorem Mid.handOver (h : C.Mid a n s) {j : ℕ} (hsm : s.sm = s.log.take j)
    (hj : j < s.commitIndex) :
    C.Mid a n { s with
      sm := s.sm ++ [s.log.entryAt (j + 1)]
      out := s.out ++ [.apply (j + 1) (s.log.entryAt (j + 1))] } := by
  have hlen : j < s.log.length := lt_of_lt_of_le hj h.commit.1
  have he : s.log[j]? = some (s.log.entryAt (j + 1)) := by
    rw [InMemoryLog.entryAt_succ (List.getElem?_eq_getElem hlen), List.getElem?_eq_getElem hlen]
  have hout : C.OutputOk a n (.apply (j + 1) (s.log.entryAt (j + 1))) :=
    ⟨Nat.le_add_left 1 j, h.commit.chosen hj he⟩
  refine { h.emit rfl hout with sm := ?_ }
  show s.sm ++ [s.log.entryAt (j + 1)] <+: s.log.take s.commitIndex
  rw [hsm, ← take_succ_entryAt hlen]
  exact List.take_prefix_take_left hj

theorem moved_handOver (s : RaftCore) (e : LogEntry) (o : Output) :
    Moved s { s with sm := s.sm ++ [e], out := s.out ++ [o] } :=
  ⟨Nat.le_refl _, Nat.le_refl _, rfl, List.prefix_append _ _⟩

theorem Mid.lastApplied (h : C.Mid a n s) {j : ℕ} (hj : j ≤ s.commitIndex) :
    C.Mid a n { s with lastApplied := j } := { h with applied := hj }

theorem moved_lastApplied (s : RaftCore) : Moved s { s with lastApplied := s.lastApplied + 1 } :=
  ⟨Nat.le_refl _, Nat.le_succ _, rfl, List.prefix_refl _⟩

theorem meets_applyLoop (k : ℕ) : ∀ {a : Abs} {s : RaftCore}, C.Mid a n s →
    s.sm = s.log.take s.lastApplied →
    Meets (C.contract n) a s (applyLoop K k) (fun _ => Applied C n a s) := by
  induction k with
  | zero =>
      intro a s hm hsm
      exact ⟨Frame.refl n a, hm, hsm, s.sm, s.out, s.lastApplied, rfl⟩
  | succ k ih =>
      intro a s hm hsm
      refine meets_read_bind (meets_ite (fun hlt => ?_) fun _ => ?_)
      · have hlen : s.lastApplied < s.log.length := lt_of_lt_of_le hlt hm.commit.1
        have hnew : s.sm ++ [s.log.entryAt (s.lastApplied + 1)] =
            s.log.take (s.lastApplied + 1) := by rw [hsm, take_succ_entryAt hlen]
        refine meets_bind (meets_entryAt ⟨Nat.le_add_left 1 _, hlen⟩ ?_)
        cases K.applySink with
        | some sink =>
            refine meets_ite (fun _ => ?_) fun _ => ?_
            · refine meets_bind (meets_act hm (moved_handOver s _ _) fun b hab hb => ?_)
              have hb' := hb.handOver hsm hlt
              refine ⟨b, .inl rfl, hb', ?_⟩
              refine meets_bind (meets_act hb' (moved_lastApplied _) fun c hbc hc => ?_)
              have hc' := hc.lastApplied hlt
              refine ⟨c, .inl rfl, hc', meets_mono (ih hc' hnew) fun _ d t h => ?_⟩
              obtain ⟨m, o, j, ht⟩ := h.only
              exact ⟨(hab.trans hbc).trans h.frame, h.mid, h.sm, m, o, j, ht⟩
            · exact ⟨Frame.refl n a, hm, hsm, s.sm, s.out, s.lastApplied, rfl⟩
        | none =>
            refine meets_bind (meets_act hm (moved_lastApplied s) fun b hab hb => ?_)
            have hb' := hb.lastApplied hlt
            refine ⟨b, .inl rfl, hb', ?_⟩
            refine meets_bind (meets_act hb' (moved_handOver _ _ _) fun c hbc hc => ?_)
            have hc' := hc.handOver hsm hlt
            refine ⟨c, .inl rfl, hc', meets_mono (ih hc' hnew) fun _ d t h => ?_⟩
            obtain ⟨m, o, j, ht⟩ := h.only
            exact ⟨(hab.trans hbc).trans h.frame, h.mid, h.sm, m, o, j, ht⟩
      · exact ⟨Frame.refl n a, hm, hsm, s.sm, s.out, s.lastApplied, rfl⟩

theorem meets_applyCommitted (hm : C.Mid a n s) (hsm : s.sm = s.log.take s.lastApplied) :
    Meets (C.contract n) a s (applyCommitted K) (fun _ => Applied C n a s) :=
  meets_read_bind (meets_applyLoop _ hm hsm)

/-! ## 2. Counting replicas -/

theorem Serves.card (h : Serves C K n) : K.peers.length + 1 = C.ids.card := by
  have he : (C.peers n).toFinset = C.ids.erase n := by
    refine Finset.ext fun p => ?_
    rw [List.mem_toFinset, C.mem_peers h.mem, Finset.mem_erase, and_comm]
  rw [h.peers, ← List.toFinset_card_of_nodup (C.nodup n), he, Finset.card_erase_add_one h.mem]

/-- **The peers that are counted, with the leader, are a quorum.** -/
theorem quorum_of_replicas (h : Serves C K n) (hkeys : ∀ p ∈ s.matchIndex, p ∈ C.peers n)
    {k : ℕ} (hmaj : K.majority ≤ replicas s k) :
    ∃ Q, C.setting.Quorum Q ∧ ∀ v ∈ Q, v = n ∨ k ≤ s.matchIndex.getD v 0 := by
  have hmem : ∀ v ∈ ((s.matchIndex.toList.filter fun pm => k ≤ pm.2).map Prod.fst),
      v ∈ C.peers n ∧ k ≤ s.matchIndex.getD v 0 := by
    intro v hv
    obtain ⟨⟨p, m⟩, hpm, rfl⟩ := List.mem_map.mp hv
    obtain ⟨hp, hm⟩ := List.mem_filter.mp hpm
    have hget := Std.ExtTreeMap.mem_toList_iff_getElem?_eq_some.mp hp
    refine ⟨hkeys p ?_, ?_⟩
    · rw [Std.ExtTreeMap.mem_iff_isSome_getElem?, hget]
      rfl
    · rw [Std.ExtTreeMap.getD_eq_getD_getElem?, hget]
      exact of_decide_eq_true hm
  have hnodup : ((s.matchIndex.toList.filter fun pm => k ≤ pm.2).map Prod.fst).Nodup := by
    refine List.Nodup.sublist (List.filter_sublist.map Prod.fst) ?_
    rw [Std.ExtTreeMap.map_fst_toList_eq_keys]
    exact Std.ExtTreeMap.nodup_keys
  have hself : n ∉ ((s.matchIndex.toList.filter fun pm => k ≤ pm.2).map Prod.fst).toFinset := by
    intro hn
    exact ((C.mem_peers h.mem n).mp (hmem n (List.mem_toFinset.mp hn)).1).2 rfl
  refine ⟨insert n ((s.matchIndex.toList.filter fun pm => k ≤ pm.2).map Prod.fst).toFinset,
    ⟨?_, ?_⟩, ?_⟩
  · intro v hv
    rcases Finset.mem_insert.mp hv with rfl | hv
    · exact h.mem
    · exact ((C.mem_peers h.mem v).mp (hmem v (List.mem_toFinset.mp hv)).1).1
  · rw [Finset.card_insert_of_notMem hself, List.toFinset_card_of_nodup hnodup, List.length_map]
    have hcard := h.card
    unfold Ctx.majority replicas at hmaj
    omega
  · intro v hv
    rcases Finset.mem_insert.mp hv with hv | hv
    · exact .inl hv
    · exact .inr (hmem v (List.mem_toFinset.mp hv)).2

/-! ## 3. The leader's commit -/

/-- What `advanceCommit` does to a core. -/
structure Advanced (C : Cluster) (n : NodeId) (a : Abs) (s : RaftCore) (b : Abs) (t : RaftCore) :
    Prop where
  le : Le a b
  mid : C.Mid b n t
  lead : C.Lead b n t
  sm : t.sm = t.log.take t.lastApplied
  only : ∃ c m o k, t = { s with commitIndex := c, sm := m, out := o, lastApplied := k }

theorem moved_commitIndex {c : ℕ} (hc : s.commitIndex ≤ c) :
    Moved s { s with commitIndex := c } :=
  ⟨hc, Nat.le_refl _, rfl, List.prefix_refl _⟩

/-- A covered index may become the commit index. -/
theorem Mid.commitIndex (h : C.Mid a n s) {c : ℕ} (hc : s.commitIndex ≤ c)
    (hcov : C.Covered a s.currentTerm s.log c) : C.Mid a n { s with commitIndex := c } :=
  { h with
    commit := hcov
    applied := h.applied.trans hc
    sm := h.sm.trans (List.take_prefix_take_left hc) }

/-- **A counted index of the leader's own term is committed**, once the leader has
    acknowledged it as well. -/
theorem committed_of_replicas (h : Serves C K n) (hm : C.Mid a n s) (hl : C.Lead a n s) {i : ℕ}
    {e : LogEntry} (he : s.log[i]? = some e) (hT : e.term = s.currentTerm)
    (hmaj : K.majority ≤ replicas s (i + 1)) :
    Committed C.setting (a.ack n (i + 1)) s.currentTerm (i + 1) := by
  obtain ⟨Q, hq, hQ⟩ := quorum_of_replicas h hl.keys hmaj
  refine ⟨Q, hq, fun v hv => ?_, i, e, rfl, ?_, hT⟩
  · rcases hQ v hv with rfl | hk
    · exact .inr ⟨rfl, hm.term.symm, Nat.le_refl _⟩
    · rcases hl.acked v with h0 | hack
      · omega
      · exact .inl (hm.inv.ack.acked_down hack hk)
  · show (a.llog s.currentTerm)[i]? = some e
    rw [hl.log hm]
    exact he

theorem meets_commitScan (h : Serves C K n) (hm : C.Mid a n s) (hl : C.Lead a n s)
    (hsm : s.sm = s.log.take s.lastApplied) : ∀ {i : ℕ}, i ≤ s.log.length →
    Meets (C.contract n) a s (commitScan K i) (fun _ => Advanced C n a s) := by
  have hstay : Advanced C n a s a s :=
    ⟨Le.refl a, hm, hl, hsm, s.commitIndex, s.sm, s.out, s.lastApplied, rfl⟩
  intro i
  induction i with
  | zero => exact fun _ => hstay
  | succ i ih =>
      intro hi
      refine meets_read_bind (meets_ite (fun hlt => ?_) fun _ => hstay)
      refine meets_bind (meets_termAt hi ?_)
      refine meets_ite (fun _ => hstay) fun hT => ?_
      refine meets_ite (fun hmaj => ?_) fun _ => ih (by omega)
      have he : s.log[i]? = some s.log[i] := List.getElem?_eq_getElem hi
      rw [InMemoryLog.termAt_succ he, not_not] at hT
      refine meets_bind (meets_act hm (moved_commitIndex (by omega)) fun b hab hb => ?_)
      have hlb := hl.mono hab.toLe
      -- the leader acknowledges its own log, and with that the index is committed
      have hstep : Step C.setting n b (b.ack n (i + 1)) := by
        have hlog : b.llog (b.term n) = s.log := by rw [hb.term, hlb.log hb]
        refine Step.ack b n (i + 1) (by rw [hb.term]; exact hlb.won) (by rw [hlog]; exact hi) ?_
        rw [hlog, hb.log]
        exact List.take_prefix _ _
      have hmid : C.Mid (b.ack n (i + 1)) n s :=
        hb.disk hstep hb.term hb.vote hb.log id rfl hb.window
      have hlc := hlb.mono (le_of_step hstep)
      have hcov : C.Covered (b.ack n (i + 1)) s.currentTerm s.log (i + 1) :=
        ⟨hi, .inr ⟨_, _, Nat.le_refl _, Nat.le_refl _, committed_of_replicas h hb hlb he hT hmaj, by
          rw [hlc.log hmid]
          exact List.take_prefix _ _⟩⟩
      have hmid' := hmid.commitIndex (Nat.le_of_lt hlt) hcov
      refine ⟨b.ack n (i + 1), .inr hstep, hmid', ?_⟩
      refine meets_mono (meets_applyCommitted hmid' hsm) fun _ d t hd => ?_
      obtain ⟨m, o, k, rfl⟩ := hd.only
      exact ⟨(hab.toLe.trans (le_of_step hstep)).trans hd.frame.toLe, hd.mid,
        (hlc.mono hd.frame.toLe).congr rfl rfl, hd.sm, i + 1, m, o, k, rfl⟩

theorem meets_advanceCommit (h : Serves C K n) (hm : C.Mid a n s) (hl : C.Lead a n s)
    (hsm : s.sm = s.log.take s.lastApplied) :
    Meets (C.contract n) a s (advanceCommit K) (fun _ => Advanced C n a s) :=
  meets_read_bind (meets_commitScan h hm hl hsm (Nat.le_refl _))

end Rsm.Raft.Cluster
