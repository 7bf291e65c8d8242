/-
  File:      RaftRsm/Raft/Leading.lean
  Subject:   What a leader does keeps the contract: sending its log, proposing, taking replies.

  * `meets_sendAppendEntries` -- an AppendEntries carries the leader's log from `nextIndex` to its
    end, so its commit index lies inside what it vouches for;
  * `meets_propose`, `meets_proposeBatch` -- new entries carry the leader's term;
  * `meets_onAppendEntriesReply` -- an acknowledgement that counts was given in this term and
    lies inside the leader's log; the windows stay inside it as well.
-/
import RaftRsm.Raft.Commit

namespace Rsm.Raft.Cluster

open Rsm.Rpc Rsm.Storage Process Replication

variable {C : Cluster} {K : Ctx} {a b : Abs} {n p : NodeId} {s t : RaftCore}

/-- What holds between two calls, with the reading. -/
structure Done (C : Cluster) (n : NodeId) (b : Abs) (t : RaftCore) : Prop where
  mid : C.Mid b n t
  rest : C.Rest b n t

theorem rest_of_lead (hr : s.role = .leader) (hl : C.Lead a n s)
    (hled : ∀ {l}, s.leaderId = some l → a.leader s.currentTerm = some l)
    (hsm : s.sm = s.log.take s.lastApplied) : C.Rest a n s where
  cand hc := by rw [hr] at hc; cases hc
  lead _ := hl
  led := hled
  sm := hsm

/-! ## 1. Sending the log -/

/-- Only the history has grown. -/
structure Sent (C : Cluster) (n : NodeId) (a : Abs) (s : RaftCore) (b : Abs) (t : RaftCore) :
    Prop where
  frame : Frame n a b
  mid : C.Mid b n t
  only : ∃ o, t = { s with out := o }

theorem sent_refl (hm : C.Mid a n s) : Sent C n a s a s := ⟨Frame.refl n a, hm, s.out, rfl⟩

/-- **What a leader sends is a piece of its log up to the end.** -/
theorem aeOk_of_lead (hm : C.Mid a n s) (hl : C.Lead a n s) {i : ℕ} (hi : i ≤ s.log.length) :
    C.AeOk a n
      { term := s.currentTerm, leaderId := n, prevLogIndex := i, prevLogTerm := s.log.termAt i,
        leaderCommit := s.commitIndex, entries := s.log.drop i } := by
  have hlog := hl.log hm
  have hlen : i + (s.log.drop i).length = s.log.length := by
    rw [List.length_drop]
    omega
  refine ⟨hl.won, rfl, ?_, ?_, ?_, ?_, ?_⟩
  · show i + (s.log.drop i).length ≤ (a.llog s.currentTerm).length
    rw [hlog, hlen]
  · show s.log.termAt i = InMemoryLog.termAt (a.llog s.currentTerm) i
    rw [hlog]
  · show s.log.drop i <+: (a.llog s.currentTerm).drop i
    rw [hlog]
  · show s.commitIndex ≤ i + (s.log.drop i).length
    rw [hlen]
    exact hm.commit.1
  · show C.Covered a s.currentTerm (a.llog s.currentTerm) s.commitIndex
    rw [hlog]
    exact hm.commit

theorem meets_sendAppendEntries (h : Serves C K n) (hm : C.Mid a n s) (hr : s.role = .leader)
    (hl : C.Lead a n s) (hp : p ∈ C.peers n) :
    Meets (C.contract n) a s (sendAppendEntries K p) (fun _ => Sent C n a s) := by
  obtain ⟨hlt, hle⟩ := hm.window hr p hp
  obtain ⟨i, hi⟩ : ∃ i, s.nextIndex.getD p 0 = i + 1 := ⟨s.nextIndex.getD p 0 - 1, by omega⟩
  refine meets_read_bind ?_
  rw [hi]
  dsimp only
  rw [Nat.add_sub_cancel, InMemoryLog.entriesSpan_succ, h.self]
  refine meets_bind (meets_termAt (by omega) ?_)
  have hne : p ≠ n := ((C.mem_peers h.mem p).mp hp).2
  refine meets_emit hm rfl ⟨hne, aeOk_of_lead hm hl (by omega)⟩ fun b hab hb => ?_
  exact ⟨hab, hb, _, rfl⟩

/-- One AppendEntries to every peer. -/
theorem meets_broadcast (h : Serves C K n) (hm : C.Mid a n s) (hr : s.role = .leader)
    (hl : C.Lead a n s) :
    Meets (C.contract n) a s (K.peers.forM (sendAppendEntries K)) (fun _ => Sent C n a s) := by
  refine meets_forM (sent_refl hm) fun p hp b t hb => ?_
  obtain ⟨o, rfl⟩ := hb.only
  rw [h.peers] at hp
  have hlb : C.Lead b n { s with out := o } := (hl.mono hb.frame.toLe).congr rfl rfl
  refine meets_mono (meets_sendAppendEntries h hb.mid hr hlb hp) fun _ c u hc => ?_
  obtain ⟨o', rfl⟩ := hc.only
  exact ⟨hb.frame.trans hc.frame, hc.mid, o', rfl⟩

/-- The heartbeats, and what follows every proposal: a broadcast, then the timer. -/
theorem meets_broadcast_arm (h : Serves C K n) (hm : C.Mid a n s) (hr : s.role = .leader)
    (hR : C.Rest a n s) :
    Meets (C.contract n) a s (do K.peers.forM (sendAppendEntries K); armHeartbeat K)
      (fun _ => Done C n) := by
  have hl := hR.lead hr
  refine meets_bind (meets_mono (meets_broadcast h hm hr hl) fun _ b t hb => ?_)
  obtain ⟨o, rfl⟩ := hb.only
  refine meets_quiet hb.mid ⟨rfl, rfl, rfl, rfl, rfl, rfl, rfl⟩ hb.mid.window fun c hbc hc => ?_
  have hac := hb.frame.trans hbc
  refine ⟨hc, rest_of_lead hr ((hl.mono hac.toLe).congr rfl rfl) ?_ hR.sm⟩
  exact fun hL => hac.leader (hR.led hL)

theorem meets_sendHeartbeats (h : Serves C K n) (hm : C.Mid a n s) (hr : s.role = .leader)
    (hR : C.Rest a n s) : Meets (C.contract n) a s (sendHeartbeats K) (fun _ => Done C n) :=
  meets_broadcast_arm h hm hr hR

/-! ## 2. Proposals -/

/-- A leader's log has grown by entries of its own. -/
structure Grew (C : Cluster) (n : NodeId) (a : Abs) (s : RaftCore) (b : Abs) (t : RaftCore) :
    Prop where
  le : Le a b
  mid : C.Mid b n t
  only : ∃ L, t = { s with log := s.log ++ L }

theorem moved_append (L : List LogEntry) (hc : s.commitIndex ≤ s.log.length) :
    Moved s { s with log := s.log ++ L } :=
  ⟨Nat.le_refl _, Nat.le_refl _, List.take_append_of_le_length hc, List.prefix_refl _⟩

theorem meets_append_own (hm : C.Mid a n s) (hl : C.Lead a n s) {es : List LogEntry}
    (hes : ∀ e ∈ es, e.term = s.currentTerm) :
    Meets (C.contract n) a s (append es) (fun _ => Grew C n a s) := by
  refine meets_forM ⟨Le.refl a, hm, [], by rw [List.append_nil]⟩ fun e he b t hb => ?_
  obtain ⟨L, rfl⟩ := hb.only
  refine meets_act hb.mid (moved_append [e] hb.mid.commit.1) fun c hbc hc => ?_
  have hac := hb.le.trans hbc.toLe
  have hstep : Step C.setting n c (c.propose n e) := by
    refine Step.propose c e ?_ ?_
    · rw [hc.term]
      exact hac.leader hl.won
    · rw [hc.term]
      exact hes e he
  have hmid : C.Mid (c.propose n e) n { s with log := (s.log ++ L) ++ [e] } := by
    refine hc.disk hstep hc.term hc.vote ?_ id ?_ ?_
    · show Function.update c.log n (c.log n ++ [e]) n = _
      rw [Function.update_self, hc.log]
    · exact List.take_append_of_le_length hc.commit.1
    · intro hr p hp
      obtain ⟨h1, h2⟩ := hc.window hr p hp
      have h3 := (List.prefix_append (s.log ++ L) [e]).length_le
      exact ⟨h1, h2.trans (Nat.succ_le_succ h3)⟩
  refine ⟨c.propose n e, .inr hstep, hmid, hac.trans (le_of_step hstep), hmid, L ++ [e], ?_⟩
  exact congrArg (fun l => ({ s with log := l } : RaftCore)) (List.append_assoc s.log L [e])

/-- A leader that has appended entries of its own is again as between two calls. -/
theorem Grew.rest (h : Grew C n a s b t) (hm : C.Mid a n s) (hr : s.role = .leader)
    (hR : C.Rest a n s) : t.role = .leader ∧ C.Rest b n t := by
  obtain ⟨L, rfl⟩ := h.only
  refine ⟨hr, rest_of_lead hr (((hR.lead hr).mono h.le).congr rfl rfl) ?_ ?_⟩
  · exact fun hL => h.le.leader (hR.led hL)
  · show s.sm = (s.log ++ L).take s.lastApplied
    rw [List.take_append_of_le_length (hm.applied.trans hm.commit.1)]
    exact hR.sm

theorem Advanced.rest (h : Advanced C n a s b t) (hr : s.role = .leader) (hR : C.Rest a n s) :
    t.role = .leader ∧ C.Rest b n t := by
  obtain ⟨c, m, o, k, rfl⟩ := h.only
  exact ⟨hr, rest_of_lead hr h.lead (fun hL => h.le.leader (hR.led hL)) h.sm⟩

/-- What follows the append of a proposal: the commit rule and a broadcast. -/
theorem meets_replicate {α : Type} {v : α} (h : Serves C K n) (hm : C.Mid a n s)
    (hr : s.role = .leader) (hR : C.Rest a n s) :
    Meets (C.contract n) a s
      (do advanceCommit K; K.peers.forM (sendAppendEntries K); armHeartbeat K; pure v)
      (fun _ => Done C n) := by
  refine meets_bind (meets_mono (meets_advanceCommit h hm (hR.lead hr) hR.sm) fun _ b t hb => ?_)
  obtain ⟨hr', hR'⟩ := hb.rest hr hR
  have hbr := meets_broadcast_arm h hb.mid hr' hR'
  rw [← bind_assoc]
  exact meets_bind (meets_mono hbr fun _ b t hd => meets_pure hd)

theorem meets_propose (h : Serves C K n) (hm : C.Mid a n s) (hR : C.Rest a n s)
    (command : Bytes) : Meets (C.contract n) a s (propose K command) (fun _ => Done C n) := by
  refine meets_read_bind (meets_ite (fun _ => meets_pure ⟨hm, hR⟩) fun hr => ?_)
  rw [not_not] at hr
  refine meets_bind (meets_mono (meets_append_own hm (hR.lead hr) ?_) fun _ b t hb => ?_)
  · intro e he
    rw [List.mem_singleton.mp he]
  · obtain ⟨hr', hR'⟩ := hb.rest hm hr hR
    exact meets_read_bind (meets_replicate h hb.mid hr' hR')

theorem meets_proposeBatch (h : Serves C K n) (hm : C.Mid a n s) (hR : C.Rest a n s)
    (commands : List Bytes) :
    Meets (C.contract n) a s (proposeBatch K commands) (fun _ => Done C n) := by
  refine meets_read_bind (meets_ite (fun _ => meets_pure ⟨hm, hR⟩) fun hne => ?_)
  have hr : s.role = .leader := not_not.mp fun hr => hne (.inr hr)
  refine meets_bind (meets_mono (meets_append_own hm (hR.lead hr) ?_) fun _ b t hb => ?_)
  · intro e he
    obtain ⟨c, -, rfl⟩ := List.mem_map.mp he
    rfl
  · obtain ⟨hr', hR'⟩ := hb.rest hm hr hR
    exact meets_read_bind (meets_replicate h hb.mid hr' hR')

/-! ## 3. Replies -/

/-- The search for the conflicting term reads inside the log. -/
theorem meets_lastOfTerm {c i : ℕ} {Q : ℕ → Abs → RaftCore → Prop} (hi : i ≤ s.log.length)
    (hQ : ∀ v, Q v a s) : Meets (C.contract n) a s (lastOfTerm c i) Q := by
  induction i with
  | zero => exact meets_pure (hQ 0)
  | succ i ih =>
      refine meets_bind (meets_termAt hi ?_)
      exact meets_ite (fun _ => meets_pure (hQ _)) fun _ => ih (by omega)

theorem meets_hintedNext {r : AppendEntriesReply} {Q : ℕ → Abs → RaftCore → Prop}
    (hQ : ∀ v, Q v a s) : Meets (C.contract n) a s (hintedNext r) Q := by
  refine meets_ite (fun _ => meets_pure (hQ _)) fun _ => ?_
  refine meets_read_bind (meets_bind (meets_lastOfTerm (Nat.le_refl _) fun v => ?_))
  exact meets_pure (hQ _)

theorem getD_insert_ne {m : IndexMap} {k q : NodeId} {v : ℕ} (hq : q ≠ k) :
    (m.insert k v).getD q 0 = m.getD q 0 := by
  rw [IndexMap.getD_insert, if_neg hq.symm]

/-- **A reply moves the window of its sender only.** -/
theorem window_of_peer (hw : C.Window n s) (p : NodeId) {M N : IndexMap}
    (hM : ∀ q, q ≠ p → M.getD q 0 = s.matchIndex.getD q 0)
    (hN : ∀ q, q ≠ p → N.getD q 0 = s.nextIndex.getD q 0)
    (hp : M.getD p 0 < N.getD p 0 ∧ N.getD p 0 ≤ s.log.length + 1) :
    C.Window n { s with matchIndex := M, nextIndex := N } := by
  intro hr q hq
  by_cases hqp : q = p
  · rw [hqp]
    exact hp
  · show M.getD q 0 < N.getD q 0 ∧ N.getD q 0 ≤ s.log.length + 1
    rw [hM q hqp, hN q hqp]
    exact hw hr q hq

theorem Lead.ack (h : C.Lead a n s) (hp : p ∈ C.peers n) {k : ℕ}
    (hk : a.acked p s.currentTerm k) (next : IndexMap) :
    C.Lead a n { s with matchIndex := s.matchIndex.insert p k, nextIndex := next } where
  won := h.won
  keys q hq := by
    rcases (IndexMap.mem_insert _ _ _ _).mp hq with rfl | hq
    · exact hp
    · exact h.keys q hq
  acked q := by
    show (s.matchIndex.insert p k).getD q 0 = 0 ∨
      a.acked q s.currentTerm ((s.matchIndex.insert p k).getD q 0)
    rw [IndexMap.getD_insert]
    by_cases hpq : p = q
    · rw [if_pos hpq, ← hpq]
      exact .inr hk
    · rw [if_neg hpq]
      exact h.acked q

/-- The leader sends to the peer again, and is done. -/
theorem meets_resend (h : Serves C K n) (hm : C.Mid a n s) (hr : s.role = .leader)
    (hR : C.Rest a n s) (hp : p ∈ C.peers n) :
    Meets (C.contract n) a s (sendAppendEntries K p) (fun _ => Done C n) := by
  have hl := hR.lead hr
  refine meets_mono (meets_sendAppendEntries h hm hr hl hp) fun _ b t hb => ?_
  obtain ⟨o, rfl⟩ := hb.only
  refine ⟨hb.mid, rest_of_lead hr ((hl.mono hb.frame.toLe).congr rfl rfl) ?_ hR.sm⟩
  exact fun hL => hb.frame.leader (hR.led hL)

theorem meets_onAppendEntriesReply (h : Serves C K n) (hm : C.Mid a n s) (hR : C.Rest a n s)
    (hp : p ∈ C.peers n) {r : AppendEntriesReply} (hmsg : C.MsgOk a p n (.appendEntriesReply r)) :
    Meets (C.contract n) a s (onAppendEntriesReply K p r) (fun _ => Done C n) := by
  refine meets_read_bind (meets_ite (fun _ => meets_pure ⟨hm, hR⟩) fun hr => ?_)
  rw [not_not] at hr
  refine meets_ite (fun _ => meets_pure ⟨hm, hR⟩) fun hT => ?_
  rw [not_not] at hT
  have hl := hR.lead hr
  obtain ⟨hlt, hle⟩ := hm.window hr p hp
  refine meets_ite (fun hs => ?_) fun _ => ?_
  · have hack : a.acked p s.currentTerm r.conflictIndex := by
      rw [← hT]
      exact hmsg hs
    have hlen : r.conflictIndex ≤ s.log.length := by
      have hk := hm.inv.ack.acked_len hack
      rw [hl.log hm] at hk
      exact hk
    refine meets_ite (fun hgt => absurd hlen (Nat.not_le.mpr hgt)) fun _ => ?_
    refine meets_when (fun _ => ?_) fun _ => ⟨hm, hR⟩
    have hw : C.Window n { s with
        matchIndex := s.matchIndex.insert p r.conflictIndex
        nextIndex := s.nextIndex.insert p (r.conflictIndex + 1) } := by
      refine window_of_peer hm.window p (fun _ => getD_insert_ne) (fun _ => getD_insert_ne) ?_
      rw [Std.ExtTreeMap.getD_insert_self, Std.ExtTreeMap.getD_insert_self]
      exact ⟨Nat.lt_succ_self _, Nat.succ_le_succ hlen⟩
    refine meets_bind (meets_quiet hm ⟨rfl, rfl, rfl, rfl, rfl, rfl, rfl⟩ hw fun b hab hb => ?_)
    have hlb := (hl.mono hab.toLe).ack hp (hab.acked hack)
      (s.nextIndex.insert p (r.conflictIndex + 1))
    refine meets_bind (meets_mono (meets_advanceCommit h hb hlb hR.sm) fun _ c t hc => ?_)
    obtain ⟨hr', hR'⟩ := hc.rest hr (rest_of_lead hr hlb (fun hL => hab.leader (hR.led hL)) hR.sm)
    refine meets_read_bind (meets_when (fun _ => ?_) fun _ => ⟨hc.mid, hR'⟩)
    exact meets_resend h hc.mid hr' hR' hp
  · refine meets_bind (meets_hintedNext fun ni => ?_)
    -- lowered by the hint, but never to the match index or below
    have hw : C.Window n { s with
        nextIndex := s.nextIndex.insert p
          (max (max (min ni (s.nextIndex.getD p 0)) (s.matchIndex.getD p 0 + 1)) 1) } := by
      refine window_of_peer hm.window p (fun _ _ => rfl) (fun _ => getD_insert_ne) ?_
      rw [Std.ExtTreeMap.getD_insert_self]
      omega
    refine meets_bind (meets_quiet hm ⟨rfl, rfl, rfl, rfl, rfl, rfl, rfl⟩ hw fun b hab hb => ?_)
    refine meets_resend h hb hr (rest_of_lead hr ((hl.mono hab.toLe).congr rfl rfl) ?_ hR.sm) hp
    exact fun hL => hab.leader (hR.led hL)

end Rsm.Raft.Cluster
