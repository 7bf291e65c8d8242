/-
  File:      RaftRsm/Raft/Electing.lean
  Subject:   Elections keep the contract: campaigns, votes, wins, and stepping down.

  * `meets_becomeLeader` -- a candidate that counts a majority wins its term; the win is on record
    with the log it had;
  * `meets_startElection`, `meets_onRequestVote`, `meets_onRequestVoteReply` -- a vote is on
    disk before any message speaks of it;
  * `meets_liftTerm` -- after the universal term rule no message is ahead of the core's term.
-/
import RaftRsm.Raft.Leading

namespace Rsm.Raft.Cluster

open Rsm.Rpc Rsm.Storage Process Replication

variable {C : Cluster} {K : Ctx} {a b : Abs} {n p : NodeId} {s t : RaftCore}

/-! ## 1. Small writes -/

theorem Rest.emit (h : C.Rest a n s) (o : List Output) : C.Rest a n { s with out := o } where
  cand hr := (h.cand hr).congr rfl rfl rfl
  lead hr := (h.lead hr).congr rfl rfl
  led := h.led
  sm := h.sm

/-- The last line of a call. -/
theorem meets_emit_done {o : Output} (hm : C.Mid a n s) (hR : C.Rest a n s)
    (hw : o.won = none) (ho : C.OutputOk a n o) : Meets (C.contract n) a s (emit o) (fun _ => Done C n) :=
  meets_emit hm hw ho fun _ hab hb => ⟨hb, (hR.frame hab).emit _⟩

theorem meets_resetElectionTimer {Q : Unit → Abs → RaftCore → Prop} (hm : C.Mid a n s)
    (h : ∀ b e r, Frame n a b → C.Mid b n { s with electionDeadline := e, rng := r } →
      Q () b { s with electionDeadline := e, rng := r }) :
    Meets (C.contract n) a s (resetElectionTimer K) Q :=
  meets_quiet hm ⟨rfl, rfl, rfl, rfl, rfl, rfl, rfl⟩ hm.window fun b hab hb => h b _ _ hab hb

theorem Rest.timer (h : C.Rest a n s) (e : Option ℕ) (r : ℕ → ℕ) :
    C.Rest a n { s with electionDeadline := e, rng := r } where
  cand hr := (h.cand hr).congr rfl rfl rfl
  lead hr := (h.lead hr).congr rfl rfl
  led := h.led
  sm := h.sm

/-! ## 2. Stepping down -/

/-- A core that has become a follower, with its term as it was. -/
structure StoodDown (C : Cluster) (n : NodeId) (a : Abs) (s : RaftCore) (b : Abs) (t : RaftCore) :
    Prop where
  frame : Frame n a b
  mid : C.Mid b n t
  only : ∃ h e r o, t = { s with
    role := .follower, heartbeatDeadline := h, electionDeadline := e, rng := r, out := o }

theorem meets_follow (hm : C.Mid a n s) (ev : TransitionEvent) :
    Meets (C.contract n) a s
      (do Prog.write fun s => { s with role := .follower }
          transition ev) (fun _ => StoodDown C n a s) := by
  refine meets_bind (meets_quiet hm ⟨rfl, rfl, rfl, rfl, rfl, rfl, rfl⟩ (fun hr => by cases hr) ?_)
  intro b hab hb
  refine meets_read_bind (meets_emit hb rfl (fun hr => by cases hr) fun c hbc hc => ?_)
  exact ⟨hab.trans hbc, hc, _, _, _, _, rfl⟩

/-- The second half of `becomeFollower`: a leader arms its timers, then the role changes. -/
theorem meets_stepDown (hm : C.Mid a n s) (ev : TransitionEvent) :
    Meets (C.contract n) a s
      (do let s ← Prog.read
          Prog.when (s.role = .leader) do
            Prog.write fun s => { s with heartbeatDeadline := none }
            resetElectionTimer K
          Prog.write fun s => { s with role := .follower }
          transition ev) (fun _ => StoodDown C n a s) := by
  refine meets_read_bind (meets_bind (meets_when (fun _ => ?_) fun _ => meets_follow hm ev))
  refine meets_bind (meets_quiet hm ⟨rfl, rfl, rfl, rfl, rfl, rfl, rfl⟩ hm.window fun b hab hb => ?_)
  refine meets_resetElectionTimer hb fun c e r hbc hc => ?_
  refine meets_mono (meets_follow hc ev) fun _ d t hd => ?_
  obtain ⟨_, _, _, o, rfl⟩ := hd.only
  exact ⟨(hab.trans hbc).trans hd.frame, hd.mid, _, _, _, _, rfl⟩

/-- A follower that knows no leader. -/
theorem rest_of_follower (hr : s.role = .follower)
    (hled : ∀ {l}, s.leaderId = some l → a.leader s.currentTerm = some l)
    (hsm : s.sm = s.log.take s.lastApplied) : C.Rest a n s where
  cand hc := by rw [hr] at hc; cases hc
  lead hc := by rw [hr] at hc; cases hc
  led := hled
  sm := hsm

/-- **A candidate that hears from the leader of its term follows it.** -/
theorem meets_becomeFollower_same (hm : C.Mid a n s) (ev : TransitionEvent) :
    Meets (C.contract n) a s (becomeFollower K s.currentTerm ev) (fun _ => StoodDown C n a s) := by
  refine meets_read_bind (meets_bind (meets_when (fun hT => ?_) fun _ => meets_stepDown hm ev))
  exact absurd hT (Nat.lt_irrefl _)

/-- **A core that sees a higher term moves to it.** -/
theorem meets_becomeFollower_higher (hm : C.Mid a n s) (hsm : s.sm = s.log.take s.lastApplied)
    {T : ℕ} (hT : s.currentTerm < T) (ev : TransitionEvent) :
    Meets (C.contract n) a s (becomeFollower K T ev)
      (fun _ b t => Le a b ∧ Done C n b t ∧ T ≤ t.currentTerm) := by
  refine meets_read_bind (meets_bind (meets_when (fun _ => ?_) fun hn => absurd hT hn))
  refine meets_bind (meets_act hm ⟨Nat.le_refl _, Nat.le_refl _, rfl, List.prefix_refl _⟩ ?_)
  intro b hab hb
  have hstep : Step C.setting n b (b.observe n T) := Step.observe b T (by rw [hb.term]; exact hT)
  have hmid : C.Mid (b.observe n T) n { s with currentTerm := T, votedFor := none } :=
    hb.disk hstep (Function.update_self ..) (Function.update_self ..) hb.log id rfl hb.window
  refine ⟨_, .inr hstep, hmid, ?_⟩
  refine meets_quiet hmid ⟨rfl, rfl, rfl, rfl, rfl, rfl, rfl⟩ hmid.window fun c hbc hc => ?_
  refine meets_mono (meets_stepDown hc ev) fun _ d t hd => ?_
  have hle := ((hab.toLe.trans (le_of_step hstep)).trans hbc.toLe).trans hd.frame.toLe
  obtain ⟨_, _, _, _, rfl⟩ := hd.only
  exact ⟨hle, ⟨hd.mid, rest_of_follower rfl (fun hl => by cases hl) hsm⟩, Nat.le_refl _⟩

/-- **The universal term rule.** -/
theorem meets_liftTerm (hm : C.Mid a n s) (hR : C.Rest a n s) (m : Message) :
    Meets (C.contract n) a s (liftTerm K m)
      (fun _ b t => Le a b ∧ Done C n b t ∧ ∀ T, termOf m = some T → T ≤ t.currentTerm) := by
  refine meets_read_bind ?_
  cases hm' : termOf m with
  | none => exact meets_pure ⟨Le.refl a, ⟨hm, hR⟩, fun T hT => by cases hT⟩
  | some T =>
      refine meets_when (fun hT => ?_) fun hT => ⟨Le.refl a, ⟨hm, hR⟩, fun U hU => ?_⟩
      · refine meets_mono (meets_becomeFollower_higher hm hR.sm hT _) fun _ b t hb => ?_
        refine ⟨hb.1, hb.2.1, fun U hU => ?_⟩
        rw [← Option.some.inj hU]
        exact hb.2.2
      · rw [← Option.some.inj hU]
        exact Nat.not_lt.mp hT

/-! ## 3. Winning -/

theorem indexAll_getD (peers : List NodeId) (i : ℕ) (p : NodeId) :
    (indexAll peers i).getD p 0 = if p ∈ peers then i else 0 := by
  have key : ∀ (l : List NodeId) (m : IndexMap), (l.foldl (fun m p => m.insert p i) m).getD p 0 =
      if p ∈ l then i else m.getD p 0 := by
    intro l
    induction l with
    | nil => exact fun m => rfl
    | cons q l ih =>
        intro m
        rw [List.foldl_cons, ih, IndexMap.getD_insert]
        by_cases hl : p ∈ l
        · rw [if_pos hl, if_pos (List.mem_cons_of_mem q hl)]
        · by_cases hq : q = p
          · rw [if_neg hl, if_pos hq, if_pos (hq ▸ List.mem_cons_self)]
          · rw [if_neg hl, if_neg hq, if_neg (by simp [hl, Ne.symm hq])]
  exact key peers ∅

theorem mem_indexAll {peers : List NodeId} {i : ℕ} {p : NodeId} (h : p ∈ indexAll peers i) :
    p ∈ peers := by
  have key : ∀ (l : List NodeId) (m : IndexMap), p ∈ l.foldl (fun m p => m.insert p i) m →
      p ∈ l ∨ p ∈ m := by
    intro l
    induction l with
    | nil => exact fun m hm => .inr hm
    | cons q l ih =>
        intro m hm
        rcases ih _ hm with hl | hm
        · exact .inl (List.mem_cons_of_mem q hl)
        · rcases (IndexMap.mem_insert _ _ _ _).mp hm with rfl | hm
          · exact .inl List.mem_cons_self
          · exact .inr hm
  exact (key peers ∅ h).resolve_right Std.ExtTreeMap.not_mem_empty

/-- **A candidate with a majority of votes may win**: nobody else has won its term. -/
theorem step_win (h : Serves C K n) (hm : C.Mid a n s) (hc : C.Cand a n s)
    (hv : K.majority ≤ s.votesFrom.card) : Step C.setting n a (a.win n) := by
  have hq : C.setting.Quorum s.votesFrom := by
    refine ⟨fun v hv => (hc.votes v hv).1, ?_⟩
    have hcard := h.card
    unfold Ctx.majority at hv
    omega
  have hvotes : ∀ v ∈ s.votesFrom, ∃ L, a.voted v (a.term n) n L := by
    rw [hm.term]
    exact fun v hv => (hc.votes v hv).2
  refine Step.win a s.votesFrom hq hvotes ?_ ?_
  · rw [hm.term, hm.log]
    exact hc.cand
  · cases hl : a.leader (a.term n) with
    | none => rfl
    | some l =>
        have hln := hm.inv.elect.leader_eq_of_votes hq hvotes hl
        rw [hln, hm.term] at hl
        exact absurd hl hc.fresh

/-- The win is on record from the moment it happens. -/
theorem Mid.win (h : C.Mid a n s) (hst : Step C.setting n a (a.win n))
    (hfresh : a.leader s.currentTerm ≠ some n) :
    C.Mid (a.win n) n
      { s with out := s.out ++ [.transition s.currentTerm .leader .wonElection s.log] } where
  inv := inv_step h.inv hst
  term := h.term
  vote := h.vote
  log := h.log
  out o ho := by
    rcases List.mem_append.mp ho with ho | ho
    · exact (h.out o ho).mono h.inv.ack (le_of_step hst)
    · rw [List.mem_singleton.mp ho]
      intro _
      show Function.update a.leader (a.term n) (some n) s.currentTerm = some n ∧
        Function.update a.elog (a.term n) (a.log n) s.currentTerm = s.log
      rw [h.term, Function.update_self, Function.update_self]
      exact ⟨rfl, h.log⟩
  won {T} hl := by
    by_cases hT : T = s.currentTerm
    · rw [hT]
      exact ⟨s.log, List.mem_append_right _ List.mem_cons_self⟩
    · have hl' : a.leader T = some n := by
        rw [← hl]
        show a.leader T = Function.update a.leader (a.term n) (some n) T
        rw [h.term, Function.update_of_ne hT]
      obtain ⟨L, hL⟩ := h.won hl'
      exact ⟨L, List.mem_append_left _ hL⟩
  once := by
    rw [List.filterMap_append]
    refine h.once.append (List.nodup_singleton _) fun T hT hnew => ?_
    obtain rfl : T = s.currentTerm := List.mem_singleton.mp hnew
    exact hfresh (h.led_of_won hT)
  commit := h.commit.mono h.inv.ack (le_of_step hst) (Nat.le_refl _)
  applied := h.applied
  sm := h.sm
  window := h.window

theorem meets_becomeLeader (h : Serves C K n) (hm : C.Mid a n s) (hc : C.Cand a n s)
    (hsm : s.sm = s.log.take s.lastApplied) (hv : K.majority ≤ s.votesFrom.card) :
    Meets (C.contract n) a s (becomeLeader K) (fun _ => Done C n) := by
  have hw : C.Window n { s with
      role := .leader, leaderId := some K.self
      nextIndex := indexAll K.peers (s.log.lastIndex + 1), matchIndex := indexAll K.peers 0
      electionDeadline := none } := by
    intro _ p hp
    show (indexAll K.peers 0).getD p 0 < (indexAll K.peers (s.log.length + 1)).getD p 0 ∧
      (indexAll K.peers (s.log.length + 1)).getD p 0 ≤ s.log.length + 1
    rw [h.peers, indexAll_getD, indexAll_getD, if_pos hp, if_pos hp]
    exact ⟨Nat.succ_pos _, Nat.le_refl _⟩
  refine meets_bind (meets_act hm
    ⟨Nat.le_refl _, Nat.le_refl _, rfl, List.prefix_append _ _⟩ fun b hab hb => ?_)
  have hcand := hc.later hab.toLe hab.own_win
  have hstep := step_win h hb hcand hv
  have hrole := (fun hs => hb.same hs hw) ⟨rfl, rfl, rfl, rfl, rfl, rfl, rfl⟩
  have hmid := hrole.win hstep hcand.fresh
  have hled : (b.win n).leader s.currentTerm = some n := by
    rw [← hb.term]
    exact Function.update_self ..
  refine ⟨b.win n, .inr hstep, hmid, ?_⟩
  refine meets_sendHeartbeats h hmid rfl (rest_of_lead rfl ⟨hled, ?_, fun p => .inl ?_⟩ ?_ hsm)
  · intro p hp
    rw [← h.peers]
    exact mem_indexAll hp
  · show (indexAll K.peers 0).getD p 0 = 0
    rw [indexAll_getD, ite_self]
  · intro l hl
    rw [← Option.some.inj hl, h.self]
    exact hled

/-! ## 4. Campaigns and votes -/

/-- A candidate counts its votes. -/
theorem meets_count (h : Serves C K n) (hm : C.Mid a n s) (hr : s.role = .candidate)
    (hc : C.Cand a n s) (hled : ∀ {l}, s.leaderId = some l → a.leader s.currentTerm = some l)
    (hsm : s.sm = s.log.take s.lastApplied) :
    Meets (C.contract n) a s
      (do let s ← Prog.read
          Prog.when (s.votesFrom.card ≥ K.majority) (becomeLeader K)) (fun _ => Done C n) := by
  refine meets_read_bind (meets_when (fun hv => ?_) fun _ => ⟨hm, fun _ => hc, fun hl => ?_, hled, hsm⟩)
  · exact meets_becomeLeader h hm hc hsm hv
  · rw [hr] at hl
    cases hl

/-- What a core is after its candidacy is on disk. -/
theorem cand_of_campaign (h : Serves C K n) (hm : C.Mid a n s) {t : RaftCore}
    (hT : t.currentTerm = s.currentTerm + 1) (hlog : t.log = s.log)
    (hv : t.votesFrom = {K.self}) : C.Cand (a.campaign n) n t := by
  refine ⟨?_, ?_, ?_⟩
  · rw [hT, hlog]
    exact .inr ⟨rfl, by rw [hm.term], hm.log.symm⟩
  · intro hl
    rw [hT] at hl
    have hle := (hm.inv.elect.leader_le hl).2
    rw [hm.term] at hle
    omega
  · intro v hv'
    rw [hv, h.self] at hv'
    rw [Finset.mem_singleton.mp hv', hT]
    exact ⟨h.mem, s.log, .inr ⟨rfl, by rw [hm.term], rfl, hm.log.symm⟩⟩

theorem meets_startElection (h : Serves C K n) (hm : C.Mid a n s)
    (hsm : s.sm = s.log.take s.lastApplied) :
    Meets (C.contract n) a s (startElection K) (fun _ => Done C n) := by
  refine meets_read_bind (meets_bind (meets_act hm
    ⟨Nat.le_refl _, Nat.le_refl _, rfl, List.prefix_refl _⟩ fun b hab hb => ?_))
  have hstep : Step C.setting n b (b.campaign n) := Step.campaign b
  have hmid : C.Mid (b.campaign n) n
      { s with currentTerm := s.currentTerm + 1, votedFor := some K.self } := by
    refine hb.disk hstep ?_ ?_ hb.log id rfl hb.window
    · show Function.update b.term n (b.term n + 1) n = s.currentTerm + 1
      rw [Function.update_self, hb.term]
    · show Function.update b.vote n (some n) n = some K.self
      rw [Function.update_self, h.self]
  refine ⟨b.campaign n, .inr hstep, hmid, ?_⟩
  refine meets_bind (meets_quiet hmid ⟨rfl, rfl, rfl, rfl, rfl, rfl, rfl⟩ (fun hr => by cases hr) ?_)
  intro c hbc hc
  refine meets_bind (meets_resetElectionTimer hc fun d e r hcd hd => ?_)
  refine meets_bind (meets_read_bind (meets_emit hd rfl (fun hr => by cases hr) fun f hdf hf => ?_))
  have hfr := (hbc.trans hcd).trans hdf
  have hcand := (cand_of_campaign h hb rfl rfl rfl : C.Cand (b.campaign n) n
    { s with
      currentTerm := s.currentTerm + 1, votedFor := some K.self, role := .candidate
      leaderId := none, votesFrom := {K.self}, heartbeatDeadline := none }).later hfr.toLe hfr.own_win
  -- the requests carry the candidacy that is on disk
  refine meets_read_bind (meets_bind (meets_mono (meets_forM (sent_refl hf) ?_) ?_))
  · intro p hp g t hg
    obtain ⟨o, rfl⟩ := hg.only
    rw [h.peers] at hp
    have hok : C.OutputOk g n (.send p (.requestVote
        { term := s.currentTerm + 1, candidateId := K.self, lastLogIndex := s.log.lastIndex,
          lastLogTerm := s.log.lastTerm })) := by
      refine ⟨((C.mem_peers h.mem p).mp hp).2, h.self, s.log, ?_, rfl, rfl⟩
      exact hg.frame.cand hcand.cand
    refine meets_emit hg.mid rfl hok fun g' hgg' hg' => ?_
    exact ⟨hg.frame.trans hgg', hg', _, rfl⟩
  · intro _ g t hg
    obtain ⟨o, rfl⟩ := hg.only
    refine meets_count h hg.mid rfl ?_ (fun hl => by cases hl) hsm
    exact (hcand.later hg.frame.toLe hg.frame.own_win).congr rfl rfl rfl

theorem meets_tick (h : Serves C K n) (hm : C.Mid a n s) (hR : C.Rest a n s) :
    Meets (C.contract n) a s (tick K) (fun _ => Done C n) := by
  refine meets_read_bind (meets_ite (fun _ => meets_startElection h hm hR.sm) fun _ => ?_)
  exact meets_when (fun hr => meets_sendHeartbeats h hm hr.1 hR) fun _ => ⟨hm, hR⟩

theorem lastStamp_eq (l : InMemoryLog) : C.setting.lastStamp l = l.lastTerm := by
  unfold Setting.lastStamp InMemoryLog.lastTerm
  cases l.getLast? <;> rfl

/-- **The vote check is the up-to-date order.** -/
theorem upToDate_of_check {L M : InMemoryLog}
    (h : candidateLogAtLeastAsUpToDate L.lastTerm L.length M.lastTerm M.length = true) :
    C.setting.UpToDate L M := by
  unfold Setting.UpToDate
  rw [lastStamp_eq, lastStamp_eq]
  unfold candidateLogAtLeastAsUpToDate at h
  by_cases hne : L.lastTerm ≠ M.lastTerm
  · rw [if_pos hne] at h
    exact .inl (of_decide_eq_true h)
  · rw [if_neg hne] at h
    exact .inr ⟨(not_not.mp hne).symm, of_decide_eq_true h⟩

theorem meets_onRequestVote (hm : C.Mid a n s) (hR : C.Rest a n s)
    (hp : p ≠ n) {rv : RequestVote} (hmsg : C.MsgOk a p n (.requestVote rv))
    (hT : rv.term ≤ s.currentTerm) :
    Meets (C.contract n) a s (onRequestVote K p rv) (fun _ => Done C n) := by
  refine meets_read_bind (meets_ite (fun _ => ?_) fun hge => ?_)
  · exact meets_emit_done hm hR rfl ⟨hp, fun hg => by cases hg⟩
  · have hTe : rv.term = s.currentTerm := by omega
    obtain ⟨hid, L, hcand, hlen, hlast⟩ := hmsg
    rw [hTe] at hcand
    refine meets_bind (meets_when (fun hg => ?_) fun hng => ?_)
    · rw [Bool.and_eq_true, Bool.or_eq_true, beq_iff_eq, beq_iff_eq] at hg
      refine meets_bind (meets_act hm ⟨Nat.le_refl _, Nat.le_refl _, rfl, List.prefix_refl _⟩ ?_)
      intro b hab hb
      have hstep : Step C.setting n b (b.grant n p) := by
        refine Step.grant b p L ?_ ?_ ?_
        · rw [hb.term]
          exact hab.cand hcand
        · rw [hb.vote, ← hid]
          exact hg.2
        · rw [hb.log]
          refine upToDate_of_check ?_
          rw [hlast, hlen]
          exact hg.1
      have hmid : C.Mid (b.grant n p) n { s with votedFor := some rv.candidateId } := by
        refine hb.disk hstep hb.term ?_ hb.log id rfl hb.window
        rw [hid]
        exact Function.update_self ..
      refine ⟨b.grant n p, .inr hstep, hmid, ?_⟩
      refine meets_resetElectionTimer hmid fun c e r hbc hc => ?_
      have hvoted : c.voted n s.currentTerm p (b.log n) :=
        hbc.voted (.inr ⟨rfl, hb.term.symm, rfl, rfl⟩)
      have hRb : C.Rest (b.grant n p) n s := (hR.frame hab).later (le_of_step hstep) id
      have hRv : C.Rest (b.grant n p) n { s with votedFor := some rv.candidateId } :=
        ⟨fun hr => (hRb.cand hr).congr rfl rfl rfl, fun hr => (hRb.lead hr).congr rfl rfl, hRb.led,
          hRb.sm⟩
      exact meets_emit_done hc ((hRv.frame hbc).timer e r) rfl ⟨hp, fun _ => ⟨_, hvoted⟩⟩
    · exact meets_emit_done hm hR rfl ⟨hp, fun hg => absurd hg hng⟩

theorem meets_onRequestVoteReply (h : Serves C K n) (hm : C.Mid a n s) (hR : C.Rest a n s)
    (hp : p ∈ C.ids) {r : RequestVoteReply} (hmsg : C.MsgOk a p n (.requestVoteReply r)) :
    Meets (C.contract n) a s (onRequestVoteReply K p r) (fun _ => Done C n) := by
  refine meets_read_bind (meets_when (fun hr => ?_) fun _ => ⟨hm, hR⟩)
  obtain ⟨hr, hT, hg⟩ := hr
  refine meets_bind (meets_quiet hm ⟨rfl, rfl, rfl, rfl, rfl, rfl, rfl⟩ (fun hl => ?_) fun b hab hb => ?_)
  · have hl' : s.role = .leader := hl
    rw [hr] at hl'
    cases hl'
  · have hc := (hR.cand hr).later hab.toLe hab.own_win
    refine meets_count h hb hr ⟨hc.cand, hc.fresh, fun v hv => ?_⟩ ?_ hR.sm
    · rcases Finset.mem_insert.mp hv with rfl | hv
      · obtain ⟨L, hL⟩ := hmsg hg
        refine ⟨hp, L, hab.voted ?_⟩
        show a.voted v s.currentTerm n L
        rw [← hT]
        exact hL
      · exact hc.votes v hv
    · exact fun hl => hab.leader (hR.led hl)

end Rsm.Raft.Cluster
