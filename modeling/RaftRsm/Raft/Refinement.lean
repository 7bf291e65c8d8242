/-
  File:      RaftRsm/Raft/Refinement.lean
  Subject:   **THE CLUSTER REFINES THE REPLICATED LOG**: along every run of the cluster, crashes
             included, an abstract state explains every core at every moment.

  * `meets_step` -- every call a node may get keeps its contract;
  * `simulation` -- so the cluster is a simulation of the abstract machine;
  * `explained` -- the abstract state of a reachable world, and `explained_later` -- how it moves
    on. All safety results of the cluster are read off these two.
-/
import RaftRsm.Raft.Following

namespace Rsm.Raft.Cluster

open Rsm.Rpc Rsm.Storage Process Replication

variable {C : Cluster} {K : Ctx} {a b : Abs} {n p : NodeId} {s t : RaftCore}

/-- **A message that reads correctly is handled.** -/
theorem meets_dispatch (h : Serves C K n) (hd : Done C n a s) (hp : p ∈ C.ids) (hpn : p ≠ n)
    {m : Message} (hmsg : C.MsgOk a p n m) (hT : ∀ T, termOf m = some T → T ≤ s.currentTerm) :
    Meets (C.contract n) a s (dispatch K p m) (fun _ => Done C n) := by
  have hpeer : p ∈ C.peers n := (C.mem_peers h.mem p).mpr ⟨hp, hpn⟩
  cases m with
  | requestVote rv => exact meets_onRequestVote hd.mid hd.rest hpn hmsg (hT _ rfl)
  | requestVoteReply r => exact meets_onRequestVoteReply h hd.mid hd.rest hp hmsg
  | appendEntries ae => exact meets_onAppendEntries hd.mid hd.rest hpn hmsg (hT _ rfl)
  | appendEntriesReply r => exact meets_onAppendEntriesReply h hd.mid hd.rest hpeer hmsg
  | clientRequest req =>
      exact meets_when (fun _ => meets_emit_done hd.mid hd.rest rfl trivial) fun _ => hd
  | clientReply rep => exact meets_pure hd

/-- A client message is handed to the client layer or dropped. -/
theorem meets_dispatch_client (hd : Done C n a s) {m : Message} (hm : termOf m = none) :
    Meets (C.contract n) a s (dispatch K p m) (fun _ => Done C n) := by
  cases m with
  | clientRequest req =>
      exact meets_when (fun _ => meets_emit_done hd.mid hd.rest rfl trivial) fun _ => hd
  | clientReply rep => exact meets_pure hd
  | _ => cases hm

/-- **Every call that may be put to a node keeps its contract.** -/
theorem meets_step {x : NodeId → RaftCore} (h : Serves C K n) (hx : ∀ m, C.Mid a m (x m))
    (hR : C.Rest a n (x n)) {i : Input} (hi : C.Allowed x n i) :
    Meets (C.contract n) a (x n) (step K i) (fun _ => Done C n) := by
  have hm := hx n
  cases i with
  | start => exact meets_resetElectionTimer hm fun b e r hab hb => ⟨hb, (hR.frame hab).timer e r⟩
  | tick => exact meets_tick h hm hR
  | handle p m =>
      refine meets_bind (meets_mono (meets_liftTerm hm hR m) fun _ b t hb => ?_)
      obtain ⟨hab, hd, hT⟩ := hb
      rcases hi with ⟨hp, hsent⟩ | hclient
      · obtain ⟨hne, hmsg⟩ := (hx p).out _ hsent
        exact meets_dispatch h hd hp hne.symm (hmsg.mono hm.inv.ack hab) hT
      · exact meets_dispatch_client hd hclient
  | propose c =>
      exact meets_bind (meets_mono (meets_propose h hm hR c) fun _ b t hd => meets_pure hd)
  | proposeBatch cs =>
      exact meets_bind (meets_mono (meets_proposeBatch h hm hR cs) fun _ b t hd => meets_pure hd)
  | pumpApply =>
      refine meets_mono (meets_applyCommitted hm hR.sm) fun _ b t hb => ⟨hb.mid, ?_⟩
      obtain ⟨m, o, k, rfl⟩ := hb.only
      have hRb := hR.frame hb.frame
      exact ⟨fun hr => (hRb.cand hr).congr rfl rfl rfl, fun hr => (hRb.lead hr).congr rfl rfl,
        hRb.led, hb.sm⟩

/-- **A restart keeps the reading**: all that is lost is volatile. -/
theorem restart_ok (h : C.Mid a n s) (rng : ℕ → ℕ) :
    C.Mid a n (s.restart rng) ∧ C.Rest a n (s.restart rng) := by
  refine ⟨⟨h.inv, h.term, h.vote, h.log, h.out, h.won, h.once, covered_zero, Nat.le_refl _,
    List.nil_prefix, fun hr => by cases hr⟩, ?_⟩
  exact rest_of_follower rfl (fun hl => by cases hl) rfl

theorem init_ok (C : Cluster) (n : NodeId) :
    C.Mid State.zero n (C.system.init n) ∧ C.Rest State.zero n (C.system.init n) := by
  refine ⟨⟨inv_zero, rfl, rfl, rfl, (fun _ ho => by cases ho), (fun hl => by cases hl), List.nodup_nil,
    covered_zero, Nat.le_refl _, List.nil_prefix, fun hr => by cases hr⟩, ?_⟩
  exact rest_of_follower rfl (fun hl => by cases hl) rfl

/-- **The cluster simulates the replicated log.** -/
def simulation (C : Cluster) : Simulation C.system Abs where
  C := C.contract
  idle n a s := C.Rest a n s
  zero := State.zero
  rely_refl n a := ⟨Frame.refl n a, id⟩
  rely_trans n := fun h k => ⟨h.1.trans k.1, fun hI => k.2 (h.2 hI)⟩
  guar_rely {n m a b} hmn h := by
    rcases h with rfl | h
    · exact ⟨Frame.refl m a, id⟩
    · exact ⟨frame_of_step h hmn, fun hI => inv_step hI h⟩
  mid_rely h hm := hm.frame h.1 (h.2 hm.inv)
  idle_rely h hR := hR.frame h.1
  init_ok n := init_ok C n
  begins_ok {a x n l} hx hR hb := by
    obtain ⟨hn, K, i, hself, hpeers, hi, rfl⟩ := hb
    exact plan_mono (fun _ _ hd => hd.rest) (meets_step ⟨hn, hself, hpeers⟩ hx hR hi)
  restart_ok h hr := by
    obtain ⟨-, rng, rfl⟩ := hr
    exact restart_ok h rng

/-- The abstract state `a` explains the world `w`. -/
abbrev Explains (C : Cluster) (a : Abs) (w : World) : Prop := (simulation C).Holds a w

/-- **Every reachable world is explained.** -/
theorem explained {w : World} (h : C.system.Reachable w) : ∃ a, C.Explains a w := by
  obtain ⟨a, -, ha⟩ := Simulation.holds_reachable (I := simulation C) h
  exact ⟨a, ha⟩

/-- **A later world is explained by a later abstract state.** -/
theorem explained_later {w w' : World} (h : C.Explains a w) (hr : C.system.Reach w w') :
    ∃ b, Le a b ∧ C.Explains b w' := by
  obtain ⟨b, hab, hb⟩ := Simulation.holds_reach h hr
  refine ⟨b, ?_, hb⟩
  clear hb hr h
  induction hab with
  | refl => exact Le.refl a
  | tail _ hs ih =>
      obtain ⟨n, hs⟩ := hs
      rcases hs with rfl | hs
      · exact ih
      · exact ih.trans (le_of_step hs)

theorem Explains.mid {w : World} (h : C.Explains a w) (n : NodeId) : C.Mid a n (w.cur n) :=
  Simulation.Holds.mid h n

theorem Explains.rest {w : World} (h : C.Explains a w) {n : NodeId} (hn : w.Idle n) :
    C.Rest a n (w.cur n) := Simulation.Holds.idle h hn

end Rsm.Raft.Cluster
