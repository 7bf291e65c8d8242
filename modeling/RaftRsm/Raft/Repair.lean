/-
  File:      RaftRsm/Raft/Repair.lean
  Subject:   REPAIR ENDS: a leader and a peer that only exchange AppendEntries and replies come
             to rest, whatever was in flight between them.

  A rejected AppendEntries carries back a hint, and the retry it triggers may be rejected again.
  What makes this end is a measure over everything in flight. Its core is `hintNext_le`: a hint
  never points above the point that was rejected. The hint names a term of the FOLLOWER; if the
  leader had that term above the probe, both logs would have it from one leader, and the probe
  would have matched.

  * `Delivery` -- one message between the two is delivered, and its answers are in flight;
  * `repair_progress` -- every sequence of deliveries is finite; a retry goes down or starts at
    the match index, where it is not rejected; a success reply sends only if it raised the match.
-/
import RaftRsm.Raft.Answers
import RaftRsm.Raft.Safety
import Mathlib.Algebra.BigOperators.Group.Multiset.Basic
import Mathlib.Algebra.Order.BigOperators.Group.Multiset
import Mathlib.Algebra.Order.Group.Nat

namespace Rsm.Raft.Cluster

open Rsm.Rpc Rsm.Storage Process Replication

variable {C : Cluster} {w w' : World} {l p : NodeId}

/-! ## 1. Hints -/

theorem lastIndexOf_spec (L : InMemoryLog) (c : ℕ) : ∀ i, lastIndexOf L c i ≠ 0 →
    ∃ j, lastIndexOf L c i = j + 1 ∧ j < i ∧ L.termAt (j + 1) = c
  | 0, h => absurd rfl h
  | i + 1, h => by
      unfold lastIndexOf at h ⊢
      by_cases hc : L.termAt (i + 1) = c
      · rw [if_pos hc]
        exact ⟨i, rfl, Nat.lt_succ_self i, hc⟩
      · rw [if_neg hc] at h ⊢
        obtain ⟨j, h1, h2, h3⟩ := lastIndexOf_spec L c i h
        exact ⟨j, h1, Nat.lt_succ_of_lt h2, h3⟩

/-- **A hint points below the rejected probe.** `M` is the follower's log, `L` the leader's. -/
theorem hintNext_le {a : Abs} {b c T first k : ℕ} {L M : InMemoryLog}
    (hM : Grown C.setting a b M) (hL : Grown C.setting a c L) (hkM : k ≤ M.length)
    (hkL : k ≤ L.length) (hne : M.termAt k ≠ L.termAt k) (hf : first ≤ k) :
    hintNext L ⟨T, false, first, M.termAt k⟩ ≤ k := by
  cases k with
  | zero => exact absurd rfl hne
  | succ k =>
      obtain ⟨e, he⟩ : ∃ e, M[k]? = some e := ⟨_, List.getElem?_eq_getElem hkM⟩
      rw [InMemoryLog.termAt_succ he] at hne ⊢
      have he1 : 1 ≤ e.term := (hM k e he).1
      unfold hintNext
      rw [if_neg (show ¬ e.term = 0 by omega)]
      by_cases h0 : lastIndexOf L e.term L.lastIndex ≠ 0
      · rw [if_pos h0]
        obtain ⟨j, hj, hjlt, hjT⟩ := lastIndexOf_spec L e.term _ h0
        rw [hj]
        obtain ⟨f, hfj⟩ : ∃ f, L[j]? = some f := ⟨_, List.getElem?_eq_getElem hjlt⟩
        rw [InMemoryLog.termAt_succ hfj] at hjT
        rcases Nat.lt_or_ge j k with hlt | hge
        · omega
        · -- the leader would hold the follower's entry at the probe
          have hk := hM.below hL he hfj hge hjT.symm
          rw [InMemoryLog.termAt_succ hk] at hne
          exact absurd rfl hne
      · rw [if_neg h0]
        exact hf

/-! ## 2. A peer of the leader's term -/

/-- A leader and one of its peers, both between two calls. -/
structure Pair (C : Cluster) (w : World) (l p : NodeId) : Prop where
  reachable : C.system.Reachable w
  mem : l ∈ C.ids
  peer : p ∈ C.peers l
  idle_l : w.Idle l
  idle_p : w.Idle p
  lead : (w.cur l).role = .leader

theorem Pair.ne (h : Pair C w l p) : p ≠ l := ((C.mem_peers h.mem p).mp h.peer).2

/-- The peer does not lead the leader's term. -/
theorem Pair.not_leader (h : Pair C w l p)
    (hT : (w.cur p).currentTerm = (w.cur l).currentTerm) : (w.cur p).role ≠ .leader := by
  intro hr
  obtain ⟨a, ha⟩ := explained h.reachable
  have h1 := ((ha.rest h.idle_l).lead h.lead).won
  have h2 := ((ha.rest h.idle_p).lead hr).won
  rw [hT, h1] at h2
  exact h.ne (Option.some.inj h2).symm

/-- What the peer's log and an AppendEntries of this term have to do with each other: the request is
    about the leader's log. -/
theorem Pair.request (h : Pair C w l p) {ae : AppendEntries}
    (hsent : Output.send p (.appendEntries ae) ∈ (w.cur l).out)
    (hT : ae.term = (w.cur l).currentTerm) :
    ae.prevLogIndex ≤ (w.cur l).log.length ∧
      ae.prevLogTerm = (w.cur l).log.termAt ae.prevLogIndex := by
  obtain ⟨a, ha⟩ := explained h.reachable
  have hae : C.AeOk a l ae := ((ha.mid l).out _ hsent).2
  have hlog := ((ha.rest h.idle_l).lead h.lead).log (ha.mid l)
  have hlen := hae.len
  have hprev := hae.prev
  rw [hT, hlog] at hlen hprev
  exact ⟨by omega, hprev⟩

/-- **Up to the match index nothing is rejected.** -/
theorem Pair.accepts (h : Pair C w l p)
    (hTp : (w.cur p).currentTerm = (w.cur l).currentTerm) {ae : AppendEntries}
    (hsent : Output.send p (.appendEntries ae) ∈ (w.cur l).out)
    (hT : ae.term = (w.cur l).currentTerm)
    (hk : ae.prevLogIndex ≤ (w.cur l).matchIndex.getD p 0) :
    ae.prevLogIndex ≤ (w.cur p).log.lastIndex ∧
      (w.cur p).log.termAt ae.prevLogIndex = ae.prevLogTerm := by
  obtain ⟨a, ha⟩ := explained h.reachable
  have hlead := (ha.rest h.idle_l).lead h.lead
  rw [(h.request hsent hT).2]
  rcases hlead.acked p with h0 | hack
  · rw [h0] at hk
    rw [Nat.le_zero.mp hk]
    exact ⟨Nat.zero_le _, rfl⟩
  · have hlen := (ha.mid l).inv.ack.acked_len hack
    have hheld := acked_held (ha.mid l).inv hack ((ha.mid p).term.trans hTp)
    rw [hlead.log (ha.mid l)] at hlen hheld
    rw [(ha.mid p).log] at hheld
    have hpl := hheld.length_le
    rw [List.length_take, Nat.min_eq_left hlen] at hpl
    refine ⟨hk.trans hpl, InMemoryLog.termAt_of_take ?_⟩
    have htake := List.prefix_iff_eq_take.mp hheld
    rw [List.length_take, Nat.min_eq_left hlen] at htake
    have h1 := congrArg (List.take ae.prevLogIndex) htake
    rw [List.take_take, List.take_take, Nat.min_eq_left hk] at h1
    exact h1.symm

/-- **The hint of a rejection stays below the probe**, on the leader's log then and later. -/
theorem Pair.hint (h : Pair C w l p) {ae : AppendEntries}
    (hsent : Output.send p (.appendEntries ae) ∈ (w.cur l).out)
    (hT : ae.term = (w.cur l).currentTerm) {ms : List (NodeId × Message)}
    (hans : CheckAnswer (w.cur p) l ae ms) {r : AppendEntriesReply}
    (hr : (l, .appendEntriesReply r) ∈ ms) (hs : r.success = false)
    (hww : C.system.Reach w w') (hidle : w'.Idle l) (hlead : (w'.cur l).role = .leader)
    (hsame : (w'.cur l).currentTerm = (w.cur l).currentTerm) :
    hintNext (w'.cur l).log r ≤ ae.prevLogIndex := by
  obtain ⟨a, ha⟩ := explained h.reachable
  obtain ⟨b, hab, hb⟩ := explained_later ha hww
  obtain ⟨hlen, hprev⟩ := h.request hsent hT
  have hwon := ((ha.rest h.idle_l).lead h.lead).won
  have hlog := ((ha.rest h.idle_l).lead h.lead).log (ha.mid l)
  have hlog' := ((hb.rest hidle).lead hlead).log (hb.mid l)
  have hpre := hab.llog hwon
  rw [hlog, ← hsame, hlog'] at hpre
  cases hans with
  | short hgt =>
      obtain ⟨-, hr⟩ := Prod.mk.inj (List.mem_singleton.mp hr)
      rw [Message.appendEntriesReply.inj hr]
      exact hgt
  | conflict first hf hle hne =>
      obtain ⟨-, hr⟩ := Prod.mk.inj (List.mem_singleton.mp hr)
      rw [Message.appendEntriesReply.inj hr]
      have hM : Grown C.setting b (b.term p) (w.cur p).log := by
        rw [← (ha.mid p).log]
        exact ((ha.mid p).inv.log.node p).mono hab (hab.term p)
      have hL : Grown C.setting b (b.term l) (w'.cur l).log := by
        rw [← (hb.mid l).log]
        exact (hb.mid l).inv.log.node l
      refine hintNext_le hM hL hle (hlen.trans hpre.length_le) ?_ hf
      rw [hprev] at hne
      have htake : (w'.cur l).log.take ae.prevLogIndex = (w.cur l).log.take ae.prevLogIndex := by
        obtain ⟨k, hk⟩ := hpre
        rw [← hk, List.take_append_of_le_length hlen]
      rw [InMemoryLog.termAt_of_take htake]
      exact hne
  | accepted hle heq =>
      obtain ⟨-, hr⟩ := Prod.mk.inj (List.mem_singleton.mp hr)
      rw [Message.appendEntriesReply.inj hr] at hs
      cases hs

/-! ## 3. Deliveries -/

/-- A message on its way. -/
structure Packet where
  src : NodeId
  dst : NodeId
  msg : Message
  deriving DecidableEq

/-- The message has been sent. -/
def Packet.Sent (q : Packet) (w : World) : Prop := Output.send q.dst q.msg ∈ (w.cur q.src).out

/-- An AppendEntries or a reply to one. -/
def IsAppend : Message → Prop
  | .appendEntries _ => True
  | .appendEntriesReply _ => True
  | _ => False

/-- What node `n` has sent to `dst` between the states `s` and `t`. -/
def newPackets (n dst : NodeId) (s t : RaftCore) : List Packet :=
  ((sends (t.out.drop s.out.length)).filter fun dm => dm.1 = dst).map fun dm => ⟨n, dm.1, dm.2⟩

/-- A world, and the messages in flight in it. -/
structure Link where
  world : World
  flight : Multiset Packet

/-- **One delivery between `l` and `p`**: a message in flight is handled in one call that does not
    change the receiver's term; it is gone, and what was sent back is in flight. -/
inductive Delivery (C : Cluster) (l p : NodeId) : Link → Link → Prop where
  | deliver (w : World) (B : Multiset Packet) (q : Packet) (K : Ctx) (hq : q ∈ B)
      (hdir : (q.src = l ∧ q.dst = p) ∨ (q.src = p ∧ q.dst = l)) (hkind : IsAppend q.msg)
      (hself : K.self = q.dst) (hpeers : K.peers = C.peers q.dst)
      (hterm : ∀ T, termOf q.msg = some T → T ≤ (w.cur q.dst).currentTerm) :
      Delivery C l p ⟨w, B⟩
        ⟨Function.update w q.dst ⟨(handle K q.src q.msg).final (w.cur q.dst), []⟩,
          B.erase q + newPackets q.dst q.src (w.cur q.dst)
            ((handle K q.src q.msg).final (w.cur q.dst))⟩

theorem newPackets_of_emits {n dst : NodeId} {s t : RaftCore} {ms : List (NodeId × Message)}
    (h : Emits s t ms) : newPackets n dst s t =
      (ms.filter fun dm => dm.1 = dst).map fun dm => ⟨n, dm.1, dm.2⟩ := by
  obtain ⟨o, ho, hms⟩ := h
  unfold newPackets
  rw [ho, List.drop_left, hms]

/-! ## 4. The measure

What a message in flight can still cause, counted so that every delivery costs something. Between
cores of different terms at most three deliveries follow each other. In one term, a probe at `k`
beyond the match index may be rejected; the hint leads below `k`, so it weighs more than the
rejection, and the rejection more than the retry. -/

/-- The weight of a message in flight between the leader `l` in state `sl` and its peer `p` in
    state `sp`. -/
def weight (l p : NodeId) (sl sp : RaftCore) (q : Packet) : ℕ :=
  match q.msg with
  | .appendEntries ae =>
      if sl.currentTerm = sp.currentTerm ∧ q.dst = p then
        if ae.term = sl.currentTerm then
          if ae.prevLogIndex ≤ sl.matchIndex.getD p 0 then 2 else 2 * ae.prevLogIndex + 2
        else 4
      else 2
  | .appendEntriesReply r =>
      if sl.currentTerm = sp.currentTerm then
        if q.dst = l ∧ r.success = false then 2 * (hintNext sl.log r - 1) + 3 else 1
      else if r.term = (if q.dst = l then sl.currentTerm else sp.currentTerm) then 3 else 1
  | _ => 1

/-- What is missing at the match index, and all that is in flight. -/
def potential (l p : NodeId) (L : Link) : ℕ :=
  2 * ((L.world.cur l).log.length - (L.world.cur l).matchIndex.getD p 0) +
    (L.flight.map (weight l p (L.world.cur l) (L.world.cur p))).sum

theorem weight_pos (l p : NodeId) (sl sp : RaftCore) (q : Packet) : 0 < weight l p sl sp q := by
  unfold weight
  split
  · split_ifs <;> omega
  · split_ifs <;> omega
  · omega

/-- What the weights depend on stays, but for a match index that may rise. -/
structure Calm (p : NodeId) (sl sp sl' sp' : RaftCore) : Prop where
  term_l : sl'.currentTerm = sl.currentTerm
  term_p : sp'.currentTerm = sp.currentTerm
  log : sl'.log = sl.log
  raised : sl.matchIndex.getD p 0 ≤ sl'.matchIndex.getD p 0

theorem Calm.weight_le {sl sp sl' sp' : RaftCore} (h : Calm p sl sp sl' sp') (l : NodeId)
    (q : Packet) : weight l p sl' sp' q ≤ weight l p sl sp q := by
  have hr := h.raised
  unfold weight
  rw [h.term_l, h.term_p, h.log]
  split
  · split
    · split
      · split
        · split <;> omega
        · rw [if_neg (by omega)]
      · exact Nat.le_refl _
    · exact Nat.le_refl _
  · exact Nat.le_refl _
  · exact Nat.le_refl _

/-- **A delivery lowers the measure** if what it costs is more than what it sends. -/
theorem potential_lt {w w' : World} {B N : Multiset Packet} {q : Packet} (hq : q ∈ B)
    (h : Calm p (w.cur l) (w.cur p) (w'.cur l) (w'.cur p))
    (hN : 2 * ((w.cur l).log.length - (w'.cur l).matchIndex.getD p 0) +
        (N.map (weight l p (w'.cur l) (w'.cur p))).sum <
      2 * ((w.cur l).log.length - (w.cur l).matchIndex.getD p 0) +
        weight l p (w.cur l) (w.cur p) q) :
    potential l p ⟨w', B.erase q + N⟩ < potential l p ⟨w, B⟩ := by
  have hB : (B.map (weight l p (w.cur l) (w.cur p))).sum =
      weight l p (w.cur l) (w.cur p) q +
        ((B.erase q).map (weight l p (w.cur l) (w.cur p))).sum := by
    conv_lhs => rw [← Multiset.cons_erase hq]
    rw [Multiset.map_cons, Multiset.sum_cons]
  have hle : ((B.erase q).map (weight l p (w'.cur l) (w'.cur p))).sum ≤
      ((B.erase q).map (weight l p (w.cur l) (w.cur p))).sum :=
    Multiset.sum_map_le_sum_map _ _ fun r _ => h.weight_le l r
  show 2 * ((w'.cur l).log.length - (w'.cur l).matchIndex.getD p 0) +
      ((B.erase q + N).map (weight l p (w'.cur l) (w'.cur p))).sum <
    2 * ((w.cur l).log.length - (w.cur l).matchIndex.getD p 0) +
      (B.map (weight l p (w.cur l) (w.cur p))).sum
  rw [Multiset.map_add, Multiset.sum_add, h.log, hB]
  omega

theorem newPackets_nil {n src : NodeId} {s t : RaftCore} (h : Emits s t []) :
    newPackets n src s t = [] := by
  rw [newPackets_of_emits h]
  rfl

theorem newPackets_one {n src : NodeId} {s t : RaftCore} {m : Message} (h : Emits s t [(src, m)]) :
    newPackets n src s t = [⟨n, src, m⟩] := by
  rw [newPackets_of_emits h, List.filter_cons_of_pos (by simp)]
  rfl

/-! ## 5. Every delivery costs something -/

/-- What a delivery does to the cores of `l` and `p`, with the messages it sends. -/
structure Paid (l p : NodeId) (sl sp sl' sp' : RaftCore) (q : Packet) (N : List Packet) :
    Prop where
  calm : Calm p sl sp sl' sp'
  cost : 2 * (sl.log.length - sl'.matchIndex.getD p 0) +
      ((N : Multiset Packet).map (weight l p sl' sp')).sum <
    2 * (sl.log.length - sl.matchIndex.getD p 0) + weight l p sl sp q
  lead : sl'.role = sl.role

/-- Nothing is sent and the match index does not fall. -/
theorem paid_nil {sl sp sl' sp' : RaftCore} (h : Calm p sl sp sl' sp') (hr : sl'.role = sl.role)
    (q : Packet) : Paid l p sl sp sl' sp' q [] := by
  refine ⟨h, ?_, hr⟩
  have h1 := weight_pos l p sl sp q
  have h2 := h.raised
  rw [Multiset.coe_nil, Multiset.map_zero, Multiset.sum_zero]
  omega

/-- One message is sent that weighs less. -/
theorem paid_one {sl sp sl' sp' : RaftCore} (h : Calm p sl sp sl' sp') (hr : sl'.role = sl.role)
    {q q' : Packet} (hlt : weight l p sl' sp' q' < weight l p sl sp q) :
    Paid l p sl sp sl' sp' q [q'] := by
  refine ⟨h, ?_, hr⟩
  have h2 := h.raised
  rw [Multiset.coe_singleton, Multiset.map_singleton, Multiset.sum_singleton]
  omega

/-- An AppendEntries between cores of different terms, or to the leader: the reply weighs 1. -/
theorem paid_ae_other {sl sp sl' sp' s : RaftCore} {src dst : NodeId} {ae : AppendEntries}
    {ms : List (NodeId × Message)} {t : RaftCore} (h : Calm p sl sp sl' sp')
    (hr : sl'.role = sl.role) (hem : Emits s t ms) (hans : AeAnswer s src ae ms)
    (hw : weight l p sl sp ⟨src, dst, .appendEntries ae⟩ = 2)
    (hrep : ∀ r : AppendEntriesReply, r.term = s.currentTerm →
      weight l p sl' sp' ⟨dst, src, .appendEntriesReply r⟩ = 1) :
    Paid l p sl sp sl' sp' ⟨src, dst, .appendEntries ae⟩ (newPackets dst src s t) := by
  rcases hans.shape with rfl | ⟨r, rfl, hrT⟩
  · rw [newPackets_nil hem]
    exact paid_nil h hr _
  · rw [newPackets_one hem]
    refine paid_one h hr ?_
    rw [hw, hrep r hrT]
    omega

/-- **An AppendEntries of the leader in the peer's own term.** -/
theorem Pair.paid_ae (h : Pair C w l p)
    (hTp : (w.cur p).currentTerm = (w.cur l).currentTerm) {ae : AppendEntries}
    (hsent : Output.send p (.appendEntries ae) ∈ (w.cur l).out)
    {t : RaftCore} {ms : List (NodeId × Message)} (ht : t.currentTerm = (w.cur p).currentTerm)
    (hem : Emits (w.cur p) t ms) (hans : AeAnswer (w.cur p) l ae ms)
    (hle : ae.term ≤ (w.cur p).currentTerm) :
    Paid l p (w.cur l) (w.cur p) (w.cur l) t ⟨l, p, .appendEntries ae⟩
      (newPackets p l (w.cur p) t) := by
  have hcalm : Calm p (w.cur l) (w.cur p) (w.cur l) t := ⟨rfl, ht, rfl, Nat.le_refl _⟩
  have hreply : ∀ r, weight l p (w.cur l) t ⟨p, l, .appendEntriesReply r⟩ =
      if r.success = false then 2 * (hintNext (w.cur l).log r - 1) + 3 else 1 := by
    intro r
    simp only [weight, ht, hTp, if_pos, true_and]
  have hprobe : weight l p (w.cur l) (w.cur p) ⟨l, p, .appendEntries ae⟩ =
      if ae.term = (w.cur l).currentTerm then
        if ae.prevLogIndex ≤ (w.cur l).matchIndex.getD p 0 then 2 else 2 * ae.prevLogIndex + 2
      else 4 := by
    simp only [weight, hTp, and_self, if_pos]
  cases hans with
  | stale hlt =>
      rw [newPackets_one hem]
      refine paid_one hcalm rfl ?_
      rw [hreply, hprobe, if_pos rfl, if_neg (by omega)]
      show 2 * (0 - 1) + 3 < 4
      omega
  | violation =>
      rw [newPackets_nil hem]
      exact paid_nil hcalm rfl _
  | checked _ hge _ hc =>
      have hT : ae.term = (w.cur l).currentTerm := by omega
      rw [if_pos hT] at hprobe
      -- a rejected probe is above the match index, and its hint is below the probe
      have hrej : ∀ {r : AppendEntriesReply}, ms = [(l, .appendEntriesReply r)] →
          r.success = false → ¬ (ae.prevLogIndex ≤ (w.cur p).log.lastIndex ∧
            (w.cur p).log.termAt ae.prevLogIndex = ae.prevLogTerm) →
          Paid l p (w.cur l) (w.cur p) (w.cur l) t ⟨l, p, .appendEntries ae⟩
            (newPackets p l (w.cur p) t) := by
        intro r hms hs hnot
        have hk : ¬ ae.prevLogIndex ≤ (w.cur l).matchIndex.getD p 0 :=
          fun hk => hnot (h.accepts hTp hsent hT hk)
        have hhint := h.hint hsent hT hc (r := r) (by rw [hms]; exact List.mem_singleton.mpr rfl) hs
          .refl h.idle_l h.lead rfl
        rw [hms] at hem
        rw [newPackets_one hem]
        refine paid_one hcalm rfl ?_
        rw [hreply, hprobe, if_pos hs, if_neg hk]
        omega
      cases hc with
      | short hgt => exact hrej rfl rfl fun hn => absurd hn.1 (Nat.not_le.mpr hgt)
      | conflict first _ _ hne => exact hrej rfl rfl fun hn => absurd hn.2 hne
      | accepted =>
          rw [newPackets_one hem]
          refine paid_one hcalm rfl ?_
          rw [hreply, hprobe, if_neg (by simp)]
          split <;> omega

/-- A reply between cores of different terms: a further AppendEntries weighs less. -/
theorem paid_reply_other {sl sp sl' sp' s t : RaftCore} {src dst : NodeId}
    {r : AppendEntriesReply} {ms : List (NodeId × Message)} (h : Calm p sl sp sl' sp')
    (hr : sl'.role = sl.role) (hem : Emits s t ms) (hans : ReplyAnswer s t src r ms)
    (hw : r.term = s.currentTerm → weight l p sl sp ⟨src, dst, .appendEntriesReply r⟩ = 3)
    (hae : ∀ ae, weight l p sl' sp' ⟨dst, src, .appendEntries ae⟩ = 2) :
    Paid l p sl sp sl' sp' ⟨src, dst, .appendEntriesReply r⟩ (newPackets dst src s t) := by
  have hone : ∀ {ae : AppendEntries}, ms = [(src, .appendEntries ae)] → r.term = s.currentTerm →
      Paid l p sl sp sl' sp' ⟨src, dst, .appendEntriesReply r⟩ (newPackets dst src s t) := by
    intro ae hms hT
    rw [hms] at hem
    rw [newPackets_one hem]
    refine paid_one h hr ?_
    rw [hw hT, hae]
    omega
  cases hans with
  | ignored =>
      rw [newPackets_nil hem]
      exact paid_nil h hr _
  | caughtUp =>
      rw [newPackets_nil hem]
      exact paid_nil h hr _
  | further ae _ hT => exact hone rfl hT
  | retry ae _ hT => exact hone rfl hT

theorem ReplyAnswer.calm {sl sp t : RaftCore} {r : AppendEntriesReply}
    {ms : List (NodeId × Message)} (h : ReplyAnswer sl t p r ms) (hst : Steady sl t) :
    Calm p sl sp t sp := by
  refine ⟨hst.term, rfl, hst.log, ?_⟩
  cases h with
  | ignored _ hm => rw [hm]
  | caughtUp _ _ _ _ hlt hm =>
      rw [hm, Std.ExtTreeMap.getD_insert_self]
      omega
  | further _ _ _ _ _ hlt hm =>
      rw [hm, Std.ExtTreeMap.getD_insert_self]
      omega
  | retry _ _ _ _ hm => rw [hm]

/-- **A reply of the peer in the leader's own term.** -/
theorem paid_reply {sl sp t : RaftCore} {r : AppendEntriesReply} {ms : List (NodeId × Message)}
    (hTp : sp.currentTerm = sl.currentTerm) (hst : Steady sl t) (hem : Emits sl t ms)
    (hans : ReplyAnswer sl t p r ms) :
    Paid l p sl sp t sp ⟨p, l, .appendEntriesReply r⟩ (newPackets l p sl t) := by
  have hcalm : Calm p sl sp t sp := ReplyAnswer.calm hans hst
  have hreply : weight l p sl sp ⟨p, l, .appendEntriesReply r⟩ =
      if r.success = false then 2 * (hintNext sl.log r - 1) + 3 else 1 := by
    simp only [weight, hTp, if_pos, true_and]
  have hprobe : ∀ ae : AppendEntries, ae.term = sl.currentTerm →
      weight l p t sp ⟨l, p, .appendEntries ae⟩ =
        if ae.prevLogIndex ≤ t.matchIndex.getD p 0 then 2 else 2 * ae.prevLogIndex + 2 := by
    intro ae hae
    simp only [weight, hst.term, hTp, hae, and_self, if_pos]
  cases hans with
  | ignored =>
      rw [newPackets_nil hem]
      exact paid_nil hcalm hst.role _
  | caughtUp =>
      rw [newPackets_nil hem]
      exact paid_nil hcalm hst.role _
  | further ae _ _ hs hle hlt hm haeT hae =>
      -- the match index has risen, and the new probe is at it
      have hm' : t.matchIndex.getD p 0 = r.conflictIndex := by
        rw [hm, Std.ExtTreeMap.getD_insert_self]
      have hle' : r.conflictIndex ≤ sl.log.length := hle
      rw [newPackets_one hem]
      refine ⟨hcalm, ?_, hst.role⟩
      rw [Multiset.coe_singleton, Multiset.map_singleton, Multiset.sum_singleton, hreply,
        hprobe ae haeT, hm', hae, if_pos (Nat.le_refl _), hs]
      simp only [Bool.true_eq_false, if_false]
      omega
  | retry ae _ _ hs hm haeT hae =>
      rw [newPackets_one hem]
      refine paid_one hcalm hst.role ?_
      rw [hreply, hprobe ae haeT, hm, if_pos hs]
      split <;> omega

/-- **A message of the leader, handled by the peer.** -/
theorem Pair.paid_to_peer (h : Pair C w l p) {m : Message} (hkind : IsAppend m) {K : Ctx}
    (hsent : Output.send p m ∈ (w.cur l).out)
    (hterm : ∀ T, termOf m = some T → T ≤ (w.cur p).currentTerm) :
    (∃ o, ((handle K l m).final (w.cur p)).out = (w.cur p).out ++ o) ∧
    Paid l p (w.cur l) (w.cur p) (w.cur l) ((handle K l m).final (w.cur p)) ⟨l, p, m⟩
      (newPackets p l (w.cur p) ((handle K l m).final (w.cur p))) := by
  have hne : p ≠ l := h.ne
  cases m with
  | appendEntries ae =>
      obtain ⟨hT, -, ms, hem, hans⟩ := ends_final (ends_handle_appendEntries (hterm _ rfl))
      refine ⟨⟨hem.choose, hem.choose_spec.1⟩, ?_⟩
      by_cases hTp : (w.cur p).currentTerm = (w.cur l).currentTerm
      · exact h.paid_ae hTp hsent hT hem hans (hterm _ rfl)
      · refine paid_ae_other ⟨rfl, hT, rfl, Nat.le_refl _⟩ rfl hem hans ?_ fun r hr => ?_
        · simp only [weight, Ne.symm hTp, false_and, if_false]
        · simp only [weight, hT, Ne.symm hTp, hr, hTp, if_false, if_true]
  | appendEntriesReply r =>
      obtain ⟨hst, ms, hem, hans⟩ := ends_final (ends_handle_appendEntriesReply (hterm _ rfl))
      refine ⟨⟨hem.choose, hem.choose_spec.1⟩, ?_⟩
      have hcalm : Calm p (w.cur l) (w.cur p) (w.cur l)
          ((handle K l (.appendEntriesReply r)).final (w.cur p)) :=
        ⟨rfl, hst.term, rfl, Nat.le_refl _⟩
      by_cases hTp : (w.cur p).currentTerm = (w.cur l).currentTerm
      · -- the peer does not lead, so it takes no reply
        have hms : ms = [] := by
          cases hans with
          | ignored => rfl
          | caughtUp hr => exact absurd hr (h.not_leader hTp)
          | further _ hr => exact absurd hr (h.not_leader hTp)
          | retry _ hr => exact absurd hr (h.not_leader hTp)
        rw [hms] at hem
        rw [newPackets_nil hem]
        exact paid_nil hcalm rfl _
      · refine paid_reply_other hcalm rfl hem hans (fun hr => ?_) fun ae => ?_
        · simp only [weight, Ne.symm hTp, hne, hr, if_false, if_true]
        · simp only [weight, hst.term, Ne.symm hTp, false_and, if_false]
  | _ => exact hkind.elim

/-- **A message of the peer, handled by the leader.** -/
theorem Pair.paid_to_leader (h : Pair C w l p) {m : Message} (hkind : IsAppend m) {K : Ctx}
    (hterm : ∀ T, termOf m = some T → T ≤ (w.cur l).currentTerm) :
    (∃ o, ((handle K p m).final (w.cur l)).out = (w.cur l).out ++ o) ∧
    Paid l p (w.cur l) (w.cur p) ((handle K p m).final (w.cur l)) (w.cur p) ⟨p, l, m⟩
      (newPackets l p (w.cur l) ((handle K p m).final (w.cur l))) := by
  have hne : l ≠ p := h.ne.symm
  cases m with
  | appendEntries ae =>
      obtain ⟨hT, hkeep, ms, hem, hans⟩ := ends_final (ends_handle_appendEntries (hterm _ rfl))
      refine ⟨⟨hem.choose, hem.choose_spec.1⟩, ?_⟩
      obtain ⟨o, ho⟩ := hkeep h.lead
      refine paid_ae_other ⟨hT, rfl, by rw [ho], by rw [ho]⟩ (by rw [ho]) hem hans ?_ fun r hr => ?_
      · simp only [weight, hne, and_false, if_false]
      · by_cases hTp : (w.cur p).currentTerm = (w.cur l).currentTerm
        · simp only [weight, hT, hTp, hne.symm, false_and, if_true, if_false]
        · simp only [weight, hT, hr, Ne.symm hTp, hne.symm, if_false]
  | appendEntriesReply r =>
      obtain ⟨hst, ms, hem, hans⟩ := ends_final (ends_handle_appendEntriesReply (hterm _ rfl))
      refine ⟨⟨hem.choose, hem.choose_spec.1⟩, ?_⟩
      by_cases hTp : (w.cur p).currentTerm = (w.cur l).currentTerm
      · exact paid_reply hTp hst hem hans
      · refine paid_reply_other (ReplyAnswer.calm hans hst) hst.role hem hans (fun hr => ?_) fun ae => ?_
        · simp only [weight, Ne.symm hTp, hr, if_false, if_true]
        · simp only [weight, hst.term, Ne.symm hTp, false_and, if_false]
  | _ => exact hkind.elim

/-! ## 6. Whole sequences -/

theorem Pair.mem_p (h : Pair C w l p) : p ∈ C.ids := ((C.mem_peers h.mem p).mp h.peer).1

/-- What was in flight before a call is in flight after it, and so is what the call has sent. -/
theorem sent_update {n : NodeId} (dst : NodeId) {t : RaftCore} (hout : ∃ o, t.out = (w.cur n).out ++ o)
    {q : Packet} (hq : q.Sent w ∨ q ∈ newPackets n dst (w.cur n) t) :
    q.Sent (Function.update w n ⟨t, []⟩) := by
  obtain ⟨o, ho⟩ := hout
  rcases hq with hq | hq
  · unfold Packet.Sent at hq ⊢
    by_cases hn : q.src = n
    · rw [hn] at hq
      rw [hn, World.cur_update_self]
      show _ ∈ t.out
      rw [ho]
      exact List.mem_append_left _ hq
    · rw [World.cur_update_of_ne hn]
      exact hq
  · rw [newPackets_of_emits ⟨o, ho, rfl⟩] at hq
    obtain ⟨dm, hdm, rfl⟩ := List.mem_map.mp hq
    unfold Packet.Sent
    rw [World.cur_update_self]
    show _ ∈ t.out
    rw [ho]
    exact List.mem_append_right _ (mem_of_mem_sends (List.mem_filter.mp hdm).1)

/-- A call that handles a message some member has sent. -/
theorem reach_handle {n src : NodeId} {K : Ctx} {m : Message} (hn : n ∈ C.ids) (hi : w.Idle n)
    (hself : K.self = n) (hpeers : K.peers = C.peers n) (hsrc : src ∈ C.ids)
    (hsent : Output.send n m ∈ (w.cur src).out) :
    C.system.Reach w (Function.update w n ⟨(handle K src m).final (w.cur n), []⟩) :=
  System.reach_run (S := C.system) hi
    ⟨hn, K, .handle src m, hself, hpeers, .inl ⟨hsrc, hsent⟩, rfl⟩

/-- **What one delivery keeps, and that it lowers the measure.** -/
theorem Pair.step (h : Pair C w l p) {B : Multiset Packet} (hB : ∀ q ∈ B, q.Sent w) {L : Link}
    (hd : Delivery C l p ⟨w, B⟩ L) :
    Pair C L.world l p ∧ (∀ q ∈ L.flight, q.Sent L.world) ∧
      potential l p L < potential l p ⟨w, B⟩ := by
  obtain ⟨_, _, q, K, hq, hdir, hkind, hself, hpeers, hterm⟩ := hd
  obtain ⟨src, dst, m⟩ := q
  have hsent : Output.send dst m ∈ (w.cur src).out := hB _ hq
  dsimp only at hdir hkind hself hpeers hterm ⊢
  -- what is in flight afterwards, once the call's history is known to have grown
  have hflight : (∃ o, ((handle K src m).final (w.cur dst)).out = (w.cur dst).out ++ o) →
      ∀ q ∈ B.erase ⟨src, dst, m⟩ + (newPackets dst src (w.cur dst)
          ((handle K src m).final (w.cur dst)) : Multiset Packet),
        q.Sent (Function.update w dst ⟨(handle K src m).final (w.cur dst), []⟩) := by
    intro hout q hq
    refine sent_update src hout ?_
    rcases Multiset.mem_add.mp hq with hq | hq
    · exact .inl (hB q (Multiset.mem_of_mem_erase hq))
    · exact .inr (Multiset.mem_coe.mp hq)
  rcases hdir with ⟨rfl, rfl⟩ | ⟨rfl, rfl⟩
  · -- to the peer
    obtain ⟨hout, hpaid⟩ := h.paid_to_peer (K := K) hkind hsent hterm
    have hl := World.cur_update_of_ne (w := w) (x := ⟨(handle K src m).final (w.cur dst), []⟩)
      h.ne.symm
    refine ⟨⟨h.reachable.trans (reach_handle h.mem_p h.idle_p hself hpeers h.mem hsent), h.mem,
      h.peer, World.idle_update fun _ => h.idle_l, World.idle_update fun _ => h.idle_p,
      hl ▸ h.lead⟩, hflight hout, potential_lt hq ?_ ?_⟩
    · rw [hl, World.cur_update_self]
      exact hpaid.calm
    · rw [hl, World.cur_update_self]
      exact hpaid.cost
  · -- to the leader
    obtain ⟨hout, hpaid⟩ := h.paid_to_leader (K := K) hkind hterm
    have hp := World.cur_update_of_ne (w := w) (x := ⟨(handle K src m).final (w.cur dst), []⟩)
      h.ne
    refine ⟨⟨h.reachable.trans (reach_handle h.mem h.idle_l hself hpeers h.mem_p hsent), h.mem,
      h.peer, World.idle_update fun _ => h.idle_l, World.idle_update fun _ => h.idle_p, ?_⟩,
      hflight hout, potential_lt hq ?_ ?_⟩
    · rw [World.cur_update_self]
      exact hpaid.lead.trans h.lead
    · rw [hp, World.cur_update_self]
      exact hpaid.calm
    · rw [hp, World.cur_update_self]
      exact hpaid.cost

/-- **Every sequence of deliveries is shorter than the measure it starts with.** -/
theorem Pair.steps (h : Pair C w l p) {B : Multiset Packet} (hB : ∀ q ∈ B, q.Sent w)
    {f : ℕ → Link} (h0 : f 0 = ⟨w, B⟩) : ∀ k : ℕ, (∀ i < k, Delivery C l p (f i) (f (i + 1))) →
      Pair C (f k).world l p ∧ (∀ q ∈ (f k).flight, q.Sent (f k).world) ∧
        potential l p (f k) + k ≤ potential l p ⟨w, B⟩
  | 0, _ => by
      rw [h0]
      exact ⟨h, hB, Nat.le_refl _⟩
  | k + 1, hd => by
      obtain ⟨hk, hBk, hle⟩ := h.steps hB h0 k fun i hi => hd i (Nat.lt_succ_of_lt hi)
      obtain ⟨h1, h2, hlt⟩ := hk.step hBk (hd k (Nat.lt_succ_self k))
      refine ⟨h1, h2, ?_⟩
      have : potential l p ⟨(f k).world, (f k).flight⟩ = potential l p (f k) := rfl
      omega

/-! ## 7. Retries and further requests -/

theorem mem_newPackets {n dst : NodeId} {s t : RaftCore} {m : Message}
    {ms : List (NodeId × Message)} (h : Emits s t ms) (hq : ⟨n, dst, m⟩ ∈ newPackets n dst s t) :
    (dst, m) ∈ ms := by
  rw [newPackets_of_emits h] at hq
  obtain ⟨dm, hdm, he⟩ := List.mem_map.mp hq
  obtain ⟨-, h1, h2⟩ := Packet.mk.inj he
  rw [← h1, ← h2]
  exact (List.mem_filter.mp hdm).1

/-- **A rejection leads to a retry below the probe or at the match index**, whenever the leader
    comes to handle it. -/
theorem Pair.retry (h : Pair C w l p) {ae ae' : AppendEntries} {r : AppendEntriesReply}
    (hsent : Output.send p (.appendEntries ae) ∈ (w.cur l).out) {t : RaftCore}
    {ms ms' : List (NodeId × Message)} (hans : AeAnswer (w.cur p) l ae ms)
    (hr : (l, .appendEntriesReply r) ∈ ms) (hs : r.success = false)
    (hle : ae.term ≤ (w.cur p).currentTerm) (hww : C.system.Reach w w') (hidle : w'.Idle l)
    (hlead : (w'.cur l).role = .leader)
    (hsame : (w'.cur l).currentTerm = (w.cur l).currentTerm)
    (hans' : ReplyAnswer (w'.cur l) t p r ms') (hae : (p, .appendEntries ae') ∈ ms') :
    ae'.prevLogIndex < ae.prevLogIndex ∨
      ae'.prevLogIndex = (w'.cur l).matchIndex.getD p 0 := by
  cases hans' with
  | ignored | caughtUp => cases hae
  | further _ _ _ hs' => exact absurd (hs.symm.trans hs') (by decide)
  | retry _ _ hrT _ _ _ hprev =>
      obtain ⟨-, he⟩ := Prod.mk.inj (List.mem_singleton.mp hae)
      rw [Message.appendEntries.inj he, hprev]
      cases hans with
      | stale =>
          obtain ⟨-, he⟩ := Prod.mk.inj (List.mem_singleton.mp hr)
          have h0 : hintNext (w'.cur l).log r = 0 := by
            rw [Message.appendEntriesReply.inj he]
            rfl
          omega
      | violation => cases hr
      | checked _ hge _ hc =>
          -- the peer answers in its own term, so that is the leader's
          have hT : ae.term = (w.cur l).currentTerm := by
            have hTp : r.term = (w.cur p).currentTerm := by
              cases hc <;>
              · obtain ⟨-, he⟩ := Prod.mk.inj (List.mem_singleton.mp hr)
                rw [Message.appendEntriesReply.inj he]
            omega
          have hhint := h.hint hsent hT hc hr hs hww hidle hlead hsame
          omega

/-- **Repair makes progress and ends.** Between a leader and a peer, whatever was in flight:

    * every sequence of deliveries has at most a fixed number of steps;
    * an AppendEntries at the match index or below is not rejected by a peer in the leader's term,
      and a rejected one is retried strictly below its probe or at the match index;
    * a success reply makes the leader send again only if it raises the match index. -/
theorem repair_progress (h : Pair C w l p) :
    (∀ B : Multiset Packet, (∀ q ∈ B, q.Sent w) → ∃ N : ℕ, ∀ (f : ℕ → Link) (k : ℕ),
      f 0 = ⟨w, B⟩ → (∀ i < k, Delivery C l p (f i) (f (i + 1))) → k ≤ N) ∧
    (∀ (K : Ctx) (ae : AppendEntries) (r : AppendEntriesReply),
      Output.send p (.appendEntries ae) ∈ (w.cur l).out → ae.term ≤ (w.cur p).currentTerm →
      ⟨p, l, .appendEntriesReply r⟩ ∈
        newPackets p l (w.cur p) ((handle K l (.appendEntries ae)).final (w.cur p)) →
      (ae.term = (w.cur l).currentTerm → (w.cur p).currentTerm = (w.cur l).currentTerm →
        ae.prevLogIndex ≤ (w.cur l).matchIndex.getD p 0 → r.success = true) ∧
      (r.success = false → ∀ (w' : World) (K' : Ctx) (ae' : AppendEntries),
        C.system.Reach w w' → w'.Idle l → (w'.cur l).role = .leader →
        (w'.cur l).currentTerm = (w.cur l).currentTerm → r.term ≤ (w'.cur l).currentTerm →
        ⟨l, p, .appendEntries ae'⟩ ∈ newPackets l p (w'.cur l)
          ((handle K' p (.appendEntriesReply r)).final (w'.cur l)) →
        ae'.prevLogIndex < ae.prevLogIndex ∨
          ae'.prevLogIndex = (w'.cur l).matchIndex.getD p 0)) ∧
    ∀ (K : Ctx) (r : AppendEntriesReply) (ae : AppendEntries),
      r.success = true → r.term ≤ (w.cur l).currentTerm →
      ⟨l, p, .appendEntries ae⟩ ∈ newPackets l p (w.cur l)
        ((handle K p (.appendEntriesReply r)).final (w.cur l)) →
      (w.cur l).matchIndex.getD p 0 <
        ((handle K p (.appendEntriesReply r)).final (w.cur l)).matchIndex.getD p 0 := by
  refine ⟨fun B hB => ⟨potential l p ⟨w, B⟩, fun f k h0 hd => ?_⟩, ?_, ?_⟩
  · have hle := (h.steps hB h0 k hd).2.2
    omega
  · intro K ae r hsent hle hr
    obtain ⟨-, -, ms, hem, hans⟩ := ends_final (ends_handle_appendEntries (K := K) (p := l) hle)
    have hr := mem_newPackets hem hr
    refine ⟨fun hT hTp hk => ?_, fun hs w' K' ae' hww hidle hlead hsame hrT hae => ?_⟩
    · obtain ⟨hlast, hterm⟩ := h.accepts hTp hsent hT hk
      cases hans with
      | stale hlt => omega
      | violation => cases hr
      | checked _ _ _ hc =>
          cases hc with
          | short hgt => exact absurd hlast (Nat.not_le.mpr hgt)
          | conflict _ _ _ hne => exact absurd hterm hne
          | accepted =>
              obtain ⟨-, he⟩ := Prod.mk.inj (List.mem_singleton.mp hr)
              rw [Message.appendEntriesReply.inj he]
    · obtain ⟨-, ms', hem', hans'⟩ :=
        ends_final (ends_handle_appendEntriesReply (K := K') (p := p) hrT)
      exact h.retry hsent hans hr hs hle hww hidle hlead hsame hans' (mem_newPackets hem' hae)
  · intro K r ae hs hrT hae
    obtain ⟨-, ms, hem, hans⟩ := ends_final (ends_handle_appendEntriesReply (K := K) (p := p) hrT)
    have hae := mem_newPackets hem hae
    cases hans with
    | ignored | caughtUp => cases hae
    | further _ _ _ _ _ hlt hm =>
        rw [hm, Std.ExtTreeMap.getD_insert_self]
        exact hlt
    | retry _ _ _ hs' => exact absurd (hs.symm.trans hs') (by decide)

/-- The reply of node 3 is still on its way when the first script ends. -/
theorem repair_progress_trio :
    Pair trio (resting trioCommitted) 1 3 ∧
    (∃ L, Delivery trio 1 3
      ⟨resting trioCommitted, {⟨3, 1, .appendEntriesReply ⟨1, true, 1, 0⟩⟩}⟩ L) ∧
    ∃ N : ℕ, ∀ (f : ℕ → Link) (k : ℕ),
      f 0 = ⟨resting trioCommitted, {⟨3, 1, .appendEntriesReply ⟨1, true, 1, 0⟩⟩}⟩ →
      (∀ i < k, Delivery trio 1 3 (f i) (f (i + 1))) → k ≤ N := by
  have hpair : Pair trio (resting trioCommitted) 1 3 :=
    ⟨trioCommitted_reachable, by decide, by decide, rfl, rfl, by decide +kernel⟩
  refine ⟨hpair, ⟨_, .deliver _ _ ⟨3, 1, .appendEntriesReply ⟨1, true, 1, 0⟩⟩
    { self := 1, peers := trio.peers 1, now := 2000 } (Multiset.mem_singleton_self _)
    (.inr ⟨rfl, rfl⟩) trivial rfl rfl ?_⟩, (repair_progress hpair).1 _ fun q hq => ?_⟩
  · intro T hT
    rw [← Option.some.inj hT]
    show 1 ≤ (trioCommitted 1).currentTerm
    decide +kernel
  · rw [Multiset.mem_singleton.mp hq]
    show Output.send 1 (.appendEntriesReply ⟨1, true, 1, 0⟩) ∈ (trioCommitted 3).out
    decide +kernel

end Rsm.Raft.Cluster
