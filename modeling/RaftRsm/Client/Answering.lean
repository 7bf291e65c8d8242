/-
  File:      RaftRsm/Client/Answering.lean
  Subject:   WHEN AN APPLIED PROPOSAL IS ANSWERED.

  The service records every proposal in a table of 8192 slots, by the low bits of its index, and
  answers when the index is applied. What is in a slot is the last thing recorded there, so an applied
  proposal is answered exactly if nothing else has been recorded in its slot since: not 8192 indices
  later, while it was waiting, and not at its own index after a truncation.

  * `Life`, `track`, `Lived` -- for every node what its service has proposed and recorded since the
    process was started, along every run of the nodes;
  * `Fits` -- the table against the records; `behind_propose` -- with a peer, a proposal commits nothing
    of its own, so it is recorded before it can be applied;
  * `Ledger`, `ledger_acts` -- the invariant, and that every act keeps it;
  * `applied_proposal_answered` -- when the answer comes;
  * `Pile`, `pile_grows`, `piled_proposal_unanswered` -- a leader without acknowledgements, and a
    proposal that is applied and not answered.
-/
import RaftRsm.Client.Nodes
import RaftRsm.Client.GroupCommit
import RaftRsm.Raft.HandOff

namespace Rsm.Client

open Rsm.Rpc Rsm.Raft Rsm.StateMachine Process

/-! ## 1. The life of a process -/

/-- A request that a service has proposed: where, as which entry, and for whom. -/
structure Proposal where
  index : ℕ
  entry : LogEntry
  pending : Pending
  deriving DecidableEq, Repr

/-- What a service has proposed and recorded since its process was started. -/
structure Life where
  proposals : List Proposal := []
  puts : List (ℕ × Pending) := []

/-- The proposals of a batch whose first command gets the index `i` in the term `T`. -/
def filed (T : ℕ) : ℕ → List Buffered → List Proposal
  | _, [] => []
  | i, b :: l => ⟨i, ⟨T, b.command⟩, ⟨b.src, b.clientId, b.seqNo⟩⟩ :: filed T (i + 1) l

/-- What a node has proposed and not recorded yet: the Raft thread is in the call. -/
def unfiled (d : Node) : List (ℕ × Pending) :=
  match d.phase with
  | .proposing src req (some i) => [(i, ⟨src, req.clientId, req.seqNo⟩)]
  | .flushing (some first) => records first d.svc.buffer
  | _ => []

/-- The proposals of a flush. -/
def flushProposals (K : Ctx) (core : RaftCore) (svc : ClientService) : List Proposal :=
  match (proposeBatch K svc.flushScratch).value core with
  | some first => filed core.currentTerm first svc.buffer
  | none => []

/-- The proposals of `onClientRequest`. -/
def serveProposals (K : Ctx) (core : RaftCore) (src : NodeId) (req : ClientRequest) :
    ClientService × Next → List Proposal
  | (_, .propose) =>
      match (propose K req.command).value core with
      | some i => [⟨i, ⟨core.currentTerm, req.command⟩, ⟨src, req.clientId, req.seqNo⟩⟩]
      | none => []
  | (svc, .flushBatch) => flushProposals K core svc
  | _ => []

def Life.proposed (L : Life) (ps : List Proposal) : Life := { L with proposals := L.proposals ++ ps }

theorem Life.proposed_nil (L : Life) : L.proposed [] = L := by
  unfold Life.proposed
  rw [List.append_nil]

/-- What an act of the node `d` adds to its life. -/
def Life.noted (L : Life) (core : RaftCore) (d : Node) : Act → Life
  | .serve K =>
      match d.phase with
      | .request src req =>
          L.proposed (serveProposals K core src req (d.svc.onClientRequest core src req))
      | _ => L
  | .flushIfDue K =>
      match d.svc.flushIfDue K.now with
      | (svc, .flushBatch) => L.proposed (flushProposals K core svc)
      | _ => L
  | .returned _ => { L with puts := L.puts ++ unfiled d }
  | .crash _ _ => {}
  | _ => L

/-- The node that acts. -/
def Act.node : Act → NodeId
  | .call K _ => K.self
  | .advance n => n
  | .crash n _ => n
  | .request K _ _ => K.self
  | .serve K => K.self
  | .returned n => n
  | .flushIfDue K => K.self
  | .apply n => n

def track (S : Nodes) (L : NodeId → Life) (a : Act) : NodeId → Life :=
  Function.update L a.node ((L a.node).noted (S.world.cur a.node) (S.node a.node) a)

/-- **The runs of the nodes**, with the life of every process. -/
inductive Lived (C : Cluster) (b : NodeId → Batching) : Nodes → (NodeId → Life) → Prop where
  | start : Lived C b (Nodes.start C b) fun _ => {}
  | step {S : Nodes} {L : NodeId → Life} {a : Act} {out : Nodes × List Answer} (h : Lived C b S L)
      (hs : Nodes.step C S a = some out) : Lived C b out.1 (track S L a)

/-! ## 2. The table and the records -/

/-- The last record in the slot `k`. -/
def lastIn (k : ℕ) (puts : List (ℕ × Pending)) : Option (ℕ × Pending) :=
  (puts.filter fun x => PendingTable.slotOf x.1 = k).getLast?

theorem lastIn_snoc (k : ℕ) (puts : List (ℕ × Pending)) (x : ℕ × Pending) :
    lastIn k (puts ++ [x]) = if PendingTable.slotOf x.1 = k then some x else lastIn k puts := by
  unfold lastIn
  rw [List.filter_append]
  by_cases hk : PendingTable.slotOf x.1 = k
  · rw [if_pos hk, List.filter_cons_of_pos (by simpa using hk), List.filter_nil, List.getLast?_append_cons]
    rfl
  · rw [if_neg hk, List.filter_cons_of_neg (by simpa using hk), List.filter_nil, List.append_nil]

/-- **The table is what was recorded last in each slot**: a used slot holds it, and until its index
    is applied the slot stays used. -/
structure Fits (puts : List (ℕ × Pending)) (t : PendingTable) (applied : ℕ) : Prop where
  used : ∀ k, (t.slots k).used = true → lastIn k puts = some ((t.slots k).index, (t.slots k).p)
  held : ∀ k j q, lastIn k puts = some (j, q) → applied < j → t.slots k = ⟨j, q, true⟩

section Fits

variable {puts : List (ℕ × Pending)} {t t' : PendingTable} {a i : ℕ} {q : Pending}

theorem fits_nil : Fits [] {} 0 :=
  ⟨fun _ hk => (Bool.false_ne_true hk).elim, fun _ _ _ h => (Option.some_ne_none _ h.symm).elim⟩

theorem Fits.put (h : Fits puts t a) (i : ℕ) (q : Pending) : Fits (puts ++ [(i, q)]) (t.put i q) a := by
  refine ⟨fun k hk => ?_, fun k j q' hl hj => ?_⟩
  · unfold PendingTable.put at hk ⊢
    dsimp only at hk ⊢
    rw [lastIn_snoc]
    by_cases hki : k = PendingTable.slotOf i
    · rw [if_pos hki.symm, hki, Function.update_self]
    · rw [if_neg (Ne.symm hki), Function.update_of_ne hki]
      rw [Function.update_of_ne hki] at hk
      exact h.used k hk
  · unfold PendingTable.put
    dsimp only
    rw [lastIn_snoc] at hl
    by_cases hki : k = PendingTable.slotOf i
    · rw [if_pos hki.symm] at hl
      cases hl
      rw [hki, Function.update_self]
    · rw [if_neg (Ne.symm hki)] at hl
      rw [Function.update_of_ne hki]
      exact h.held k j q' hl hj

theorem Fits.putAll : ∀ {l : List Buffered} {puts : List (ℕ × Pending)} {t : PendingTable} {i : ℕ},
    Fits puts t a → Fits (puts ++ records i l) (ClientService.putAll t i l) a
  | [], _, _, _, h => by
      rw [records, List.append_nil]
      exact h
  | b :: l, puts, t, i, h => by
      have hrest := (h.put i ⟨b.src, b.clientId, b.seqNo⟩).putAll (l := l) (i := i + 1)
      rw [List.append_assoc] at hrest
      exact hrest

/-- What is taken out was recorded last. -/
theorem Fits.take_some (h : Fits puts t a) (ht : t.take i = some (q, t')) :
    lastIn (PendingTable.slotOf i) puts = some (i, q) ∧
    t' = ⟨Function.update t.slots (PendingTable.slotOf i) { t.slots (PendingTable.slotOf i) with used := false }⟩ := by
  unfold PendingTable.take at ht
  dsimp only at ht
  split at ht
  · cases ht
  · rename_i hu
    rw [Bool.or_eq_true, not_or] at hu
    obtain ⟨hq, ht'⟩ := Prod.mk.inj (Option.some.inj ht)
    have hused : (t.slots (PendingTable.slotOf i)).used = true := by simpa using hu.1
    have hidx : (t.slots (PendingTable.slotOf i)).index = i := by simpa using hu.2
    have hlast := h.used _ hused
    rw [hidx, hq] at hlast
    exact ⟨hlast, ht'.symm⟩

/-- What was recorded last for an index that is still to be applied can be taken out. -/
theorem Fits.take_held (h : Fits puts t a) (hi : a < i)
    (hl : lastIn (PendingTable.slotOf i) puts = some (i, q)) : ∃ t', t.take i = some (q, t') := by
  have hslot := h.held _ i q hl hi
  unfold PendingTable.take
  dsimp only
  rw [hslot, if_neg (by simp)]
  exact ⟨_, rfl⟩

/-- The next index is applied. -/
theorem Fits.applied (h : Fits puts t a) : Fits puts t (a + 1) :=
  ⟨h.used, fun k j q' hl hj => h.held k j q' hl (Nat.lt_of_succ_lt hj)⟩

theorem Fits.taken (h : Fits puts t a) (ht : t.take (a + 1) = some (q, t')) : Fits puts t' (a + 1) := by
  obtain ⟨hlast, rfl⟩ := h.take_some ht
  refine ⟨fun k hk => ?_, fun k j q' hl hj => ?_⟩
  · dsimp only at hk ⊢
    by_cases hki : k = PendingTable.slotOf (a + 1)
    · rw [hki, Function.update_self] at hk
      cases hk
    · rw [Function.update_of_ne hki] at hk ⊢
      exact h.used k hk
  · dsimp only
    by_cases hki : k = PendingTable.slotOf (a + 1)
    · rw [hki, hlast] at hl
      cases hl
      exact absurd hj (Nat.lt_irrefl _)
    · rw [Function.update_of_ne hki]
      exact h.held k j q' hl (Nat.lt_of_succ_lt hj)

/-- The service is told of the next index. -/
theorem Fits.onApplied {svc : ClientService} (h : Fits puts svc.pending a) (self : NodeId) (entry : LogEntry)
    (result : Bytes) : Fits puts (svc.onApplied self (a + 1) entry result).1.pending (a + 1) := by
  unfold ClientService.onApplied
  cases ht : svc.pending.take (a + 1) with
  | none => exact h.applied
  | some qt =>
      obtain ⟨q, t⟩ := qt
      dsimp only
      split_ifs <;> exact h.taken ht

/-- Another record in the slot, of a later index, and the entry is applied without a word. -/
theorem Fits.unanswered {svc : ClientService} (h : Fits puts svc.pending a) (self : NodeId) (entry : LogEntry)
    (result : Bytes) {j : ℕ} (hl : lastIn (PendingTable.slotOf (a + 1)) puts = some (j, q)) (hj : a + 1 < j) :
    (svc.onApplied self (a + 1) entry result).2 = [] := by
  have hslot := h.held _ _ _ hl (Nat.lt_of_succ_lt hj)
  have htake : svc.pending.take (a + 1) = none := by
    unfold PendingTable.take
    rw [hslot]
    have hne : j ≠ a + 1 := (Nat.ne_of_lt hj).symm
    exact if_pos (by simp only [Bool.not_true, Bool.false_or, decide_eq_true hne])
  unfold ClientService.onApplied
  rw [htake]

/-- **The request of `q` is answered with the result exactly if it was recorded last in the slot.** -/
theorem Fits.answers {svc : ClientService} (h : Fits puts svc.pending a) (self : NodeId) {entry : LogEntry}
    (result : Bytes) (hid : decodePrefix entry.command = some (q.clientId, q.seqNo)) :
    (svc.onApplied self (a + 1) entry result).2 = [(q.replyTo, ⟨.ok, self, result⟩)] ↔
      lastIn (PendingTable.slotOf (a + 1)) puts = some (a + 1, q) := by
  constructor
  · intro ho
    unfold ClientService.onApplied at ho
    cases ht : svc.pending.take (a + 1) with
    | none =>
        rw [ht] at ho
        cases ho
    | some qt =>
        obtain ⟨q', t⟩ := qt
        rw [ht] at ho
        dsimp only at ho
        split_ifs at ho with hid'
        · have hto : q'.replyTo = q.replyTo := congrArg Prod.fst (List.cons.inj ho).1
          rw [hid] at hid'
          obtain ⟨hc, hs⟩ := Prod.mk.inj (Option.some.inj hid')
          have hq : q' = q := by
            obtain ⟨r', c', s'⟩ := q'
            obtain ⟨r, c, s⟩ := q
            dsimp only at hto hc hs
            rw [hto, hc, hs]
          rw [← hq]
          exact (h.take_some ht).1
        · have hst := congrArg (fun x : NodeId × ClientReply => x.2.status) (List.cons.inj ho).1
          cases hst
  · intro hl
    obtain ⟨t, ht⟩ := h.take_held (Nat.lt_succ_self a) hl
    unfold ClientService.onApplied
    rw [ht]
    exact congrArg Prod.snd (if_pos hid)

end Fits

/-! ## 3. A proposal commits nothing of its own -/

section Behind

variable {K : Ctx} {s t : RaftCore} {N : ℕ}

/-- No peer is known to hold anything above `N`. -/
def Unmatched (N : ℕ) (s : RaftCore) : Prop := ∀ x ∈ s.matchIndex.toList, x.2 ≤ N

theorem replicas_unmatched (h : Unmatched N s) {n : ℕ} (hn : N < n) : replicas s n = 1 := by
  unfold replicas
  rw [List.filter_eq_nil_iff.mpr]
  · rfl
  · intro x hx hle
    have := h x hx
    have := of_decide_eq_true hle
    omega

theorem two_le_majority (h : K.peers ≠ []) : 2 ≤ K.majority := by
  have : 0 < K.peers.length := List.length_pos_iff.mpr h
  unfold Ctx.majority
  omega

theorem behind_commitScan (hK : K.peers ≠ []) : ∀ {n : ℕ} {t : RaftCore}, Unmatched N t → t.commitIndex ≤ N →
    Meets (always fun u => u.commitIndex ≤ N) () t (commitScan K n) (fun _ _ u => u.commitIndex ≤ N)
  | 0, _, _, ht => meets_pure ht
  | n + 1, t, hm, ht => by
      refine meets_read_bind (meets_ite (fun _ => ?_) fun _ => meets_pure ht)
      have hterm := (quiet_termAt (n + 1)).idles t
      refine meets_bind (meets_always (fun u hu => (hterm u hu).commitIndex ▸ ht) ?_)
      obtain ⟨-, o, -, hend⟩ := ends_final (ends_termAt (s := t) (n + 1))
      rw [hend]
      refine meets_ite (fun _ => meets_pure ht) fun _ => meets_ite (fun hmaj => ?_) fun _ => ?_
      · -- an index above `N` is held by the leader alone
        have hle : n + 1 ≤ N := by
          by_contra hgt
          rw [replicas_unmatched hm (Nat.lt_of_not_le hgt)] at hmaj
          have := two_le_majority hK
          omega
        refine meets_bind (always_write hle (meets_always (fun u hu => ?_) ?_))
        · exact (congrArg RaftCore.commitIndex (bare_applyCommitted K _ u hu) :).trans_le hle
        · have hlast := view_getLastD (bare_applyCommitted K
            { t with out := t.out ++ o, commitIndex := n + 1 }) rfl
          exact (congrArg RaftCore.commitIndex hlast :).trans_le hle
      · exact behind_commitScan hK hm ht

/-- What follows an append. -/
theorem behind_replicate {α : Type} {v : α} (hK : K.peers ≠ []) (hm : Unmatched N t) (ht : t.commitIndex ≤ N) :
    Meets (always fun u => u.commitIndex ≤ N) () t
      (do advanceCommit K
          K.peers.forM (sendAppendEntries K)
          armHeartbeat K
          pure v)
      (fun _ _ _ => True) := by
  refine meets_bind (meets_mono (meets_read_bind (behind_commitScan hK hm ht)) fun _ _ u hu => ?_)
  have hrest : Quiet (K.peers.forM (sendAppendEntries K) >>= fun _ => armHeartbeat K >>= fun _ => pure v) :=
    quiet_bind (quiet_forM quiet_sendAppendEntries _) fun _ => quiet_bind quiet_armHeartbeat fun _ => quiet_pure v
  exact meets_always (fun x hx => ((hrest.idles u x hx).commitIndex).trans_le hu) trivial

/-- **With a peer, a proposal commits nothing of its own**: at every moment of the call the commit index
    is inside the log of before. -/
theorem behind_propose (hK : K.peers ≠ []) (hm : Unmatched N s) (hs : s.commitIndex ≤ N) (c : Bytes) :
    ∀ t ∈ (propose K c).moments s, t.commitIndex ≤ N := by
  have h : Meets (always fun u => u.commitIndex ≤ N) () s (propose K c) (fun _ _ _ => True) := by
    refine meets_read_bind (meets_ite (fun _ => meets_pure trivial) fun _ => ?_)
    have happ := (quiet_append [⟨s.currentTerm, c⟩]).idles s
    refine meets_bind (meets_always (fun u hu => ((happ u hu).commitIndex).trans_le hs) ?_)
    rw [ends_final ends_append_eq]
    exact meets_read_bind (behind_replicate hK hm hs)
  exact plan_always h

theorem behind_proposeBatch (hK : K.peers ≠ []) (hm : Unmatched N s) (hs : s.commitIndex ≤ N)
    (cs : List Bytes) : ∀ t ∈ (proposeBatch K cs).moments s, t.commitIndex ≤ N := by
  have h : Meets (always fun u => u.commitIndex ≤ N) () s (proposeBatch K cs) (fun _ _ _ => True) := by
    refine meets_read_bind (meets_ite (fun _ => meets_pure trivial) fun _ => ?_)
    have happ := (quiet_append (cs.map fun c => ⟨s.currentTerm, c⟩)).idles s
    refine meets_bind (meets_always (fun u hu => ((happ u hu).commitIndex).trans_le hs) ?_)
    rw [ends_final ends_append_eq]
    exact meets_read_bind (behind_replicate hK hm hs)
  exact plan_always h

end Behind

/-- Between two calls a leader knows of nothing above its own log. -/
theorem unmatched_idle {C : Cluster} {w : Cluster.World} {n : NodeId} (h : C.system.Reachable w)
    (hi : w.Idle n) (hr : (w.cur n).role = .leader) : Unmatched (w.cur n).log.length (w.cur n) := by
  obtain ⟨a, ha⟩ := Cluster.explained h
  have hlead := (ha.rest hi).lead hr
  intro x hx
  have hget : (w.cur n).matchIndex[x.1]? = some x.2 := Std.ExtTreeMap.mem_toList_iff_getElem?_eq_some.mp hx
  have hmem : x.1 ∈ (w.cur n).matchIndex := by
    rw [Std.ExtTreeMap.mem_iff_isSome_getElem?, hget]
    rfl
  have hwin := (ha.mid n).window hr x.1 (hlead.keys _ hmem)
  have hval : (w.cur n).matchIndex.getD x.1 0 = x.2 := by
    rw [Std.ExtTreeMap.getD_eq_getD_getElem?, hget]
    rfl
  omega

/-! ## 4. The invariant -/

/-- **The table of a node against its life.** `x` is the slot of its core. -/
structure Ledger (L : Life) (x : Slot RaftCore) (d : Node) : Prop where
  table : Fits L.puts d.svc.pending d.applied
  known : ∀ p ∈ L.proposals,
    decodePrefix p.entry.command = some (p.pending.clientId, p.pending.seqNo) ∧
    ((p.index, p.pending) ∈ L.puts ∨ (p.index, p.pending) ∈ unfiled d)
  behind : ∀ y ∈ unfiled d, ∀ t, t = x.cur ∨ t ∈ x.todo → t.commitIndex < y.1

theorem mem_filed : ∀ {l : List Buffered} {T i : ℕ} {p : Proposal}, p ∈ filed T i l →
    (p.index, p.pending) ∈ records i l ∧ ∃ b ∈ l, p.entry.command = b.command ∧
      p.pending = ⟨b.src, b.clientId, b.seqNo⟩
  | b :: l, T, i, p, h => by
      rcases List.mem_cons.mp h with rfl | h
      · exact ⟨List.mem_cons_self, b, List.mem_cons_self, rfl, rfl⟩
      · obtain ⟨h1, c, hc, h2⟩ := mem_filed h
        exact ⟨List.mem_cons_of_mem _ h1, c, List.mem_cons_of_mem b hc, h2⟩

theorem le_of_mem_records : ∀ {l : List Buffered} {i : ℕ} {y : ℕ × Pending}, y ∈ records i l → i ≤ y.1
  | b :: l, i, y, h => by
      rcases List.mem_cons.mp h with rfl | h
      · exact Nat.le_refl _
      · exact Nat.le_of_succ_le (le_of_mem_records h)

section Ledger

variable {C : Cluster} {S : Nodes} {L : Life} {x : Slot RaftCore} {d d' : Node} {K : Ctx}

theorem ledger_init (x : Slot RaftCore) (b : Batching) : Ledger {} x { svc := { batching := b } } :=
  ⟨fits_nil, fun _ h => (List.not_mem_nil h).elim, fun _ h => (List.not_mem_nil h).elim⟩

/-- The node is not in a proposal, before and after. -/
theorem Ledger.outside (h : Ledger L x d) {y : Slot RaftCore} (hd : unfiled d = []) (hd' : unfiled d' = [])
    (hp : d'.svc.pending = d.svc.pending) (ha : d'.applied = d.applied) : Ledger L y d' := by
  refine ⟨?_, fun p hp' => ?_, ?_⟩
  · rw [hp, ha]
    exact h.table
  · rw [hd']
    have hk := h.known p hp'
    rw [hd] at hk
    exact hk
  · rw [hd']
    exact fun _ hy => (List.not_mem_nil hy).elim

/-- The node begins a proposal. -/
theorem Ledger.begins (h : Ledger L x d) {y : Slot RaftCore} {ps : List Proposal} (hd : unfiled d = [])
    (hps : ∀ p ∈ ps, decodePrefix p.entry.command = some (p.pending.clientId, p.pending.seqNo) ∧
      (p.index, p.pending) ∈ unfiled d')
    (hb : ∀ z ∈ unfiled d', ∀ t, t = y.cur ∨ t ∈ y.todo → t.commitIndex < z.1)
    (hp : d'.svc.pending = d.svc.pending) (ha : d'.applied = d.applied) :
    Ledger (L.proposed ps) y d' := by
  refine ⟨?_, fun p hp' => ?_, hb⟩
  · rw [hp, ha]
    exact h.table
  · rcases List.mem_append.mp hp' with hp' | hp'
    · obtain ⟨h1, h2⟩ := h.known p hp'
      rw [hd] at h2
      exact ⟨h1, .inl (h2.resolve_right List.not_mem_nil)⟩
    · exact ⟨(hps p hp').1, .inr (hps p hp').2⟩

/-- The proposal has returned. -/
theorem Ledger.returns (h : Ledger L x d) {y : Slot RaftCore}
    (ht : Fits (L.puts ++ unfiled d) d'.svc.pending d'.applied) (hd' : unfiled d' = []) :
    Ledger { L with puts := L.puts ++ unfiled d } y d' := by
  refine ⟨ht, fun p hp => ?_, ?_⟩
  · obtain ⟨h1, h2⟩ := h.known p hp
    exact ⟨h1, .inl (List.mem_append.mpr h2)⟩
  · rw [hd']
    exact fun _ hy => (List.not_mem_nil hy).elim

/-- The table changes and the Raft thread stays where it is. -/
theorem Ledger.tells (h : Ledger L x d) (ht : Fits L.puts d'.svc.pending d'.applied)
    (hp : d'.phase = d.phase) (hb : d'.svc.buffer = d.svc.buffer) : Ledger L x d' := by
  have hun : unfiled d' = unfiled d := by
    unfold unfiled
    rw [hp, hb]
  refine ⟨ht, ?_, ?_⟩
  · rw [hun]
    exact h.known
  · rw [hun]
    exact h.behind

theorem pending_onClientRequest (s : ClientService) (core : RaftCore) (src : NodeId) (req : ClientRequest) :
    (s.onClientRequest core src req).1.pending = s.pending := by
  unfold ClientService.onClientRequest
  dsimp only
  split_ifs <;> rfl

theorem pending_flushIfDue (s : ClientService) (now : ℕ) : (s.flushIfDue now).1.pending = s.pending := by
  unfold ClientService.flushIfDue
  dsimp only
  split_ifs <;> rfl

theorem moments_step_propose (K : Ctx) (c : Bytes) (s : RaftCore) :
    (step K (.propose c)).moments s = (propose K c).moments s := List.append_nil _

theorem moments_step_proposeBatch (K : Ctx) (cs : List Bytes) (s : RaftCore) :
    (step K (.proposeBatch cs)).moments s = (proposeBatch K cs).moments s := List.append_nil _

/-- A proposal that gets an index is made by a leader, behind its log. -/
theorem value_propose {s : RaftCore} {c : Bytes} {i : ℕ} (h : (propose K c).value s = some i) :
    s.role = .leader ∧ i = s.log.length + 1 := by
  by_cases hr : s.role = .leader
  · have hv := (ends_final (ends_propose (K := K) hr c)).1
    rw [h] at hv
    exact ⟨hr, Option.some.inj hv⟩
  · have hv := (ends_final (ends_propose_refused (K := K) hr c)).1
    rw [h] at hv
    cases hv

theorem value_proposeBatch {s : RaftCore} {cs : List Bytes} {i : ℕ} (h : (proposeBatch K cs).value s = some i) :
    s.role = .leader ∧ i = s.log.length + 1 := by
  by_cases hr : s.role = .leader ∧ cs ≠ []
  · have hv := (ends_final (ends_proposeBatch (K := K) hr.1 hr.2)).1
    rw [h] at hv
    exact ⟨hr.1, Option.some.inj hv⟩
  · have hv : (proposeBatch K cs).value s = none := by
      have hif : cs = [] ∨ s.role ≠ .leader := by
        rw [not_and_or, not_not] at hr
        exact hr.symm
      show ((if cs = [] ∨ s.role ≠ .leader then pure none else _ : RaftM (Option ℕ))).value s = none
      rw [if_pos hif]
      rfl
    rw [h] at hv
    cases hv

/-- Nothing a leader proposes is committed while the call runs. -/
theorem behind_begun (hr : C.system.Reachable S.world) (hK : Nodes.Ready C S K)
    {i : Input} {j : ℕ} (hlead : (S.world.cur K.self).role = .leader) (hj : (S.world.cur K.self).log.length < j)
    (hi : ∀ N, Unmatched N (S.world.cur K.self) → (S.world.cur K.self).commitIndex ≤ N →
      ∀ t ∈ (step K i).moments (S.world.cur K.self), t.commitIndex ≤ N) :
    ∀ t, t = (S.begun K i K.self).cur ∨ t ∈ (S.begun K i K.self).todo → t.commitIndex < j := by
  have hcommit : (S.world.cur K.self).commitIndex ≤ (S.world.cur K.self).log.length :=
    (Cluster.commit_monotone hr K.self).2.1
  have hmatch := unmatched_idle hr hK.2.2 hlead
  unfold Nodes.begun
  rw [Function.update_self]
  rintro t (rfl | ht)
  · exact Nat.lt_of_le_of_lt hcommit hj
  · exact Nat.lt_of_le_of_lt (hi _ hmatch hcommit t ht) hj

theorem ledger_flushing (h : Ledger L (S.world K.self) (S.node K.self)) (hr : C.system.Reachable S.world)
    (hK : Nodes.Ready C S K) (hpeers : C.peers K.self ≠ []) (hd : unfiled (S.node K.self) = [])
    {svc : ClientService} (hp : svc.pending = (S.node K.self).svc.pending)
    (hb : ∀ b ∈ svc.buffer, decodePrefix b.command = some (b.clientId, b.seqNo)) :
    Ledger (L.proposed (flushProposals K (S.world.cur K.self) svc))
      ((S.flushing K svc).world K.self) ((S.flushing K svc).node K.self) := by
  have hnode : (S.flushing K svc).node K.self = { S.node K.self with
      svc := svc
      phase := .flushing ((proposeBatch K svc.flushScratch).value (S.world.cur K.self)) } :=
    Function.update_self _ _ _
  rw [hnode]
  have hunfiled : unfiled { S.node K.self with
      svc := svc
      phase := .flushing ((proposeBatch K svc.flushScratch).value (S.world.cur K.self)) } =
      match (proposeBatch K svc.flushScratch).value (S.world.cur K.self) with
      | some first => records first svc.buffer
      | none => [] := by
    unfold unfiled
    cases (proposeBatch K svc.flushScratch).value (S.world.cur K.self) <;> rfl
  refine h.begins hd (fun p hp' => ?_) (fun z hz => ?_) hp rfl
  · rw [hunfiled]
    unfold flushProposals at hp'
    cases hv : (proposeBatch K svc.flushScratch).value (S.world.cur K.self) with
    | none =>
        rw [hv] at hp'
        exact (List.not_mem_nil hp').elim
    | some first =>
        rw [hv] at hp'
        obtain ⟨h1, b, hbm, h2, h3⟩ := mem_filed hp'
        refine ⟨?_, h1⟩
        rw [h2, h3]
        exact hb b hbm
  · rw [hunfiled] at hz
    cases hv : (proposeBatch K svc.flushScratch).value (S.world.cur K.self) with
    | none =>
        rw [hv] at hz
        exact (List.not_mem_nil hz).elim
    | some first =>
        rw [hv] at hz
        obtain ⟨hlead, hfirst⟩ := value_proposeBatch hv
        have hz1 := le_of_mem_records hz
        refine behind_begun hr hK hlead (by omega) fun N hm hc t ht => ?_
        rw [moments_step_proposeBatch] at ht
        refine behind_proposeBatch ?_ hm hc _ t ht
        rw [hK.2.1]
        exact hpeers

theorem ledger_served (h : Ledger L (S.world K.self) (S.node K.self)) (hr : C.system.Reachable S.world)
    (hK : Nodes.Ready C S K) (hpeers : C.peers K.self ≠ []) (hd : unfiled (S.node K.self) = [])
    (hask : Asked (fun _ _ => True) (S.node K.self).svc) (src : NodeId) (req : ClientRequest) :
    Ledger (L.proposed (serveProposals K (S.world.cur K.self) src req
        ((S.node K.self).svc.onClientRequest (S.world.cur K.self) src req)))
      ((S.served K src req).1.world K.self) ((S.served K src req).1.node K.self) := by
  obtain ⟨hs, -, hprop⟩ := asked_onClientRequest hask (S.world.cur K.self) trivial
  have hpend := pending_onClientRequest (S.node K.self).svc (S.world.cur K.self) src req
  unfold Nodes.served
  dsimp only
  rcases hc : (S.node K.self).svc.onClientRequest (S.world.cur K.self) src req with ⟨svc, next⟩
  rw [hc] at hs hprop hpend
  have hloop : Ledger (L.proposed []) (S.world K.self)
      (S.set K.self { S.node K.self with svc := svc, phase := .loop } K.self) := by
    unfold Nodes.set
    rw [Function.update_self, Life.proposed_nil]
    exact h.outside hd rfl hpend rfl
  cases next with
  | done => exact hloop
  | reply r => exact hloop
  | flushBatch => exact ledger_flushing h hr hK hpeers hd hpend fun b hb => (hs.buffer b hb).2
  | propose =>
      have hid := hprop rfl
      unfold Nodes.set serveProposals
      dsimp only
      rw [Function.update_self]
      cases hv : (propose K req.command).value (S.world.cur K.self) with
      | none =>
          rw [Life.proposed_nil]
          exact h.outside hd rfl hpend rfl
      | some i =>
          obtain ⟨hlead, hi⟩ := value_propose hv
          refine h.begins hd (fun p hp => ?_) (fun z hz => ?_) hpend rfl
          · rw [List.mem_singleton.mp hp]
            exact ⟨hid, List.mem_cons_self⟩
          · rw [List.mem_singleton.mp hz]
            refine behind_begun hr hK hlead (by omega) fun N hm hc t ht => ?_
            rw [moments_step_propose] at ht
            refine behind_propose ?_ hm hc _ t ht
            rw [hK.2.1]
            exact hpeers

/-- A node that does not act stays as it is. -/
theorem nodes_other {a : Act} {out : Nodes × List Answer} (hs : Nodes.step C S a = some out) {m : NodeId}
    (hm : m ≠ a.node) : out.1.world m = S.world m ∧ out.1.node m = S.node m := by
  have hset : ∀ {n : NodeId} (d : Node), m ≠ n → S.set n d m = S.node m := fun d h => Function.update_of_ne h _ _
  have hbegun : ∀ {K : Ctx} (i : Input), m ≠ K.self → S.begun K i m = S.world m :=
    fun i h => Function.update_of_ne h _ _
  cases Nodes.stepped hs with
  | call K i => exact ⟨hbegun i hm, rfl⟩
  | advance n t l => exact ⟨Function.update_of_ne hm _ _, rfl⟩
  | crash n rng => exact ⟨Function.update_of_ne hm _ _, hset _ hm⟩
  | request K src req => exact ⟨hbegun _ hm, hset _ hm⟩
  | serve K src req =>
      unfold Nodes.served
      dsimp only
      split
      · exact ⟨rfl, hset _ hm⟩
      · exact ⟨rfl, hset _ hm⟩
      · exact ⟨hbegun _ hm, hset _ hm⟩
      · exact ⟨hbegun _ hm, hset _ hm⟩
  | proposed n => exact ⟨rfl, hset _ hm⟩
  | flushed n => exact ⟨rfl, hset _ hm⟩
  | flush K svc => exact ⟨hbegun _ hm, hset _ hm⟩
  | wait K svc => exact ⟨rfl, hset _ hm⟩
  | apply n entry => exact ⟨rfl, hset _ hm⟩

/-- **Every act keeps the ledger of the node that acts**, if it has a peer. -/
theorem ledger_acts {L : NodeId → Life} {a : Act} {out : Nodes × List Answer}
    (hg : Good C (fun _ => True) (fun _ _ _ => True) S)
    (h : Ledger (L a.node) (S.world a.node) (S.node a.node)) (hpeers : C.peers a.node ≠ [])
    (hs : Nodes.step C S a = some out) :
    Ledger (track S L a a.node) (out.1.world a.node) (out.1.node a.node) := by
  have htrack : track S L a a.node = (L a.node).noted (S.world.cur a.node) (S.node a.node) a :=
    Function.update_self _ _ _
  have hset : ∀ (n : NodeId) (d : Node), S.set n d n = d := fun n d => Function.update_self _ _ _
  have hphase : ∀ {d : Node}, d.phase = .loop → unfiled d = [] := by
    intro d hd
    unfold unfiled
    rw [hd]
  -- what the service files when its proposal has returned
  have hfile : ∀ {n : NodeId} {o : ClientService × List (NodeId × ClientReply)},
      Ledger (L n) (S.world n) (S.node n) →
      Fits ((L n).puts ++ unfiled (S.node n)) o.1.pending (S.node n).applied →
      Ledger ((L n).noted (S.world.cur n) (S.node n) (.returned n)) ((S.resumed n o).1.world n)
        ((S.resumed n o).1.node n) := by
    intro n o h ho
    unfold Nodes.resumed
    dsimp only
    rw [hset]
    exact h.returns ho rfl
  rw [htrack]
  cases Nodes.stepped hs with
  | call K i hK hp => exact h.outside (hphase hp) (hphase hp) rfl rfl
  | advance n t l ht =>
      refine ⟨h.table, h.known, fun y hy u hu => h.behind y hy u (.inr ?_)⟩
      have hslot : (Function.update S.world n ⟨t, l⟩ : Cluster.World) n = ⟨t, l⟩ := Function.update_self _ _ _
      change u = (Function.update S.world n ⟨t, l⟩ n).cur ∨ u ∈ (Function.update S.world n ⟨t, l⟩ n).todo at hu
      rw [hslot] at hu
      show u ∈ (S.world n).todo
      rw [ht]
      exact List.mem_cons.mpr hu
  | crash n rng hn =>
      dsimp only [Act.node]
      rw [hset]
      exact ledger_init _ _
  | request K src req hK hp =>
      dsimp only [Act.node]
      rw [hset]
      exact h.outside (hphase hp) rfl rfl rfl
  | serve K src req hK hp =>
      have hd : unfiled (S.node K.self) = [] := by
        unfold unfiled
        rw [hp]
      have hL : (L K.self).noted (S.world.cur K.self) (S.node K.self) (.serve K) =
          (L K.self).proposed (serveProposals K (S.world.cur K.self) src req
            ((S.node K.self).svc.onClientRequest (S.world.cur K.self) src req)) := by
        unfold Life.noted
        rw [hp]
      dsimp only [Act.node]
      rw [hL]
      exact ledger_served h hg.reachable hK hpeers hd (hg.node K.self).asked src req
  | proposed n src req index hp =>
      refine hfile h ?_
      dsimp only [Act.node, unfiled]
      rw [hp]
      cases index with
      | none =>
          rw [List.append_nil]
          exact h.table
      | some i => exact h.table.put i _
  | flushed n first hp =>
      refine hfile h ?_
      dsimp only [Act.node, unfiled]
      rw [hp]
      cases first with
      | none =>
          rw [List.append_nil]
          exact h.table
      | some first => exact h.table.putAll
  | flush K svc hK hp he =>
      have hpend := pending_flushIfDue (S.node K.self).svc K.now
      have hask := asked_flushIfDue (hg.node K.self).asked K.now
      dsimp only [Act.node, Life.noted]
      rw [he] at hpend hask ⊢
      exact ledger_flushing h hg.reachable hK hpeers (hphase hp) hpend fun b hb => (hask.buffer b hb).2
  | wait K svc next hK hp he hn =>
      have hpend := pending_flushIfDue (S.node K.self).svc K.now
      dsimp only [Act.node, Life.noted]
      rw [he] at hpend ⊢
      show Ledger _ _ (S.set K.self _ K.self)
      rw [hset]
      cases next with
      | flushBatch => exact absurd rfl hn
      | _ => exact h.outside (hphase hp) (hphase hp) hpend rfl
  | apply n entry hn he =>
      unfold Nodes.applied
      dsimp only [Act.node, Life.noted]
      rw [hset]
      have hsame := onApplied_service (S.node n).svc n ((S.node n).applied + 1) entry
        ((S.node n).machine.apply entry.command).2
      have hbuf : (ClientService.onApplied (S.node n).svc n ((S.node n).applied + 1) entry
          ((S.node n).machine.apply entry.command).2).1.buffer = (S.node n).svc.buffer :=
        (congrArg ClientService.buffer hsame :)
      exact h.tells (h.table.onApplied n entry _) rfl hbuf

end Ledger

/-! ## 5. When the answer comes -/

section Lived

variable {C : Cluster} {b : NodeId → Batching} {S : Nodes} {L : NodeId → Life}

theorem Lived.good (h : Lived C b S L) : Good C (fun _ => True) (fun _ _ _ => True) S := by
  induction h with
  | start => exact good_start C b
  | step _ hs ih => exact (good_step ih (fun _ _ _ _ _ => trivial) hs fun _ _ _ _ => trivial).good

/-- **Every node with a peer has its ledger in order**, along every run. -/
theorem Lived.ledger (h : Lived C b S L) {n : NodeId} (hn : C.peers n ≠ []) :
    Ledger (L n) (S.world n) (S.node n) := by
  induction h with
  | start => exact ledger_init _ _
  | @step S L a out htr hs ih =>
      by_cases ha : n = a.node
      · subst ha
        exact ledger_acts htr.good ih hn hs
      · obtain ⟨hw, hd⟩ := nodes_other hs ha
        have hL : track S L a n = L n := Function.update_of_ne ha _ _
        rw [hL, hw, hd]
        exact ih

theorem step_apply {n : NodeId} (hn : n ∈ C.ids) {e : LogEntry}
    (he : (S.world.cur n).sm[(S.node n).applied]? = some e) :
    Nodes.step C S (.apply n) = some (S.applied n e) := by
  dsimp only [Nodes.step]
  rw [if_pos hn, he]

/-- **An applied proposal has been recorded, and it is answered exactly if it is the last record in its
    slot.** On a node with a peer, when the apply thread takes the entry of a request that the service
    of this process has proposed at this index, the service has recorded the request under the index
    before; the replies of the step are one OK with the result, to the sender of the request, if and
    only if nothing else has been recorded in the slot of the index since. -/
theorem applied_proposal_answered (h : Lived C b S L) {n : NodeId} (hn : C.peers n ≠ []) {p : Proposal}
    (hp : p ∈ (L n).proposals) {out : Nodes × List Answer} (hs : Nodes.step C S (.apply n) = some out)
    (hi : p.index = (S.node n).applied + 1)
    (he : (S.world.cur n).sm[(S.node n).applied]? = some p.entry) :
    (p.index, p.pending) ∈ (L n).puts ∧
    (out.2 = [⟨n, p.pending.replyTo, ⟨.ok, n, ((S.node n).machine.apply p.entry.command).2⟩⟩] ↔
      lastIn (PendingTable.slotOf p.index) (L n).puts = some (p.index, p.pending)) := by
  have hl := h.ledger hn
  obtain ⟨hid, hput⟩ := hl.known p hp
  -- what is applied is committed, so the call that has proposed it is over
  have hcommit : p.index ≤ (S.world.cur n).commitIndex := by
    obtain ⟨a, ha⟩ := Cluster.explained h.good.reachable
    have hlt := (List.getElem?_eq_some_iff.mp he).1
    have hlen := (ha.mid n).sm.length_le
    rw [List.length_take] at hlen
    omega
  refine ⟨hput.resolve_right fun hun => ?_, ?_⟩
  · have hlt := hl.behind _ hun (S.world.cur n) (.inl rfl)
    exact absurd hcommit (Nat.not_le_of_lt hlt)
  · have hout : out = S.applied n p.entry := by
      cases Nodes.stepped hs with
      | apply _ entry _ he' => rw [Option.some.inj (he'.symm.trans he)]
    have hans := hl.table.answers n ((S.node n).machine.apply p.entry.command).2 hid
    rw [hi, ← hans, hout]
    unfold Nodes.applied
    dsimp only
    constructor
    · intro hmap
      obtain ⟨q, l, hq, hq', hl'⟩ := List.map_eq_cons_iff.mp hmap
      rw [List.map_eq_nil_iff] at hl'
      obtain ⟨dest, reply⟩ := q
      cases hq'
      rw [hq, hl']
    · intro ho
      rw [ho]
      rfl

/-- Acts one after the other; one that cannot happen is left out. -/
def perform (C : Cluster) : Nodes × (NodeId → Life) → List Act → Nodes × (NodeId → Life)
  | x, [] => x
  | x, a :: as =>
      match Nodes.step C x.1 a with
      | none => perform C x as
      | some out => perform C (out.1, track x.1 x.2 a) as

theorem lived_perform : ∀ (as : List Act) {x : Nodes × (NodeId → Life)}, Lived C b x.1 x.2 →
    Lived C b (perform C x as).1 (perform C x as).2
  | [], _, h => h
  | a :: as, x, h => by
      unfold perform
      cases hs : Nodes.step C x.1 a with
      | none => exact lived_perform as h
      | some out => exact lived_perform as (h.step hs)

/-- The acts by which a core goes on alone. -/
def Act.plain : Act → Bool
  | .call _ _ => true
  | .advance _ => true
  | _ => false

theorem life_perform : ∀ {as : List Act} {x : Nodes × (NodeId → Life)}, as.all Act.plain = true →
    (perform C x as).2 = x.2
  | [], _, _ => rfl
  | a :: as, x, h => by
      rw [List.all_cons, Bool.and_eq_true] at h
      unfold perform
      cases hs : Nodes.step C x.1 a with
      | none => exact life_perform h.2
      | some out =>
          have hlife : track x.1 x.2 a = x.2 := by
            cases a with
            | call K i => exact Function.update_eq_self _ _
            | advance n => exact Function.update_eq_self _ _
            | _ => cases h.1
          exact (life_perform h.2).trans hlife

/-- A call that has begun is taken to its end. -/
theorem Lived.finish {n : NodeId} : ∀ {l : List RaftCore} {S : Nodes}, Lived C b S L → (S.world n).todo = l →
    Lived C b { S with world := Function.update S.world n ⟨l.getLastD (S.world.cur n), []⟩ } L
  | [], S, h, hl => by
      have hsame : Function.update S.world n ⟨S.world.cur n, []⟩ = S.world := by
        refine Function.update_eq_self_iff.mpr ?_
        rw [World.cur, ← hl]
      rw [List.getLastD_nil, hsame]
      exact h
  | t :: l, S, h, hl => by
      have hstep : Nodes.step C S (.advance n) =
          some ({ S with world := Function.update S.world n ⟨t, l⟩ }, []) := by
        dsimp only [Nodes.step]
        rw [hl]
      have hlife : track S L (.advance n) = L := Function.update_eq_self _ _
      have hnext := h.step hstep
      rw [hlife] at hnext
      have htodo : (Function.update S.world n ⟨t, l⟩ n).todo = l := by rw [Function.update_self]
      have hrest := hnext.finish htodo
      dsimp only at hrest
      rw [Function.update_idem, World.cur_update_self] at hrest
      rw [List.getLastD_cons]
      exact hrest

theorem final_clientRequest {K : Ctx} (hclient : K.hasClientHandler = true) (src : NodeId) (req : ClientRequest)
    (s : RaftCore) : (step K (.handle src (.clientRequest req))).final s =
      { s with out := s.out ++ [.clientRequest src req] } := by
  show (Prog.when (K.hasClientHandler = true) (emit (.clientRequest src req))).final s = _
  unfold Prog.when
  rw [if_pos hclient]
  rfl

/-- A request comes to a node between two calls, and reaches the service. -/
theorem lived_arrives (h : Lived C b S L) {K : Ctx} (hK : Nodes.Ready C S K)
    (hclient : K.hasClientHandler = true) (hphase : (S.node K.self).phase = .loop) (src : NodeId)
    (req : ClientRequest) :
    Lived C b { world := Function.update S.world K.self
                  ⟨{ S.world.cur K.self with out := (S.world.cur K.self).out ++ [.clientRequest src req] }, []⟩
                node := S.set K.self { S.node K.self with phase := .request src req } } L := by
  have hreq : Nodes.step C S (.request K src req) =
      some ({ world := S.begun K (.handle src (.clientRequest req))
              node := S.set K.self { S.node K.self with phase := .request src req } }, []) :=
    if_pos ⟨hK, hphase, hclient⟩
  have hnext := h.step hreq
  have hlife : track S L (.request K src req) = L := Function.update_eq_self _ _
  rw [hlife] at hnext
  have htodo : (S.begun K (.handle src (.clientRequest req)) K.self).todo =
      (step K (.handle src (.clientRequest req))).moments (S.world.cur K.self) := by
    unfold Nodes.begun
    rw [Function.update_self]
  have hend := hnext.finish htodo
  dsimp only at hend
  unfold Nodes.begun at hend
  rw [Function.update_idem, World.cur_update_self] at hend
  rw [← final_clientRequest hclient]
  exact hend

/-- The service proposes it, at once. -/
theorem lived_proposes (h : Lived C b S L) {K : Ctx} (hK : Nodes.Ready C S K) {src : NodeId}
    {req : ClientRequest} (hphase : (S.node K.self).phase = .request src req)
    (hlead : (S.world.cur K.self).role = .leader) (hbatch : (S.node K.self).svc.batching.maxBatch ≤ 1)
    (hid : decodePrefix req.command = some (req.clientId, req.seqNo)) {i : ℕ}
    (hv : (propose K req.command).value (S.world.cur K.self) = some i) :
    ∃ svc, svc = { (S.node K.self).svc with leaderHint := svc.leaderHint } ∧ Lived C b
      { world := Function.update S.world K.self ⟨(propose K req.command).final (S.world.cur K.self), []⟩
        node := S.set K.self { S.node K.self with svc := svc, phase := .proposing src req (some i) } }
      (Function.update L K.self ((L K.self).proposed
        [⟨i, ⟨(S.world.cur K.self).currentTerm, req.command⟩, ⟨src, req.clientId, req.seqNo⟩⟩])) := by
  have hon : (S.node K.self).svc.onClientRequest (S.world.cur K.self) src req =
      ({ (S.node K.self).svc with leaderHint := (S.world.cur K.self).leaderId.getD 0 }, .propose) := by
    unfold ClientService.onClientRequest
    dsimp only
    rw [if_neg (not_not.mpr hlead), if_neg (not_not.mpr hid), if_neg (Nat.not_lt_of_le hbatch)]
  refine ⟨{ (S.node K.self).svc with leaderHint := (S.world.cur K.self).leaderId.getD 0 }, rfl, ?_⟩
  have hserve : Nodes.step C S (.serve K) =
      some ({ world := S.begun K (.propose req.command)
              node := S.set K.self { S.node K.self with
                svc := { (S.node K.self).svc with leaderHint := (S.world.cur K.self).leaderId.getD 0 }
                phase := .proposing src req (some i) } }, []) := by
    dsimp only [Nodes.step]
    rw [hphase]
    dsimp only
    rw [if_pos hK]
    unfold Nodes.served
    dsimp only
    rw [hon]
    dsimp only
    rw [hv]
  have hlife : track S L (.serve K) = Function.update L K.self ((L K.self).proposed
      [⟨i, ⟨(S.world.cur K.self).currentTerm, req.command⟩, ⟨src, req.clientId, req.seqNo⟩⟩]) := by
    unfold track Life.noted
    dsimp only [Act.node]
    rw [hphase]
    dsimp only
    rw [hon]
    unfold serveProposals
    dsimp only
    rw [hv]
  have hnext := h.step hserve
  rw [hlife] at hnext
  have htodo : (S.begun K (.propose req.command) K.self).todo =
      (step K (.propose req.command)).moments (S.world.cur K.self) := by
    unfold Nodes.begun
    rw [Function.update_self]
  have hend := hnext.finish htodo
  dsimp only at hend
  unfold Nodes.begun at hend
  rw [Function.update_idem, World.cur_update_self] at hend
  rw [← final_step_propose]
  exact hend

/-- The proposal has returned and is recorded. -/
theorem lived_returns (h : Lived C b S L) {n : NodeId} (hidle : (S.world n).todo = []) {src : NodeId}
    {req : ClientRequest} {i : ℕ} (hphase : (S.node n).phase = .proposing src req (some i)) :
    Lived C b
      { S with node := S.set n { S.node n with
          svc := { (S.node n).svc with
            pending := (S.node n).svc.pending.put i ⟨src, req.clientId, req.seqNo⟩ }
          phase := .loop } }
      (Function.update L n { L n with puts := (L n).puts ++ [(i, ⟨src, req.clientId, req.seqNo⟩)] }) := by
  have hret : Nodes.step C S (.returned n) = some
      ({ S with node := S.set n { S.node n with
          svc := { (S.node n).svc with
            pending := (S.node n).svc.pending.put i ⟨src, req.clientId, req.seqNo⟩ }
          phase := .loop } }, []) := by
    dsimp only [Nodes.step]
    rw [if_pos hidle, hphase]
    rfl
  have hlife : track S L (.returned n) =
      Function.update L n { L n with puts := (L n).puts ++ [(i, ⟨src, req.clientId, req.seqNo⟩)] } := by
    unfold track Life.noted unfiled
    dsimp only [Act.node]
    rw [hphase]
  have hnext := h.step hret
  rw [hlife] at hnext
  exact hnext

/-- **A leader that proposes at once gets a request**: it is proposed at the end of the log and
    recorded. -/
theorem lived_request (h : Lived C b S L) {K : Ctx} (hK : Nodes.Ready C S K) (hsink : K.applySink = none)
    (hclient : K.hasClientHandler = true) (hphase : (S.node K.self).phase = .loop)
    (hlead : (S.world.cur K.self).role = .leader) (hbatch : (S.node K.self).svc.batching.maxBatch ≤ 1)
    (src : NodeId) {req : ClientRequest} (hid : decodePrefix req.command = some (req.clientId, req.seqNo)) :
    ∃ S' L' s t, Lived C b S' L' ∧ s = { S.world.cur K.self with out := s.out } ∧
      (S.world.cur K.self).out <+: s.out ∧
      Settled K [⟨s.currentTerm, req.command⟩] s t ∧ S'.world = Function.update S.world K.self ⟨t, []⟩ ∧
      (S'.node K.self).phase = .loop ∧ (S'.node K.self).applied = (S.node K.self).applied ∧
      (S'.node K.self).svc.batching = (S.node K.self).svc.batching ∧
      (∀ m, m ≠ K.self → S'.node m = S.node m) ∧
      (L' K.self).proposals = (L K.self).proposals ++
        [⟨s.log.length + 1, ⟨s.currentTerm, req.command⟩, ⟨src, req.clientId, req.seqNo⟩⟩] ∧
      (L' K.self).puts = (L K.self).puts ++ [(s.log.length + 1, ⟨src, req.clientId, req.seqNo⟩)] := by
  obtain ⟨s, hs⟩ : ∃ s : RaftCore, s = { S.world.cur K.self with
    out := (S.world.cur K.self).out ++ [.clientRequest src req] } := ⟨_, rfl⟩
  have hrole : s.role = .leader := by
    rw [hs]
    exact hlead
  obtain ⟨hv, hset⟩ := ends_final (ends_propose_inline (K := K) hsink hrole req.command)
  -- it arrives
  have h1 := lived_arrives h hK hclient hphase src req
  rw [← hs] at h1
  generalize hS1 : ({ world := Function.update S.world K.self ⟨s, []⟩
                      node := S.set K.self { S.node K.self with phase := .request src req } } : Nodes) = S1 at h1
  have hcur : S1.world.cur K.self = s := by
    rw [← hS1]
    exact World.cur_update_self
  have hnode : S1.node K.self = { S.node K.self with phase := .request src req } := by
    rw [← hS1]
    exact Function.update_self _ _ _
  have hready : Nodes.Ready C S1 K := by
    refine ⟨hK.1, hK.2.1, ?_⟩
    rw [← hS1]
    dsimp only
    rw [Function.update_self]
  -- it is proposed
  obtain ⟨svc, hsvc, h2⟩ := lived_proposes h1 hready (by rw [hnode]) (by rw [hcur]; exact hrole)
    (by rw [hnode]; exact hbatch) hid (by rw [hcur]; exact hv)
  rw [hcur] at h2
  generalize hS2 : ({ world := Function.update S1.world K.self ⟨(propose K req.command).final s, []⟩
                      node := S1.set K.self { S1.node K.self with
                        svc := svc, phase := .proposing src req (some (s.log.length + 1)) } } : Nodes) = S2 at h2
  have hnode2 : S2.node K.self = { S1.node K.self with
      svc := svc, phase := .proposing src req (some (s.log.length + 1)) } := by
    rw [← hS2]
    exact Function.update_self _ _ _
  have hworld2 : S2.world = Function.update S.world K.self ⟨(propose K req.command).final s, []⟩ := by
    rw [← hS2, ← hS1]
    exact Function.update_idem _ _ _
  -- and recorded
  have h3 := lived_returns h2 (n := K.self) (by rw [hworld2, Function.update_self]) (by rw [hnode2])
  refine ⟨_, _, s, _, h3, ?_, ?_, hset, hworld2, ?_, ?_, ?_, fun m hm => ?_, ?_, ?_⟩
  · rw [hs]
  · rw [hs]
    exact List.prefix_append _ _
  · dsimp only [Nodes.set]
    rw [Function.update_self]
  · dsimp only [Nodes.set]
    rw [Function.update_self, hnode2, hnode]
  · dsimp only [Nodes.set]
    rw [Function.update_self, hnode2]
    dsimp only
    rw [hsvc, hnode]
  · dsimp only [Nodes.set]
    rw [Function.update_of_ne hm, ← hS2]
    dsimp only [Nodes.set]
    rw [Function.update_of_ne hm, ← hS1]
    exact Function.update_of_ne hm _ _
  · rw [Function.update_self, Function.update_self]
    rfl
  · rw [Function.update_self, Function.update_self]
    rfl

/-- A whole call of the runtime into a core. -/
theorem lived_call (h : Lived C b S L) {K : Ctx} (hK : Nodes.Ready C S K)
    (hphase : (S.node K.self).phase = .loop) {i : Input} (hi : internal i = true)
    (hallowed : C.Allowed S.world.cur K.self i) :
    Lived C b { S with world := Function.update S.world K.self ⟨(step K i).final (S.world.cur K.self), []⟩ } L := by
  have hcall : Nodes.step C S (.call K i) = some ({ S with world := S.begun K i }, []) :=
    if_pos ⟨hK, hphase, hi, hallowed⟩
  have hnext := h.step hcall
  have hlife : track S L (.call K i) = L := Function.update_eq_self _ _
  rw [hlife] at hnext
  have htodo : (S.begun K i K.self).todo = (step K i).moments (S.world.cur K.self) := by
    unfold Nodes.begun
    rw [Function.update_self]
  have hend := hnext.finish htodo
  dsimp only at hend
  unfold Nodes.begun at hend
  rw [Function.update_idem, World.cur_update_self] at hend
  exact hend

end Lived

/-- An append commits nothing as long as no peer has acknowledged anything new. -/
theorem settled_unmatched {K : Ctx} {es : List LogEntry} {s t : RaftCore} (h : Settled K es s t)
    (hK : K.peers ≠ []) (hm : Unmatched s.commitIndex s) :
    t.commitIndex = s.commitIndex ∧ t.sm = s.sm ∧ t.lastApplied = s.lastApplied := by
  have hcommit : appendedCommit K s es = s.commitIndex := by
    refine (commitPoint_cases _ _ _ _).resolve_right fun hin => ?_
    have hheld : K.majority ≤ replicas s _ := hin.held
    rw [replicas_unmatched hm hin.gt] at hheld
    have := two_le_majority hK
    omega
  have hcore := h.core
  rw [hcommit] at hcore
  rw [hcore]
  unfold handed appliedAt
  dsimp only
  rw [if_neg (Nat.lt_irrefl _), if_neg (Nat.lt_irrefl _), List.append_nil]
  exact ⟨rfl, rfl, rfl⟩

/-! Node 1 of three leads term 1. Client 100 has its request proposed at index 1; node 2 will store it and
acknowledge it late. In the meantime more clients come. -/

def pileCtx (n : NodeId) : Ctx := { self := n, peers := Cluster.trio.peers n, now := 1000 }

/-- The request of client `c`. -/
def pileRequest (c : ℕ) : ClientRequest := ⟨c, 1, leBytes 8 c ++ (leBytes 8 1 ++ [0])⟩

def pileProposal : Proposal := ⟨1, ⟨1, (pileRequest 100).command⟩, ⟨100, 100, 1⟩⟩

def pileElection : List Act := List.flatten
  [Nodes.callAll { pileCtx 1 with now := 0 } .start, Nodes.callAll (pileCtx 1) .tick,
   Nodes.callAll (pileCtx 2) (.handle 1 (.requestVote ⟨1, 1, 0, 0⟩)),
   Nodes.callAll (pileCtx 1) (.handle 2 (.requestVoteReply ⟨1, true⟩))]

def pileElected : Nodes :=
  (perform Cluster.trio (Nodes.start Cluster.trio fun _ => {}, fun _ => {}) pileElection).1

theorem pileElected_lived : Lived Cluster.trio (fun _ => {}) pileElected fun _ => {} := by
  have h := lived_perform (C := Cluster.trio) (b := fun _ => {}) pileElection
    (x := (Nodes.start Cluster.trio fun _ => {}, fun _ => {})) .start
  rw [life_perform (by decide)] at h
  exact h

/-- The AppendEntries with the first entry, and its acknowledgement. -/
def pileAppend : AppendEntries := ⟨1, 1, 0, 0, 0, [pileProposal.entry]⟩

def pileAck : AppendEntriesReply := ⟨1, true, 1, 0⟩

theorem pileElected_node : (pileElected.node 1).phase = .loop ∧ (pileElected.node 1).applied = 0 ∧
    (pileElected.node 1).svc.batching.maxBatch = 1 ∧ (pileElected.node 2).phase = .loop := by decide +kernel

theorem pileElected_idle : (pileElected.world 1).todo = [] ∧ (pileElected.world 2).todo = [] := by
  constructor <;> exact List.length_eq_zero_iff.mp (by decide +kernel)

theorem pileElected_core : (pileElected.world.cur 1).role = .leader ∧ (pileElected.world.cur 1).currentTerm = 1 ∧
    (pileElected.world.cur 1).log = [] ∧ (pileElected.world.cur 1).commitIndex = 0 ∧
    (pileElected.world.cur 1).lastApplied = 0 ∧ (pileElected.world.cur 1).sm = [] ∧
    (pileElected.world.cur 1).nextIndex.getD 2 0 = 1 := by decide +kernel

theorem pileElected_matchIndex : (pileElected.world.cur 1).matchIndex.toList = [(2, 0), (3, 0)] ∧
    ((pileElected.world.cur 1).matchIndex.insert 2 1).toList = [(2, 1), (3, 0)] := by decide +kernel

/-- Node 1 leads and has no acknowledgement yet; node 2 is as the election has left it. -/
structure Waiting (S : Nodes) : Prop where
  idle : (S.world 1).todo = []
  phase : (S.node 1).phase = .loop
  applied : (S.node 1).applied = 0
  batching : (S.node 1).svc.batching.maxBatch ≤ 1
  role : (S.world.cur 1).role = .leader
  term : (S.world.cur 1).currentTerm = 1
  terms : ∀ e ∈ (S.world.cur 1).log, e.term = 1
  commitIndex : (S.world.cur 1).commitIndex = 0
  lastApplied : (S.world.cur 1).lastApplied = 0
  sm : (S.world.cur 1).sm = []
  nextIndex : (S.world.cur 1).nextIndex.getD 2 0 = 1
  matchIndex : (S.world.cur 1).matchIndex = (pileElected.world.cur 1).matchIndex
  two : S.world 2 = pileElected.world 2 ∧ (S.node 2).phase = .loop

theorem waiting_elected : Waiting pileElected := by
  obtain ⟨h1, h2, h3, h4, h5, h6, h7⟩ := pileElected_core
  obtain ⟨k1, k2, k3, k4⟩ := pileElected_node
  refine ⟨pileElected_idle.1, k1, k2, Nat.le_of_eq k3, h1, h2, ?_, h4, h5, h6, h7, rfl, rfl, k4⟩
  rw [h3]
  exact fun _ he => (List.not_mem_nil he).elim

/-- One more client: its request is proposed, sent to node 2 and recorded, and nothing is committed. -/
theorem waiting_request {S : Nodes} {L : NodeId → Life} (h : Lived Cluster.trio (fun _ => {}) S L) (hw : Waiting S)
    {c : ℕ} (hc : c < 2 ^ 64) :
    ∃ S' L', Lived Cluster.trio (fun _ => {}) S' L' ∧ Waiting S' ∧
      (S'.world.cur 1).log = (S.world.cur 1).log ++ [⟨1, (pileRequest c).command⟩] ∧
      (S.world.cur 1).out <+: (S'.world.cur 1).out ∧
      Output.send 2 (.appendEntries (appendEntriesTo (pileCtx 1) (S'.world.cur 1) 2)) ∈ (S'.world.cur 1).out ∧
      (L' 1).proposals = (L 1).proposals ++
        [⟨(S.world.cur 1).log.length + 1, ⟨1, (pileRequest c).command⟩, ⟨c, c, 1⟩⟩] ∧
      (L' 1).puts = (L 1).puts ++ [((S.world.cur 1).log.length + 1, ⟨c, c, 1⟩)] := by
  have hid : decodePrefix (pileRequest c).command = some (c, 1) := decodePrefix_leBytes hc (by decide) [0]
  obtain ⟨S', L', s, t, hl, hs, hout, hset, hworld, hphase, happ, hbat, hnode, hprop, hput⟩ :=
    lived_request h (K := pileCtx 1) ⟨by decide, rfl, hw.idle⟩ rfl rfl hw.phase hw.role hw.batching c hid
  have hpeers : (pileCtx 1).peers ≠ [] := by decide
  -- the core of before, up to its history
  change s = { S.world.cur 1 with out := s.out } at hs
  have hterm : s.currentTerm = 1 := by
    rw [hs]
    exact hw.term
  have hlog : s.log = (S.world.cur 1).log := by rw [hs]
  have hcom : s.commitIndex = 0 := by
    rw [hs]
    exact hw.commitIndex
  have hmatch : s.matchIndex = (pileElected.world.cur 1).matchIndex := by
    rw [hs]
    exact hw.matchIndex
  have hun : Unmatched s.commitIndex s := by
    intro x hx
    rw [hmatch, pileElected_matchIndex.1] at hx
    have hzero : ∀ y ∈ [((2 : NodeId), 0), (3, 0)], y.2 = 0 := by decide
    rw [hzero x hx]
    exact Nat.zero_le _
  obtain ⟨hc0, hsm, hla⟩ := settled_unmatched hset hpeers hun
  have hcore := hset.core
  -- the core after it
  have hcur : S'.world.cur 1 = t := by
    rw [hworld]
    exact World.cur_update_self
  have htlog : t.log = (S.world.cur 1).log ++ [⟨1, (pileRequest c).command⟩] := by
    rw [hcore, hterm, hlog]
  have hsent : Output.send 2 (.appendEntries (appendEntriesTo (pileCtx 1) t 2)) ∈ t.out ∧ s.out <+: t.out := by
    obtain ⟨ms, o, ho, hsends⟩ := hset.emits
    rw [ho]
    refine ⟨List.mem_append_right _ (mem_of_mem_sends ?_), List.prefix_append _ _⟩
    have htwo : (2 : NodeId) ∈ (pileCtx 1).peers := by decide
    rw [hsends]
    exact List.mem_append_right _ (List.mem_map.mpr ⟨2, htwo, rfl⟩)
  rw [hterm, hlog] at hprop
  rw [hlog] at hput
  refine ⟨S', L', hl, ?_, ?_, ?_, ?_, hprop, hput⟩
  · refine ⟨?_, hphase, happ.trans hw.applied, ?_, ?_, ?_, ?_, ?_, ?_, ?_, ?_, ?_, ?_, ?_⟩
    · rw [hworld]
      change (Function.update S.world 1 ⟨t, []⟩ 1).todo = []
      rw [Function.update_self]
    · exact (congrArg Batching.maxBatch hbat).trans_le hw.batching
    · rw [hcur, hcore, hs]
      exact hw.role
    · rw [hcur, hcore]
      exact hterm
    · rw [hcur, htlog]
      intro e he
      rcases List.mem_append.mp he with he | he
      · exact hw.terms e he
      · rw [List.mem_singleton.mp he]
    · rw [hcur, hc0, hcom]
    · rw [hcur, hla, hs]
      exact hw.lastApplied
    · rw [hcur, hsm, hs]
      exact hw.sm
    · rw [hcur, hcore, hs]
      exact hw.nextIndex
    · rw [hcur, hcore]
      exact hmatch
    · rw [hworld]
      exact (Function.update_of_ne (by decide) _ _).trans hw.two.1
    · rw [hnode 2 (by decide)]
      exact hw.two.2
  · rw [hcur, htlog]
  · rw [hcur]
    exact hout.trans hsent.2
  · rw [hcur]
    exact hsent.1

/-- **Node 1 with `k` further proposals** behind that of client 100, none of them acknowledged. -/
structure Pile (k : ℕ) (S : Nodes) (L : NodeId → Life) : Prop extends Waiting S where
  lived : Lived Cluster.trio (fun _ => {}) S L
  length : (S.world.cur 1).log.length = k + 1
  first : (S.world.cur 1).log[0]? = some pileProposal.entry
  sent : Output.send 2 (.appendEntries pileAppend) ∈ (S.world.cur 1).out
  proposal : pileProposal ∈ (L 1).proposals
  puts : ∃ l q, (L 1).puts = l ++ [(k + 1, q)]

theorem pile_zero : ∃ S L, Pile 0 S L ∧ (L 1).puts = [(1, pileProposal.pending)] := by
  obtain ⟨S, L, hl, hw, hlog, -, hsent, hprop, hput⟩ :=
    waiting_request pileElected_lived waiting_elected (c := 100) (by decide)
  rw [pileElected_core.2.2.1] at hlog hprop hput
  refine ⟨S, L, ⟨hw, hl, ?_, ?_, ?_, ?_, [], pileProposal.pending, hput⟩, hput⟩
  · rw [hlog]
    rfl
  · rw [hlog]
    rfl
  · have hmsg : appendEntriesTo (pileCtx 1) (S.world.cur 1) 2 = pileAppend := by
      unfold appendEntriesTo
      rw [hw.term, hw.nextIndex, hw.commitIndex, hlog]
      rfl
    rw [hmsg] at hsent
    exact hsent
  · rw [hprop]
    exact List.mem_singleton_self _

theorem pile_grows {k : ℕ} {S : Nodes} {L : NodeId → Life} (h : Pile k S L) : ∃ S' L', Pile (k + 1) S' L' := by
  obtain ⟨S', L', hl, hw, hlog, hout, -, hprop, hput⟩ := waiting_request h.lived h.toWaiting (c := 200) (by decide)
  refine ⟨S', L', ⟨hw, hl, ?_, ?_, hout.subset h.sent, ?_, (L 1).puts, ⟨200, 200, 1⟩, ?_⟩⟩
  · rw [hlog, List.length_append, h.length]
    rfl
  · rw [hlog, List.getElem?_append_left (by rw [h.length]; exact Nat.succ_pos k)]
    exact h.first
  · rw [hprop]
    exact List.mem_append_left _ h.proposal
  · rw [hput, h.length]

theorem pile_of : ∀ k, ∃ S L, Pile k S L
  | 0 =>
      have ⟨S, L, h, _⟩ := pile_zero
      ⟨S, L, h⟩
  | k + 1 =>
      have ⟨_, _, h⟩ := pile_of k
      pile_grows h

/-- Node 2 stores the first entry and acknowledges it. -/
theorem pileAck_sent : Output.send 1 (.appendEntriesReply pileAck) ∈
    ((step (pileCtx 2) (.handle 1 (.appendEntries pileAppend))).final (pileElected.world.cur 2)).out := by
  decide +kernel

/-- With the acknowledgement only the first entry is held by a majority. -/
theorem pile_replicas {u : RaftCore} (hlist : u.matchIndex.toList = [(2, 1), (3, 0)]) {n : ℕ} (hn : 0 < n) :
    (pileCtx 1).majority ≤ replicas u n ↔ n = 1 := by
  have hmaj : (pileCtx 1).majority = 2 := by decide
  unfold replicas
  rw [hlist, hmaj]
  by_cases h1 : n = 1
  · subst h1
    decide
  · have hno : ([((2 : NodeId), 1), (3, 0)].filter fun pm => n ≤ pm.2) = [] := by
      simp only [List.filter_eq_nil_iff, List.mem_cons, List.not_mem_nil, or_false, decide_eq_true_eq,
        forall_eq_or_imp, forall_eq]
      omega
    rw [hno]
    simp only [h1, iff_false, List.length_nil]
    omega

/-- The leader takes the acknowledgement: it commits the first entry, and no other. -/
theorem pile_commits {k : ℕ} {S : Nodes} {L : NodeId → Life} (h : Pile k S L) :
    ((step (pileCtx 1) (.handle 2 (.appendEntriesReply pileAck))).final (S.world.cur 1)).sm = [pileProposal.entry] := by
  obtain ⟨s, hs⟩ : ∃ s, S.world.cur 1 = s := ⟨_, rfl⟩
  obtain ⟨⟨-, -, -, -, hrole, hterm, hterms, hcom, happ, hsm, -, hmatch, -⟩, -, hlen, hfirst, -⟩ := h
  rw [hs] at hrole hterm hterms hcom happ hsm hmatch hlen hfirst ⊢
  have hlt : s.matchIndex.getD 2 0 < 1 := by
    rw [hmatch]
    decide +kernel
  -- where the scan stops once the acknowledgement is noted
  let u : RaftCore := { s with matchIndex := s.matchIndex.insert 2 1, nextIndex := s.nextIndex.insert 2 2 }
  have hlist : u.matchIndex.toList = [(2, 1), (3, 0)] := by
    change (s.matchIndex.insert 2 1).toList = _
    rw [hmatch]
    exact pileElected_matchIndex.2
  have hown : ∀ j, 1 ≤ j → j ≤ k + 1 → s.log.termAt j = s.currentTerm := by
    intro j hj hjk
    obtain ⟨i, rfl⟩ := Nat.exists_eq_add_of_le' hj
    have hi : i < s.log.length := by omega
    rw [Storage.InMemoryLog.termAt_succ (List.getElem?_eq_getElem hi), hterm]
    exact hterms _ (List.getElem_mem hi)
  have hpoint : commitFrom (pileCtx 1) u u.log.length = 1 := by
    have hin : Committable (fun i => u.log.termAt i = u.currentTerm)
        (fun i => (pileCtx 1).majority ≤ replicas u i) u.commitIndex u.log.length 1 := by
      refine ⟨?_, ?_, fun j h1 h2 => hown j h1 ?_, (pile_replicas hlist Nat.one_pos).mpr rfl⟩
      · change s.commitIndex < 1
        omega
      · change 1 ≤ s.log.length
        omega
      · exact h2.trans (Nat.le_of_eq hlen)
    have hge := hin.le_commitPoint
    rcases commitPoint_cases (fun i => u.log.termAt i = u.currentTerm)
      (fun i => (pileCtx 1).majority ≤ replicas u i) u.commitIndex u.log.length with hstop | hstop
    · have hzero : u.commitIndex = 0 := hcom
      omega
    · exact (pile_replicas hlist (Nat.lt_of_lt_of_le Nat.one_pos hge)).mp hstop.held
  have hdue : dueTo { u with commitIndex := 1 } 1 = [pileProposal.entry] := by
    change (s.log.drop s.lastApplied).take (1 - s.lastApplied) = _
    rw [happ]
    obtain ⟨hin, hget⟩ := List.getElem?_eq_some_iff.mp hfirst
    rw [List.drop_zero, List.take_one, List.head?_eq_getElem?, hfirst]
    rfl
  have hends : Ends s (handle (pileCtx 1) 2 (.appendEntriesReply pileAck)) (fun _ t => t.sm = [pileProposal.entry]) := by
    refine meets_bind (meets_mono (ends_liftTerm rfl (Nat.le_of_eq hterm.symm)) fun _ _ t ht => ?_)
    subst ht
    refine meets_read_bind (meets_ite (fun hn => absurd hrole hn) fun _ => ?_)
    refine meets_ite (fun hn => absurd hterm.symm hn) fun _ => ?_
    refine meets_ite (fun _ => ?_) fun hn => absurd rfl hn
    refine meets_ite (fun hgt => ?_) fun _ => ?_
    · have : t.log.lastIndex = k + 1 := hlen
      have : 1 > t.log.lastIndex := hgt
      omega
    refine meets_when (fun _ => ?_) fun hn => absurd hlt hn
    refine ends_write_bind (meets_bind (meets_mono (ends_advanceCommit_inline rfl) fun _ _ v hv => ?_))
    -- the scan has moved the commit index to 1, and the first entry has been applied
    have hv : Reaches u (commitFrom (pileCtx 1) u u.log.length) v := hv
    rw [hpoint] at hv
    have hsmv : v.sm = [pileProposal.entry] := by
      rcases hv with ⟨hone, -⟩ | ⟨-, o, -, -, rfl⟩
      · have hzero : u.commitIndex = 0 := hcom
        omega
      · change u.sm ++ dueTo { u with commitIndex := 1 } 1 = _
        have hnone : u.sm = [] := hsm
        rw [hdue, hnone, List.nil_append]
    refine meets_read_bind (meets_when (fun _ => ?_) fun _ => hsmv)
    refine meets_mono (ends_sendAppendEntries 2) fun _ _ w hw => ?_
    obtain ⟨o, rfl, -⟩ := hw
    exact hsmv
  exact ends_final hends

/-- Once node 2 has answered, the first entry is the next one the apply thread of node 1 takes. -/
theorem pile_applies {k : ℕ} {S : Nodes} {L : NodeId → Life} (h : Pile k S L) :
    ∃ S', Lived Cluster.trio (fun _ => {}) S' L ∧ (S'.node 1).applied = 0 ∧
      pileProposal.index = (S'.node 1).applied + 1 ∧
      (S'.world.cur 1).sm[(S'.node 1).applied]? = some pileProposal.entry := by
  have hidle : (S.world 2).todo = [] := by
    rw [h.two.1]
    exact pileElected_idle.2
  have hstored := lived_call h.lived (K := pileCtx 2) ⟨by decide, rfl, hidle⟩ h.two.2
    (i := .handle 1 (.appendEntries pileAppend)) rfl (.inl ⟨by decide, h.sent⟩)
  have hcur2 : S.world.cur 2 = pileElected.world.cur 2 := congrArg Slot.cur h.two.1
  have hne : (1 : NodeId) ≠ 2 := by decide
  obtain ⟨w, hw⟩ : ∃ w : World NodeId RaftCore, w = Function.update S.world 2
    ⟨(step (pileCtx 2) (.handle 1 (.appendEntries pileAppend))).final (S.world.cur 2), []⟩ := ⟨_, rfl⟩
  have hone : w 1 = S.world 1 := by
    rw [hw]
    exact Function.update_of_ne hne _ _
  have hcur1 : w.cur 1 = S.world.cur 1 := congrArg Slot.cur hone
  have hstored : Lived Cluster.trio (fun _ => {}) { S with world := w } L := hw ▸ hstored
  have hacked := lived_call hstored (K := pileCtx 1) ⟨by decide, rfl, (congrArg Slot.todo hone).trans h.idle⟩ h.phase
    (i := .handle 2 (.appendEntriesReply pileAck)) rfl (.inl ⟨by decide, ?_⟩)
  · have hcore := pile_commits h
    rw [← hcur1] at hcore
    refine ⟨_, hacked, h.applied, congrArg Nat.succ h.applied.symm, ?_⟩
    refine (congrArg (fun x : RaftCore => x.sm[(S.node 1).applied]?) World.cur_update_self).trans ?_
    refine (congrArg (fun l : List LogEntry => l[(S.node 1).applied]?) hcore).trans ?_
    rw [h.applied]
    rfl
  · have hack := pileAck_sent
    rw [← hcur2] at hack
    dsimp only
    rw [hw]
    exact (congrArg (fun x : RaftCore => _ ∈ x.out) World.cur_update_self).mpr hack

theorem applied_proposal_answered_first : ∃ S L out, Lived Cluster.trio (fun _ => {}) S L ∧
    Cluster.trio.peers 1 ≠ [] ∧ pileProposal ∈ (L 1).proposals ∧
    Nodes.step Cluster.trio S (.apply 1) = some out ∧ pileProposal.index = (S.node 1).applied + 1 ∧
    (S.world.cur 1).sm[(S.node 1).applied]? = some pileProposal.entry ∧
    out.2 = [⟨1, 100, ⟨.ok, 1, ((S.node 1).machine.apply pileProposal.entry.command).2⟩⟩] := by
  obtain ⟨S₀, L, hpile, hput⟩ := pile_zero
  obtain ⟨S, hl, -, hi, he⟩ := pile_applies hpile
  have hs := step_apply (C := Cluster.trio) (n := 1) (by decide) he
  refine ⟨S, L, _, hl, by decide, hpile.proposal, hs, hi, he, ?_⟩
  refine (applied_proposal_answered hl (n := 1) (by decide) hpile.proposal hs hi he).2.mpr ?_
  rw [hput]
  decide

/-- **A request that is applied and never answered.** Client 100's entry waits at index 1; 8192 requests
    later the record at index 8193 has taken its slot. -/
theorem piled_proposal_unanswered : ∃ S L out, Lived Cluster.trio (fun _ => {}) S L ∧
    Cluster.trio.peers 1 ≠ [] ∧ pileProposal ∈ (L 1).proposals ∧
    Nodes.step Cluster.trio S (.apply 1) = some out ∧ pileProposal.index = (S.node 1).applied + 1 ∧
    (S.world.cur 1).sm[(S.node 1).applied]? = some pileProposal.entry ∧ out.2 = [] := by
  obtain ⟨S₀, L, hpile⟩ := pile_of 8192
  obtain ⟨S, hl, happ, hi, he⟩ := pile_applies hpile
  obtain ⟨l, q, hput⟩ := hpile.puts
  refine ⟨S, L, _, hl, by decide, hpile.proposal, step_apply (n := 1) (by decide) he, hi, he, ?_⟩
  have hlast : lastIn (PendingTable.slotOf ((S.node 1).applied + 1)) (L 1).puts = some (8193, q) := by
    have hslot : PendingTable.slotOf 8193 = PendingTable.slotOf 1 := by decide
    rw [happ, hput, lastIn_snoc]
    exact if_pos hslot
  have hnone := (hl.ledger (n := 1) (by decide)).table.unanswered 1 pileProposal.entry
    ((S.node 1).machine.apply pileProposal.entry.command).2 hlast (by rw [happ]; decide)
  exact congrArg (List.map _) hnone

end Rsm.Client
