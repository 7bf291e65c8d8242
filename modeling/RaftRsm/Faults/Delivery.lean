/-
  File:      RaftRsm/Faults/Delivery.lean
  Subject:   ONE MILLISECOND IS ONE PASS: where a message takes a millisecond at least, `deliverDue` hands
             over what was due when it began, in the order of the queue, and nothing that is sent on the way.

  * `Posted h h'` -- what a call leaves of the network: the queue stays in order, and what is due does;
  * `pass` -- the messages of a list are delivered one after the other;
  * `deliverDue_eq` -- the loop is one pass over what was due;
  * `stepMs_one_pass` -- so is every millisecond of a run.
-/
import RaftRsm.Faults.Harness

namespace Rsm.Sim

open Rsm.Rpc Rsm.Raft Rsm.Client

variable {M : Type} {A : Machine M} {O : SimOptions} {h h' : Harness M} {id : NodeId}

/-! ## 1. What a call leaves of the network -/

/-- **The network after some sends**: the clock and the least latency are as they were, the queue is in
    order and has what it had, and what was due is due. -/
structure Posted (h h' : Harness M) : Prop where
  now : h'.now = h.now
  latencyMin : h'.net.latencyMin = h.net.latencyMin
  kept : h.net.queue ⊆ h'.net.queue
  ordered : h.net.Ordered → h'.net.Ordered
  due : 1 ≤ h.net.latencyMin → dueAt h.now h'.net.queue = dueAt h.now h.net.queue

theorem Posted.refl (h : Harness M) : Posted h h := ⟨rfl, rfl, List.Subset.refl _, id, fun _ => rfl⟩

theorem Posted.trans {h₁ h₂ h₃ : Harness M} (p : Posted h₁ h₂) (q : Posted h₂ h₃) : Posted h₁ h₃ where
  now := q.now.trans p.now
  latencyMin := q.latencyMin.trans p.latencyMin
  kept := List.Subset.trans p.kept q.kept
  ordered := q.ordered ∘ p.ordered
  due hlat := by
    have hq := q.due (p.latencyMin ▸ hlat)
    rw [p.now] at hq
    exact hq.trans (p.due hlat)

/-- The network and the clock are the same. -/
theorem Posted.congr (hnow : h'.now = h.now) (hnet : h'.net = h.net) : Posted h h' := by
  refine ⟨hnow, by rw [hnet], by rw [hnet]; exact List.Subset.refl _, fun ho => by rw [hnet]; exact ho, fun _ => by rw [hnet]⟩

theorem posted_send (h : Harness M) (sender dest : NodeId) (m : Message) :
    Posted h { h with net := h.net.send sender dest m h.now } where
  now := rfl
  latencyMin := h.net.latencyMin_send sender dest m h.now
  kept := h.net.subset_send sender dest m h.now
  ordered ho := ho.send sender dest m h.now
  due hlat := SimNetwork.dueAt_send hlat sender dest m h.now

/-- A row of operations. -/
theorem posted_foldl {α : Type} {f : Harness M → α → Harness M} (hf : ∀ h x, Posted h (f h x)) :
    ∀ (l : List α) (h : Harness M), Posted h (l.foldl f h)
  | [], h => .refl h
  | x :: l, h => (hf h x).trans (posted_foldl hf l (f h x))

theorem posted_sendReplies (h : Harness M) (id : NodeId) (replies : List (NodeId × ClientReply)) :
    Posted h (h.sendReplies id replies) := by
  refine posted_foldl (fun h q => ?_) replies h
  exact posted_send h id q.1 (.clientReply q.2)

theorem posted_answer (h : Harness M) (id : NodeId) (out : ClientService × List (NodeId × ClientReply)) :
    Posted h (h.answer id out) := by
  refine Posted.trans ?_ (posted_sendReplies _ id out.2)
  exact .congr rfl rfl

theorem posted_observe (h : Harness M) (id : NodeId) (o : Output) : Posted h (h.observe A id o) := by
  cases o with
  | send dest m => exact posted_send h id dest m
  | transition term role event log =>
      unfold Harness.observe
      dsimp only
      split_ifs
      · exact .congr rfl rfl
      · exact .refl h
  | apply index entry =>
      refine Posted.trans ?_ (posted_answer _ id _)
      exact .congr rfl rfl
  | _ => exact .refl h

theorem posted_call (h : Harness M) (id : NodeId) (i : Input) : Posted h (h.call A O id i) := by
  refine Posted.trans ?_ (posted_foldl (fun h o => posted_observe h id o) _ _)
  exact .congr rfl rfl

theorem posted_serve (h : Harness M) (id src : NodeId) (req : ClientRequest) : Posted h (h.serve A O id src req) := by
  unfold Harness.serve
  dsimp only
  have hsvc : Posted h (h.setNode id
      { h.nodes id with service := ((h.nodes id).service.onClientRequest (h.nodes id).core src req).1 }) := .congr rfl rfl
  split
  · exact hsvc
  · exact hsvc.trans (posted_sendReplies _ id _)
  · exact (hsvc.trans (posted_call _ id _)).trans (posted_answer _ id _)
  · exact (hsvc.trans (posted_call _ id _)).trans (posted_answer _ id _)

theorem posted_deliver (h : Harness M) (f : Wire) : Posted h (h.deliver A O f) := by
  unfold Harness.deliver
  split_ifs
  · dsimp only
    split
    · exact (posted_call h _ _).trans (posted_serve _ _ _ _)
    · exact posted_call h _ _
  · exact .refl h
  · exact .congr rfl rfl
  · exact .refl h

theorem posted_tickAll (h : Harness M) : Posted h (h.tickAll A O) := by
  refine posted_foldl (fun h id => ?_) O.ids h
  split_ifs
  · exact posted_call h id .tick
  · exact .refl h

/-! ## 2. One pass -/

/-- The messages that are due, in the order of the queue. -/
def Harness.due (h : Harness M) : List InFlight := dueAt h.now h.net.queue

/-- A millisecond later, when everyone has ticked. -/
def Harness.ticked (A : Machine M) (O : SimOptions) (h : Harness M) : Harness M :=
  { h with now := h.now + 1 }.tickAll A O

/-- The messages of a list are delivered, each when it is the first of the queue. -/
def pass (A : Machine M) (O : SimOptions) (l : List InFlight) (h : Harness M) : Harness M :=
  l.foldl (fun h f => h.deliverFirst A O f h.net.queue.tail) h

/-- In a queue in order nothing is due behind a message that is not. -/
theorem dueAt_nil {now : ℕ} {f : InFlight} {rest : List InFlight} (hs : (f :: rest).Pairwise InFlight.Before)
    (hf : now < f.deliverAt) : dueAt now (f :: rest) = [] := by
  unfold dueAt
  rw [List.filter_eq_nil_iff]
  intro g hg
  rw [decide_eq_true_iff, Nat.not_le]
  rcases List.mem_cons.mp hg with rfl | hg
  · exact hf
  · have hb := (List.pairwise_cons.mp hs).1 g hg
    unfold InFlight.Before at hb
    omega

theorem dueAt_cons {now : ℕ} {f : InFlight} (hf : f.deliverAt ≤ now) (rest : List InFlight) :
    dueAt now (f :: rest) = f :: dueAt now rest := List.filter_cons_of_pos (by simpa using hf)

/-- What delivering the first message leaves. -/
theorem deliverFirst_spec (ho : h.net.Ordered) (hlat : 1 ≤ h.net.latencyMin) {f : InFlight} {rest : List InFlight}
    (hq : h.net.queue = f :: rest) :
    (h.deliverFirst A O f rest).net.Ordered ∧ (h.deliverFirst A O f rest).now = h.now ∧
    1 ≤ (h.deliverFirst A O f rest).net.latencyMin ∧ rest ⊆ (h.deliverFirst A O f rest).net.queue ∧
    dueAt h.now (h.deliverFirst A O f rest).net.queue = dueAt h.now rest := by
  have hrest : SimNetwork.Ordered { h.net with queue := rest } := by
    refine ⟨?_, fun g hg => ho.below g (hq ▸ List.mem_cons_of_mem f hg)⟩
    have hs := ho.sorted
    rw [hq] at hs
    exact (List.pairwise_cons.mp hs).2
  have hposted : Posted { h with net := { h.net with queue := rest } } (h.deliverFirst A O f rest) := by
    unfold Harness.deliverFirst
    dsimp only
    split_ifs
    · exact posted_deliver _ _
    · exact .refl _
  exact ⟨hposted.ordered hrest, hposted.now, by rw [hposted.latencyMin]; exact hlat, hposted.kept,
    hposted.due hlat⟩

/-- **The loop is one pass over what was due when it began.** -/
theorem deliverDue_eq : ∀ (fuel : ℕ) {h : Harness M}, h.net.Ordered → 1 ≤ h.net.latencyMin → h.due.length ≤ fuel →
    Harness.deliverDue A O fuel h = some (pass A O h.due h) ∧
    dueAt h.now (pass A O h.due h).net.queue = [] ∧
    ∀ g ∈ h.net.queue, h.now < g.deliverAt → g ∈ (pass A O h.due h).net.queue
  | fuel, h, ho, hlat, hfuel => by
      unfold Harness.deliverDue
      split
      · rename_i hq
        have hnil : h.due = [] := by
          unfold Harness.due
          rw [hq]
          rfl
        rw [hnil]
        exact ⟨rfl, hnil, fun g hg _ => hg⟩
      · rename_i f rest hq
        split_ifs with hf
        · -- the first message is due: it is delivered, and the rest of what was due is due
          have hcons : h.due = f :: dueAt h.now rest := by
            unfold Harness.due
            rw [hq, dueAt_cons hf]
          rw [hcons] at hfuel ⊢
          cases fuel with
          | zero => cases hfuel
          | succ k =>
              obtain ⟨ho', hnow, hlat', hkept, hdue⟩ := deliverFirst_spec (A := A) (O := O) ho hlat hq
              have hpass : pass A O (f :: dueAt h.now rest) h =
                  pass A O (dueAt h.now rest) (h.deliverFirst A O f rest) := by
                unfold pass
                rw [List.foldl_cons, hq, List.tail_cons]
              have hnext : (h.deliverFirst A O f rest).due = dueAt h.now rest := by
                unfold Harness.due
                rw [hnow, hdue]
              have ih := deliverDue_eq k ho' hlat' (by rw [hnext]; exact Nat.le_of_succ_le_succ hfuel)
              rw [hnext, hnow] at ih
              obtain ⟨hloop, hnone, hlater⟩ := ih
              rw [hpass]
              refine ⟨hloop, hnone, fun g hg hg' => ?_⟩
              rw [hq] at hg
              rcases List.mem_cons.mp hg with rfl | hg
              · omega
              · exact hlater g (hkept hg) hg'
        · have hnil : h.due = [] := by
            have hs := ho.sorted
            unfold Harness.due
            rw [hq] at hs ⊢
            exact dueAt_nil hs (Nat.not_le.mp hf)
          rw [hnil]
          exact ⟨rfl, hnil, fun g hg _ => hg⟩

/-! ## 3. Whole runs -/

/-- What holds of the network of a run in which no message arrives in the millisecond it is sent in. -/
structure Timely (h : Harness M) : Prop where
  ordered : h.net.Ordered
  latencyMin : 1 ≤ h.net.latencyMin

theorem Timely.posted (ht : Timely h) (hp : Posted h h') : Timely h' :=
  ⟨hp.ordered ht.ordered, by rw [hp.latencyMin]; exact ht.latencyMin⟩

theorem timely_start (A : Machine M) (O : SimOptions) : Timely (Harness.start A O) := by
  have hbuilt : Timely (Harness.built A O) :=
    ⟨⟨List.Pairwise.nil, fun _ hf => (List.not_mem_nil hf).elim⟩, Nat.le_refl 1⟩
  exact hbuilt.posted (posted_foldl (fun h id => posted_call h id .start) O.ids _)

theorem posted_observeStep (h : Harness M) : Posted h (h.observeStep O) := by
  unfold Harness.observeStep
  dsimp only
  have hlook : Posted h (O.ids.foldl Harness.look h) := by
    refine posted_foldl (fun h id => ?_) O.ids h
    unfold Harness.look
    dsimp only
    split_ifs
    · exact .congr rfl rfl
    · exact .refl h
  split_ifs
  · exact hlook.trans (.congr rfl rfl)
  · exact hlook

theorem Timely.ticked (ht : Timely h) : Timely (h.ticked A O) := by
  have hclock : Timely { h with now := h.now + 1 } := ⟨ht.ordered, ht.latencyMin⟩
  exact hclock.posted (posted_tickAll _)

theorem Timely.deliverDue : ∀ (fuel : ℕ) {h h' : Harness M}, Timely h → Harness.deliverDue A O fuel h = some h' →
    Timely h'
  | fuel, h, h', ht, hd => by
      unfold Harness.deliverDue at hd
      split at hd
      · cases hd
        exact ht
      · rename_i f rest hq
        split_ifs at hd
        · cases fuel with
          | zero => cases hd
          | succ k =>
              obtain ⟨ho, -, hlat, -⟩ := deliverFirst_spec (A := A) (O := O) ht.ordered ht.latencyMin hq
              exact Timely.deliverDue k ⟨ho, hlat⟩ hd
        · cases hd
          exact ht

theorem posted_restart (h : Harness M) (id : NodeId) : Posted h (h.restart A O id) := by
  unfold Harness.restart
  dsimp only
  split_ifs
  · exact .refl h
  · refine Posted.trans ?_ (posted_call _ id .start)
    exact .congr rfl rfl

theorem posted_killLeader (h : Harness M) : Posted h (h.killLeader O) := by
  unfold Harness.killLeader
  split
  · exact .refl h
  · exact .congr rfl rfl

/-- An act that leaves the least latency above zero keeps this. -/
theorem Timely.act (ht : Timely h) {d : Driver} (hd : h.act A O d = some h')
    (hlat : ∀ min max, d = .control (.setLatency min max) → 1 ≤ min) : Timely h' := by
  cases d with
  | crash id =>
      unfold Harness.act at hd
      dsimp only at hd
      split_ifs at hd
      cases hd
      exact ht.posted (.congr rfl rfl)
  | restart id =>
      unfold Harness.act at hd
      dsimp only at hd
      split_ifs at hd
      cases hd
      exact ht.posted (posted_restart h id)
  | killLeader =>
      cases hd
      exact ht.posted (posted_killLeader h)
  | control c =>
      cases hd
      cases c with
      | setLatency min max => exact ⟨⟨ht.ordered.sorted, ht.ordered.below⟩, hlat min max rfl⟩
      | _ => exact ⟨⟨ht.ordered.sorted, ht.ordered.below⟩, ht.latencyMin⟩
  | registerEndpoint low high =>
      cases hd
      exact ht.posted (.congr rfl rfl)
  | clientSend fromClient toNode req =>
      cases hd
      exact ht.posted (posted_send h fromClient toNode _)
  | stepMs fuel =>
      have hd : h.stepMs A O fuel = some h' := hd
      unfold Harness.stepMs at hd
      obtain ⟨h₁, hdue, rfl⟩ := Option.map_eq_some_iff.mp hd
      exact (ht.ticked.deliverDue fuel hdue).posted (posted_observeStep _)
  | finalCheck =>
      cases hd
      exact ht.posted (.congr rfl rfl)

theorem Timely.drive : ∀ {acts : List Driver} {h h' : Harness M}, Timely h → h.drive A O acts = some h' →
    (∀ min max, Driver.control (.setLatency min max) ∈ acts → 1 ≤ min) → Timely h'
  | [], _, _, ht, hd, _ => by
      cases hd
      exact ht
  | d :: acts, h, h', ht, hd, hlat => by
      unfold Harness.drive at hd
      rw [List.foldlM_cons] at hd
      obtain ⟨h₁, h1, h2⟩ := Option.bind_eq_some_iff.mp hd
      refine Timely.drive (ht.act h1 fun min max heq => ?_) h2 fun min max hmem => hlat min max (List.mem_cons_of_mem d hmem)
      exact hlat min max (heq ▸ List.mem_cons_self)

/-- **Every millisecond is one pass.** In a run in which the least latency is never set to zero, a
    millisecond comes to its end for any bound from the number of due messages on. It delivers the
    messages that are due once all nodes have ticked, each once and in the order of (time, number), and
    nothing that is sent on the way; afterwards nothing is due, and what was not due is still on its way. -/
theorem stepMs_one_pass {acts : List Driver} (hrun : (Harness.start A O).drive A O acts = some h)
    (hlat : ∀ min max, Driver.control (.setLatency min max) ∈ acts → 1 ≤ min) {fuel : ℕ}
    (hfuel : (h.ticked A O).due.length ≤ fuel) :
    h.stepMs A O fuel = some ((pass A O (h.ticked A O).due (h.ticked A O)).observeStep O) ∧
    (h.ticked A O).due.Pairwise InFlight.Before ∧
    dueAt (h.ticked A O).now (pass A O (h.ticked A O).due (h.ticked A O)).net.queue = [] ∧
    ∀ g ∈ (h.ticked A O).net.queue, (h.ticked A O).now < g.deliverAt →
      g ∈ (pass A O (h.ticked A O).due (h.ticked A O)).net.queue := by
  have ht : Timely (h.ticked A O) := ((timely_start A O).drive hrun hlat).ticked
  obtain ⟨hloop, hnone, hlater⟩ := deliverDue_eq (A := A) (O := O) fuel ht.ordered ht.latencyMin hfuel
  refine ⟨?_, ht.ordered.sorted.filter _, hnone, hlater⟩
  unfold Harness.stepMs
  rw [← Harness.ticked, hloop]
  rfl

def countingMachine : Machine ℕ := ⟨0, fun m _ => (m + 1, [])⟩

/-- Two nodes, of which the first soon stands for election. -/
def calmOptions : SimOptions where
  raft := List.replicate 2 { electionTimeoutMin := 1, electionTimeoutMax := 9, heartbeatInterval := 2 }
  rng id _ k := if id = 1 ∧ k = 0 then 0 else 8
  storage := durableStorage

/-- In the second millisecond the request for a vote is delivered; the vote is for the third. -/
theorem stepMs_one_pass_vote : ∃ h : Harness ℕ,
    (Harness.start countingMachine calmOptions).drive countingMachine calmOptions [.stepMs 0] = some h ∧
    (h.ticked countingMachine calmOptions).due.map InFlight.wire = [⟨1, 2, .requestVote ⟨1, 1, 0, 0⟩⟩] ∧
    h.stepMs countingMachine calmOptions 1 = some ((pass countingMachine calmOptions
      (h.ticked countingMachine calmOptions).due (h.ticked countingMachine calmOptions)).observeStep calmOptions) := by
  have hsome : ((Harness.start countingMachine calmOptions).drive countingMachine calmOptions [.stepMs 0]).map
      (fun h => (h.ticked countingMachine calmOptions).due.map InFlight.wire) =
      some [⟨1, 2, .requestVote ⟨1, 1, 0, 0⟩⟩] := by decide +kernel
  obtain ⟨h, hrun, hdue⟩ := Option.map_eq_some_iff.mp hsome
  have hlen := congrArg List.length hdue
  rw [List.length_map] at hlen
  exact ⟨h, hrun, hdue, (stepMs_one_pass hrun (fun _ _ hmem => by cases List.mem_singleton.mp hmem) hlen.le).1⟩

end Rsm.Sim
