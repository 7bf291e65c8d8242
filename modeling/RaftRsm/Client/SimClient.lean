/-
  File:      RaftRsm/Client/SimClient.lean
  Subject:   RETRYING CLIENTS in front of the nodes (`faults/sim_client.{h,cpp}`), and who has asked
             what.

  A client has one operation at a time and sends it again, with the same bytes, until a reply to its
  latest attempt says OK. Every attempt has its own envelope id, to which the node replies; a reply
  to another id is dropped. When it is time to send, and to which node, is left open: in the source
  the workload, the deadlines and `nextTarget` decide. The network keeps whatever was sent, and
  delivers it any number of times, in any order, or never. A client may also give up on an
  operation, which `SimClient` never does.

  * `SimClient`, `Sim`, `Sim.step` -- a client, the whole system and its acts;
  * `Protocol` -- what the clients have sent and seen: one request for each envelope id, one
    operation for each sequence number;
  * `protocol_step` -- every act of the clients keeps this, as long as no envelope id is used twice.
-/
import RaftRsm.Client.Nodes

namespace Rsm.Client

open Rsm.Rpc Rsm.Raft Rsm.StateMachine Linear

/-! ## 1. A client -/

inductive SimState where
  | idle
  | waiting
  | backoff
  deriving DecidableEq, Repr

structure SimClient where
  state : SimState := .idle
  seqNo : ℕ := 0
  currentCommand : Bytes := []
  attempt : ℕ := 0
  attemptEnvelope : NodeId := 0
  /-- the node the current attempt went to -/
  target : NodeId := 0
  deriving DecidableEq, Repr

namespace SimClient

variable (s : SimClient)

/-- The request of the client `id` for its current operation. -/
def request (id : ℕ) : ClientRequest := ⟨id, s.seqNo, s.currentCommand⟩

/-- `issueNextOp`, up to its first attempt. -/
def issueNextOp (command : Bytes) : SimClient :=
  { s with seqNo := s.seqNo + 1, currentCommand := command }

def sendAttempt (base : NodeId) (range : ℕ) (target : NodeId) : SimClient :=
  { s with
    attemptEnvelope := base + s.attempt % range
    attempt := s.attempt + 1
    target := target
    state := .waiting }

/-- `onDeliver`, with the result it completes the operation with. -/
def onDeliver (src dst : NodeId) (reply : ClientReply) : SimClient × Option Bytes :=
  if s.state ≠ .waiting ∨ dst ≠ s.attemptEnvelope ∨ src ≠ s.target then (s, none)
  else match reply.status with
    | .ok => ({ s with state := .idle }, some reply.result)
    | .notLeader => ({ s with state := .backoff }, none)
    | .error => ({ s with state := .backoff }, none)

end SimClient

/-! ## 2. The system -/

/-- The nodes and the clients. The envelope ids of client `c` are `base c`, …, `base c + range c - 1`,
    and no two clients share one. -/
structure SimConfig where
  cluster : Cluster
  batching : NodeId → Batching
  ids : Finset ℕ
  base : ℕ → NodeId
  range : ℕ → ℕ
  nonzero : 0 ∉ ids
  disjoint : ∀ c ∈ ids, ∀ d ∈ ids, ∀ i < range c, ∀ j < range d, base c + i = base d + j → c = d

/-- A request on its way. -/
structure Sent where
  src : NodeId
  dst : NodeId
  req : ClientRequest
  deriving DecidableEq, Repr

structure Sim where
  nodes : Nodes
  client : ℕ → SimClient
  sent : List Sent
  answers : List Answer
  history : List (Linear.Event ClientRequest Bytes)

inductive SimAct where
  | node (a : Act)
  | issueNextOp (c : ℕ) (command : Bytes) (target : NodeId)
  | sendAttempt (c : ℕ) (target : NodeId)
  | abandon (c : ℕ)
  | onDeliver (c : ℕ) (q : Answer)

namespace Sim

variable (Z : SimConfig) (S : Sim)

/-- A node gets a request only if somebody has sent it. -/
def Arrives : Act → Prop
  | .request K src req => ⟨src, K.self, req⟩ ∈ S.sent
  | _ => True

instance : ∀ a, Decidable (S.Arrives a)
  | .request _ _ _ => inferInstanceAs (Decidable (_ ∈ _))
  | .call _ _ => inferInstanceAs (Decidable True)
  | .advance _ => inferInstanceAs (Decidable True)
  | .crash _ _ => inferInstanceAs (Decidable True)
  | .serve _ => inferInstanceAs (Decidable True)
  | .returned _ => inferInstanceAs (Decidable True)
  | .flushIfDue _ => inferInstanceAs (Decidable True)
  | .apply _ => inferInstanceAs (Decidable True)

/-- Client `c`, which is at `d`, sends an attempt to `target`. -/
def send (c : ℕ) (d : SimClient) (target : NodeId) : Sim :=
  let d' := d.sendAttempt (Z.base c) (Z.range c) target
  { S with
    client := Function.update S.client c d'
    sent := S.sent ++ [⟨d'.attemptEnvelope, target, d.request c⟩] }

/-- **One act**, if it can happen. -/
def step : SimAct → Option Sim
  | .node a =>
      if S.Arrives a then
        (S.nodes.step Z.cluster a).map fun out =>
          { S with nodes := out.1, answers := S.answers ++ out.2 }
      else none
  | .issueNextOp c command target =>
      if c ∈ Z.ids ∧ (S.client c).state = .idle then
        let d := (S.client c).issueNextOp command
        let S := { S with history := S.history ++ [Linear.Event.invoke (d.request c)] }
        some (S.send Z c d target)
      else none
  | .sendAttempt c target =>
      if c ∈ Z.ids ∧ (S.client c).state ≠ .idle then some (S.send Z c (S.client c) target)
      else none
  | .abandon c =>
      if c ∈ Z.ids then
        some { S with client := Function.update S.client c { S.client c with state := .idle } }
      else none
  | .onDeliver c q =>
      if c ∈ Z.ids ∧ q ∈ S.answers then
        match (S.client c).onDeliver q.node q.dest q.reply with
        | (d, none) => some { S with client := Function.update S.client c d }
        | (d, some result) =>
            some { S with
              client := Function.update S.client c d
              history := S.history ++ [.respond ((S.client c).request c) result] }
      else none

def start : Sim := ⟨.start Z.cluster Z.batching, fun _ => {}, [], [], []⟩

/-- **The states of the system.** -/
inductive Reachable : Sim → Prop where
  | start : Reachable (start Z)
  | step {S S' : Sim} (a : SimAct) : Reachable S → S.step Z a = some S' → Reachable S'

end Sim

/-! ## 3. Who has asked what -/

/-- **What the clients have sent and seen.** -/
structure Protocol (Z : SimConfig) (client : ℕ → SimClient) (net : List Sent)
    (history : List (Linear.Event ClientRequest Bytes)) : Prop where
  /-- Every request was sent in an attempt, for an operation. -/
  sent : ∀ m ∈ net, ∃ c ∈ Z.ids, ∃ k, k < (client c).attempt ∧ k < Z.range c ∧
    m.src = Z.base c + k ∧ .invoke m.req ∈ history
  /-- An envelope id stands for one request. -/
  one : ∀ m ∈ net, ∀ m' ∈ net, m.src = m'.src → m = m'
  waiting : ∀ c ∈ Z.ids, (client c).state = .waiting →
    ⟨(client c).attemptEnvelope, (client c).target, (client c).request c⟩ ∈ net
  active : ∀ c ∈ Z.ids, (client c).state ≠ .idle → .invoke ((client c).request c) ∈ history ∧
    ∀ r, .respond ((client c).request c) r ∉ history
  invoked : ∀ req, .invoke req ∈ history →
    req.clientId ∈ Z.ids ∧ req.seqNo ≤ (client req.clientId).seqNo
  /-- A sequence number stands for one operation. -/
  ident : ∀ req req', .invoke req ∈ history → .invoke req' ∈ history →
    req.clientId = req'.clientId → req.seqNo = req'.seqNo → req = req'
  wf : WellFormed history

section Protocol

variable {Z : SimConfig} {client : ℕ → SimClient} {net : List Sent}
  {history : List (Linear.Event ClientRequest Bytes)} {c : ℕ} {d : SimClient} {r : Bytes}

theorem protocol_start : Protocol Z (fun _ => {}) [] [] where
  sent _ h := (List.not_mem_nil h).elim
  one _ h := (List.not_mem_nil h).elim
  waiting _ _ h := by cases h
  active _ _ h := absurd rfl h
  invoked _ h := (List.not_mem_nil h).elim
  ident _ _ h := (List.not_mem_nil h).elim
  wf := wellFormed_nil

/-- A client moves on: its numbers do not go down, and it claims nothing that is not so. -/
theorem Protocol.update (h : Protocol Z client net history) (ha : (client c).attempt ≤ d.attempt)
    (hs : (client c).seqNo ≤ d.seqNo)
    (hw : d.state = .waiting → ⟨d.attemptEnvelope, d.target, d.request c⟩ ∈ net)
    (hact : d.state ≠ .idle → .invoke (d.request c) ∈ history ∧
      ∀ r, .respond (d.request c) r ∉ history) :
    Protocol Z (Function.update client c d) net history where
  sent m hm := by
    obtain ⟨c', hc', k, hk, hrest⟩ := h.sent m hm
    refine ⟨c', hc', k, ?_, hrest⟩
    by_cases he : c' = c
    · subst he
      rw [Function.update_self]
      exact hk.trans_le ha
    · rw [Function.update_of_ne he]
      exact hk
  one := h.one
  waiting c' hc' := by
    by_cases he : c' = c
    · subst he
      rw [Function.update_self]
      exact hw
    · rw [Function.update_of_ne he]
      exact h.waiting c' hc'
  active c' hc' := by
    by_cases he : c' = c
    · subst he
      rw [Function.update_self]
      exact hact
    · rw [Function.update_of_ne he]
      exact h.active c' hc'
  invoked req hreq := by
    obtain ⟨hid, hle⟩ := h.invoked req hreq
    refine ⟨hid, ?_⟩
    by_cases he : req.clientId = c
    · subst he
      rw [Function.update_self]
      exact hle.trans hs
    · rw [Function.update_of_ne he]
      exact hle
  ident := h.ident
  wf := h.wf

/-- A client stops waiting. -/
theorem Protocol.rest (h : Protocol Z client net history) (hc : c ∈ Z.ids) {s : SimState}
    (hs : s = .idle ∨ (s = .backoff ∧ (client c).state ≠ .idle)) :
    Protocol Z (Function.update client c { client c with state := s }) net history := by
  refine h.update (Nat.le_refl _) (Nat.le_refl _) (fun hw => ?_) fun hne => ?_
  · rcases hs with rfl | ⟨rfl, -⟩ <;> cases hw
  · rcases hs with rfl | ⟨-, hact⟩
    · exact absurd rfl hne
    · exact h.active c hc hact

/-- A new operation. -/
theorem Protocol.invoke (h : Protocol Z client net history) (hc : c ∈ Z.ids)
    (req : ClientRequest) (hid : req.clientId = c) (hle : req.seqNo ≤ (client c).seqNo)
    (hnew : ∀ req', .invoke req' ∈ history → req'.clientId = c → req'.seqNo ≠ req.seqNo) :
    Protocol Z client net (history ++ [.invoke req]) := by
  have hfresh : Linear.Event.invoke req ∉ history := fun hm => hnew req hm hid rfl
  refine ⟨fun m hm => ?_, h.one, h.waiting, fun c' hc' hs => ?_, fun req' hreq' => ?_,
    fun a b ha hb hab hsq => ?_, h.wf.invoke hfresh⟩
  · obtain ⟨c', hc', k, hk, hr, hsrc, hinv⟩ := h.sent m hm
    exact ⟨c', hc', k, hk, hr, hsrc, List.mem_append_left _ hinv⟩
  · obtain ⟨hinv, hresp⟩ := h.active c' hc' hs
    refine ⟨List.mem_append_left _ hinv, fun r hr => ?_⟩
    rcases List.mem_append.mp hr with hr | hr
    · exact hresp r hr
    · cases List.mem_singleton.mp hr
  · rcases List.mem_append.mp hreq' with hr | hr
    · exact h.invoked req' hr
    · cases List.mem_singleton.mp hr
      rw [hid]
      exact ⟨hc, hle⟩
  · rcases List.mem_append.mp ha with ha | ha <;> rcases List.mem_append.mp hb with hb | hb
    · exact h.ident a b ha hb hab hsq
    · cases List.mem_singleton.mp hb
      exact absurd hsq (hnew a ha (hab.trans hid))
    · cases List.mem_singleton.mp ha
      exact absurd hsq.symm (hnew b hb (hab.symm.trans hid))
    · cases List.mem_singleton.mp ha
      cases List.mem_singleton.mp hb
      rfl

/-- An operation completes. -/
theorem Protocol.respond (h : Protocol Z client net history) {req : ClientRequest}
    (hinv : .invoke req ∈ history) (hnew : ∀ r, .respond req r ∉ history)
    (hother : ∀ c ∈ Z.ids, (client c).state ≠ .idle → (client c).request c ≠ req) :
    Protocol Z client net (history ++ [.respond req r]) := by
  have hold : ∀ a, Linear.Event.invoke a ∈ history ++ [.respond req r] → Linear.Event.invoke a ∈ history := by
    intro a ha
    rcases List.mem_append.mp ha with ha | ha
    · exact ha
    · cases List.mem_singleton.mp ha
  refine ⟨fun m hm => ?_, h.one, h.waiting, fun c' hc' hs => ?_,
    fun a ha => h.invoked a (hold a ha),
    fun a b ha hb => h.ident a b (hold a ha) (hold b hb), h.wf.respond hinv hnew⟩
  · obtain ⟨c', hc', k, hk, hr, hsrc, hi⟩ := h.sent m hm
    exact ⟨c', hc', k, hk, hr, hsrc, List.mem_append_left _ hi⟩
  · obtain ⟨hi, hresp⟩ := h.active c' hc' hs
    refine ⟨List.mem_append_left _ hi, fun r' hr => ?_⟩
    rcases List.mem_append.mp hr with hr | hr
    · exact hresp r' hr
    · cases List.mem_singleton.mp hr
      exact hother c' hc' hs rfl

/-- A request under an envelope id that was not used before. -/
theorem Protocol.push (h : Protocol Z client net history) {m : Sent} {k : ℕ} (hc : c ∈ Z.ids)
    (hk : k < (client c).attempt) (hr : k < Z.range c) (hsrc : m.src = Z.base c + k)
    (hinv : .invoke m.req ∈ history) (hnew : ∀ m' ∈ net, m'.src ≠ m.src) :
    Protocol Z client (net ++ [m]) history := by
  refine ⟨fun m' hm => ?_, fun a ha b hb hab => ?_,
    fun c' hc' hs => List.mem_append_left _ (h.waiting c' hc' hs), h.active, h.invoked, h.ident,
    h.wf⟩
  · rcases List.mem_append.mp hm with hm | hm
    · exact h.sent m' hm
    · rw [List.mem_singleton.mp hm]
      exact ⟨c, hc, k, hk, hr, hsrc, hinv⟩
  · rcases List.mem_append.mp ha with ha | ha <;> rcases List.mem_append.mp hb with hb | hb
    · exact h.one a ha b hb hab
    · exact absurd (hab.trans (by rw [List.mem_singleton.mp hb])) (hnew a ha)
    · exact absurd (hab.symm.trans (by rw [List.mem_singleton.mp ha])) (hnew b hb)
    · rw [List.mem_singleton.mp ha, List.mem_singleton.mp hb]

/-- An attempt, as long as the envelope ids last. -/
theorem Protocol.send (h : Protocol Z client net history) (hc : c ∈ Z.ids)
    (hk : (client c).attempt < Z.range c) (hinv : .invoke ((client c).request c) ∈ history)
    (hresp : ∀ r, .respond ((client c).request c) r ∉ history) (target : NodeId) :
    Protocol Z (Function.update client c ((client c).sendAttempt (Z.base c) (Z.range c) target))
      (net ++ [⟨((client c).sendAttempt (Z.base c) (Z.range c) target).attemptEnvelope, target,
        (client c).request c⟩]) history := by
  have henv : ((client c).sendAttempt (Z.base c) (Z.range c) target).attemptEnvelope
      = Z.base c + (client c).attempt := by
    unfold SimClient.sendAttempt
    dsimp only
    rw [Nat.mod_eq_of_lt hk]
  -- the id of this attempt is above those of the client's earlier ones
  have hnew : ∀ m ∈ net, m.src ≠ Z.base c + (client c).attempt := by
    intro m hm he
    obtain ⟨c', hc', k, hka, hkr, hsrc, -⟩ := h.sent m hm
    obtain rfl := Z.disjoint c' hc' c hc k hkr _ hk (hsrc.symm.trans he)
    exact Nat.ne_of_lt hka (Nat.add_left_cancel (hsrc.symm.trans he))
  have hcount := h.update (c := c)
    (d := { client c with attempt := (client c).attempt + 1, state := .idle })
    (Nat.le_succ _) (Nat.le_refl _) (fun hw => by cases hw) (fun hne => absurd rfl hne)
  rw [henv]
  have hpush := hcount.push (m := ⟨Z.base c + (client c).attempt, target, (client c).request c⟩)
    hc (k := (client c).attempt) (by rw [Function.update_self]; exact Nat.lt_succ_self _) hk rfl hinv
    hnew
  have hlast := hpush.update (c := c)
    (d := (client c).sendAttempt (Z.base c) (Z.range c) target)
    (by rw [Function.update_self]; exact Nat.le_refl _)
    (by rw [Function.update_self]; exact Nat.le_refl _)
    (fun _ => List.mem_append_right _ (by rw [henv]; exact List.mem_singleton_self _))
    (fun _ => ⟨hinv, hresp⟩)
  rw [Function.update_idem] at hlast
  exact hlast

/-- What `onDeliver` can do. -/
theorem onDeliver_cases (d : SimClient) (src dst : NodeId) (reply : ClientReply) :
    d.onDeliver src dst reply = (d, none) ∨
    (d.state = .waiting ∧ dst = d.attemptEnvelope ∧ src = d.target ∧
      (d.onDeliver src dst reply = ({ d with state := .backoff }, none) ∨
       reply.status = .ok ∧
        d.onDeliver src dst reply = ({ d with state := .idle }, some reply.result))) := by
  unfold SimClient.onDeliver
  split_ifs with hc
  · exact .inl rfl
  · rw [not_or, not_or, not_not, not_not, not_not] at hc
    refine .inr ⟨hc.1, hc.2.1, hc.2.2, ?_⟩
    cases hs : reply.status with
    | ok => exact .inr ⟨rfl, rfl⟩
    | notLeader => exact .inl rfl
    | error => exact .inl rfl

/-- How the history may grow in a step from `S`. -/
inductive Grows (Z : SimConfig) (S : Sim) : List (Linear.Event ClientRequest Bytes) → Prop where
  | same : Grows Z S S.history
  | invoke (req : ClientRequest) : Grows Z S (S.history ++ [.invoke req])
  | respond (c : ℕ) (q : Answer) (hc : c ∈ Z.ids) (hq : q ∈ S.answers)
      (hok : q.reply.status = .ok) (hw : (S.client c).state = .waiting)
      (hdst : q.dest = (S.client c).attemptEnvelope) (hsrc : q.node = (S.client c).target) :
      Grows Z S (S.history ++ [.respond ((S.client c).request c) q.reply.result])

/-- **What an act does to the nodes and to the history.** -/
theorem step_cases {S S' : Sim} {a : SimAct} (hs : S.step Z a = some S') :
    (∃ b out, S.Arrives b ∧ S.nodes.step Z.cluster b = some out ∧
      S' = { S with nodes := out.1, answers := S.answers ++ out.2 }) ∨
    (S'.nodes = S.nodes ∧ S'.answers = S.answers ∧ S.sent ⊆ S'.sent ∧ Grows Z S S'.history) := by
  cases a with
  | node b =>
      dsimp only [Sim.step] at hs
      split_ifs at hs with hb
      obtain ⟨out, hout, rfl⟩ := Option.map_eq_some_iff.mp hs
      exact .inl ⟨b, out, hb, hout, rfl⟩
  | issueNextOp c command target =>
      dsimp only [Sim.step] at hs
      split_ifs at hs
      cases hs
      exact .inr ⟨rfl, rfl, List.subset_append_left _ _, .invoke _⟩
  | sendAttempt c target =>
      dsimp only [Sim.step] at hs
      split_ifs at hs
      cases hs
      exact .inr ⟨rfl, rfl, List.subset_append_left _ _, .same⟩
  | abandon c =>
      dsimp only [Sim.step] at hs
      split_ifs at hs
      cases hs
      exact .inr ⟨rfl, rfl, List.Subset.refl _, .same⟩
  | onDeliver c q =>
      dsimp only [Sim.step] at hs
      split_ifs at hs with hc
      rcases onDeliver_cases (S.client c) q.node q.dest q.reply with
        he | ⟨hw, hdst, hsrc, he | ⟨hok, he⟩⟩
      · rw [he] at hs
        cases hs
        exact .inr ⟨rfl, rfl, List.Subset.refl _, .same⟩
      · rw [he] at hs
        cases hs
        exact .inr ⟨rfl, rfl, List.Subset.refl _, .same⟩
      · rw [he] at hs
        cases hs
        exact .inr ⟨rfl, rfl, List.Subset.refl _, .respond c q hc.1 hc.2 hok hw hdst hsrc⟩

/-- The attempts are only counted up. -/
theorem attempt_mono {S S' : Sim} {a : SimAct} (hs : S.step Z a = some S') (c : ℕ) :
    (S.client c).attempt ≤ (S'.client c).attempt := by
  have key : ∀ {e : ℕ} {d : SimClient}, (S.client e).attempt ≤ d.attempt →
      (S.client c).attempt ≤ (Function.update S.client e d c).attempt := by
    intro e d hle
    by_cases he : c = e
    · subst he
      rw [Function.update_self]
      exact hle
    · rw [Function.update_of_ne he]
  cases a with
  | node a =>
      dsimp only [Sim.step] at hs
      split_ifs at hs
      obtain ⟨out, -, rfl⟩ := Option.map_eq_some_iff.mp hs
      exact Nat.le_refl _
  | issueNextOp e command target =>
      dsimp only [Sim.step] at hs
      split_ifs at hs
      cases hs
      exact key (Nat.le_succ _)
  | sendAttempt e target =>
      dsimp only [Sim.step] at hs
      split_ifs at hs
      cases hs
      exact key (Nat.le_succ _)
  | abandon e =>
      dsimp only [Sim.step] at hs
      split_ifs at hs
      cases hs
      exact key (Nat.le_refl _)
  | onDeliver e q =>
      dsimp only [Sim.step] at hs
      split_ifs at hs
      rcases onDeliver_cases (S.client e) q.node q.dest q.reply with he | ⟨-, -, -, he | ⟨-, he⟩⟩
      all_goals
        rw [he] at hs
        cases hs
        exact key (Nat.le_refl _)

/-- **Every act keeps this**, as long as the envelope ids last. -/
theorem protocol_step {S S' : Sim} {a : SimAct} (h : Protocol Z S.client S.sent S.history)
    (hs : S.step Z a = some S') (hk : ∀ c ∈ Z.ids, (S'.client c).attempt ≤ Z.range c) :
    Protocol Z S'.client S'.sent S'.history := by
  cases a with
  | node a =>
      dsimp only [Sim.step] at hs
      split_ifs at hs
      obtain ⟨out, -, rfl⟩ := Option.map_eq_some_iff.mp hs
      exact h
  | issueNextOp c command target =>
      dsimp only [Sim.step] at hs
      split_ifs at hs with hc
      cases hs
      have hkc := hk c hc.1
      dsimp only [Sim.send] at hkc
      rw [Function.update_self] at hkc
      have hnew : ∀ req', Linear.Event.invoke req' ∈ S.history → req'.clientId = c →
          req'.seqNo ≠ (S.client c).seqNo + 1 := by
        intro req' hinv hid he
        have hle := (h.invoked req' hinv).2
        rw [hid] at hle
        omega
      have hissue := h.update (c := c) (d := (S.client c).issueNextOp command) (Nat.le_refl _)
        (Nat.le_succ _) (fun hw => by rw [SimClient.issueNextOp, hc.2] at hw; cases hw)
        (fun hne => absurd hc.2 hne)
      have hinv := hissue.invoke hc.1 (((S.client c).issueNextOp command).request c) rfl
        (by rw [Function.update_self]; exact Nat.le_refl _) hnew
      have hsend := hinv.send (c := c) hc.1 (by rw [Function.update_self]; exact hkc)
        (by rw [Function.update_self]; exact List.mem_append_right _ (List.mem_singleton_self _))
        (by
          rw [Function.update_self]
          intro r hr
          rcases List.mem_append.mp hr with hr | hr
          · exact hnew _ ((h.wf.order _ r hr).subset List.mem_cons_self) rfl rfl
          · cases List.mem_singleton.mp hr) target
      rw [Function.update_self, Function.update_idem] at hsend
      exact hsend
  | sendAttempt c target =>
      dsimp only [Sim.step] at hs
      split_ifs at hs with hc
      cases hs
      have hkc := hk c hc.1
      dsimp only [Sim.send] at hkc
      rw [Function.update_self] at hkc
      obtain ⟨hinv, hresp⟩ := h.active c hc.1 hc.2
      exact h.send hc.1 hkc hinv hresp target
  | abandon c =>
      dsimp only [Sim.step] at hs
      split_ifs at hs with hc
      cases hs
      exact h.rest hc (.inl rfl)
  | onDeliver c q =>
      dsimp only [Sim.step] at hs
      split_ifs at hs with hc
      rcases onDeliver_cases (S.client c) q.node q.dest q.reply with
        he | ⟨hw, -, -, he | ⟨-, he⟩⟩
      · rw [he] at hs
        cases hs
        dsimp only
        rw [Function.update_eq_self]
        exact h
      · rw [he] at hs
        cases hs
        exact h.rest hc.1 (.inr ⟨rfl, by rw [hw]; exact SimState.noConfusion⟩)
      · rw [he] at hs
        cases hs
        obtain ⟨hinv, hresp⟩ := h.active c hc.1 (by rw [hw]; exact SimState.noConfusion)
        refine (h.rest hc.1 (.inl rfl)).respond hinv hresp fun c' _ hs' he' => ?_
        -- another client has another id
        have hcc : c' = c := congrArg ClientRequest.clientId he'
        subst hcc
        rw [Function.update_self] at hs'
        exact hs' rfl

end Protocol

end Rsm.Client
