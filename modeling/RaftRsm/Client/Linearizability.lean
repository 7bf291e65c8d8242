/-
  File:      RaftRsm/Client/Linearizability.lean
  Subject:   THE REPLICATED STORE IS LINEARIZABLE for clients that retry and take only the reply to
             their latest attempt.

  The linearization is the order in which the commands of the applied log count. It grows when an
  entry is handed to a state machine, which is after its request was sent; and an operation responds
  after its entry was handed over. That a reply carries the answer of its own operation, and not of
  a later one of the same client, is because the client has no later one yet.

  * `requestOf` -- the request behind an entry of the log;
  * `Explained` -- what holds in every state; `explained_step`, `explained_reachable`;
  * `linearizable` -- the history is linearizable, every acknowledged operation is in the log, and it
    has its effect once.
-/
import RaftRsm.Client.SimClient
import RaftRsm.Raft.Safety

namespace Rsm.Client

open Rsm.Rpc Rsm.Raft Rsm.StateMachine Linear

/-! ## 1. The request behind an entry -/

/-- The request an entry of the log was proposed for. -/
def requestOf (e : LogEntry) : ClientRequest :=
  match decodePrefix e.command with
  | none => ⟨0, 0, e.command⟩
  | some (clientId, seqNo) => ⟨clientId, seqNo, e.command⟩

@[simp] theorem requestOf_command (e : LogEntry) : (requestOf e).command = e.command := by
  unfold requestOf
  split <;> rfl

theorem map_command (L : List LogEntry) :
    (L.map requestOf).map ClientRequest.command = L.map LogEntry.command := by
  rw [List.map_map]
  exact List.map_congr_left fun e _ => requestOf_command e

theorem requestOf_eq {e : LogEntry} {req : ClientRequest} (hcmd : req.command = e.command)
    (hid : decodePrefix e.command = some (req.clientId, req.seqNo)) : requestOf e = req := by
  unfold requestOf
  rw [hid, ← hcmd]

/-- The store over requests. -/
abbrev kvRequests : Object KvMap ClientRequest Bytes := kvObject ClientRequest.command

/-- The session of a request. -/
abbrev requestTag (req : ClientRequest) : Option (ℕ × ℕ) := kvTag req.command

/-- The requests that count in a log. -/
def effects (L : List LogEntry) : List ClientRequest :=
  Sessions.order kvRequests requestTag (L.map requestOf)

/-! ## 2. The log of a run -/

/-- Who has asked what. -/
def Sim.asked (S : Sim) (n src : NodeId) (req : ClientRequest) : Prop := ⟨src, n, req⟩ ∈ S.sent

/-- The command is that of a request that was sent, with the identity it carries. -/
def Sim.Origin (S : Sim) (command : Bytes) : Prop :=
  ∃ m ∈ S.sent, m.req.command = command ∧
    decodePrefix command = some (m.req.clientId, m.req.seqNo)

/-- The request was made, and its command carries its identity. -/
structure Made (S : Sim) (req : ClientRequest) : Prop where
  invoked : .invoke req ∈ S.history
  identity : decodePrefix req.command = some (req.clientId, req.seqNo)

/-- **What holds in every state**, apart from the linearization. -/
structure Answered (Z : SimConfig) (S : Sim) : Prop where
  protocol : Protocol Z S.client S.sent S.history
  good : Good Z.cluster S.Origin S.asked S.nodes
  right : ∀ q ∈ S.answers, q.reply.status = .ok → q.Right Z.cluster S.asked S.nodes.world

section Log

variable {Z : SimConfig} {S : Sim} {L G : List LogEntry} {e : LogEntry} {i : ℕ}

/-- Every entry that was handed over was proposed for a request that was made. -/
theorem Answered.made (h : Answered Z S) (he : Z.cluster.HandedAt S.nodes.world i e) :
    Made S (requestOf e) := by
  obtain ⟨m, hm, hcmd, hid⟩ := he.command h.good.reachable h.good.sourced
  obtain ⟨c, -, k, -, -, -, hinv⟩ := h.protocol.sent m hm
  rw [requestOf_eq hcmd hid]
  exact ⟨hinv, hcmd ▸ hid⟩

/-- An entry with the identity of an operation is that operation's. -/
theorem Answered.requestOf_of_identity (h : Answered Z S)
    (he : Z.cluster.HandedAt S.nodes.world i e) {req : ClientRequest}
    (hreq : .invoke req ∈ S.history)
    (hid : decodePrefix e.command = some (req.clientId, req.seqNo)) : requestOf e = req := by
  have hmade := h.made he
  have hid' := hmade.identity
  rw [requestOf_command, hid] at hid'
  obtain ⟨h1, h2⟩ := Prod.mk.inj (Option.some.inj hid')
  exact h.protocol.ident _ _ hmade.invoked hreq h1.symm h2.symm

theorem Answered.made_of_handed (h : Answered Z S) (hG : Z.cluster.Handed S.nodes.world G) :
    ∀ req ∈ G.map requestOf, Made S req := by
  intro req hreq
  obtain ⟨e, he, rfl⟩ := List.mem_map.mp hreq
  obtain ⟨i, hi⟩ := List.mem_iff_getElem?.mp he
  exact h.made (hG i e hi)

theorem Answered.made_of_log (h : Answered Z S) (hL : Z.cluster.IsLog S.nodes.world L) :
    ∀ req ∈ L.map requestOf, Made S req :=
  h.made_of_handed fun i e => (hL i e).mp

/-- The session of a request is its identity. -/
theorem Made.tag {req : ClientRequest} {c q : ℕ} (h : Made S req)
    (ht : requestTag req = some (c, q)) : req.clientId = c ∧ req.seqNo = q := by
  unfold requestTag kvTag at ht
  split at ht
  · cases ht
  · rename_i p hp
    split_ifs at ht
    cases ht
    have hid := h.identity
    rw [decodePrefix_of_parse hp] at hid
    obtain ⟨h1, h2⟩ := Prod.mk.inj (Option.some.inj hid)
    exact ⟨h1.symm, h2.symm⟩

/-- A well-formed request has a session: client ids are not 0. -/
theorem Answered.tag_eq (h : Answered Z S) {req : ClientRequest} (hreq : Made S req)
    {q : KvCommand} (hp : parse req.command = some q) :
    requestTag req = some (req.clientId, req.seqNo) := by
  have hid := hreq.identity
  rw [decodePrefix_of_parse hp] at hid
  obtain ⟨h1, -⟩ := Prod.mk.inj (Option.some.inj hid)
  rw [← Option.some.inj hid]
  refine kvTag_of_parse hp fun h0 => Z.nonzero ?_
  rw [← h0, h1]
  exact (h.protocol.invoked req hreq.invoked).1

/-- What has no session is malformed, and does nothing. -/
theorem Answered.inert (h : Answered Z S) (hL : Z.cluster.IsLog S.nodes.world L) :
    ∀ req ∈ L.map requestOf, requestTag req = none → Sessions.Inert kvRequests req := by
  intro req hreq ht
  refine inert_of_malformed _ ?_
  cases hp : parse req.command with
  | none => rfl
  | some q =>
      rw [h.tag_eq (h.made_of_log hL req hreq) hp] at ht
      cases ht

/-- Two requests of one session are the same. -/
theorem Answered.same (h : Answered Z S) {a b : ClientRequest} (ha : Made S a) (hb : Made S b)
    {x : ℕ × ℕ} (hta : requestTag a = some x) (htb : requestTag b = some x) : a = b := by
  obtain ⟨hac, haq⟩ := ha.tag hta
  obtain ⟨hbc, hbq⟩ := hb.tag htb
  exact h.protocol.ident a b ha.invoked hb.invoked (hac.trans hbc.symm) (haq.trans hbq.symm)

theorem Answered.effects_made (h : Answered Z S) (hL : Z.cluster.IsLog S.nodes.world L) :
    ∀ req ∈ effects L, .invoke req ∈ S.history :=
  fun req hreq => (h.made_of_log hL req (Sessions.mem_of_mem_order hreq)).invoked

theorem Answered.effects_nodup (h : Answered Z S) (hL : Z.cluster.IsLog S.nodes.world L) :
    (effects L).Nodup :=
  (Sessions.tracks (h.inert hL)).nodup

/-- **A client takes the answer of its own operation.** -/
theorem Answered.gives (h : Answered Z S) (hL : Z.cluster.IsLog S.nodes.world L) {c : ℕ}
    (hc : c ∈ Z.ids) {q : Answer} (hq : q ∈ S.answers) (hok : q.reply.status = .ok)
    (hw : (S.client c).state = .waiting) (hdst : q.dest = (S.client c).attemptEnvelope)
    (hsrc : q.node = (S.client c).target) :
    kvRequests.Gives (effects L) ((S.client c).request c) q.reply.result := by
  obtain ⟨req, hask, G, e, hG, hid, hres⟩ := h.right q hq hok
  -- the envelope id is the current attempt's
  have hmsg := h.protocol.waiting c hc hw
  rw [← hdst, ← hsrc] at hmsg
  obtain rfl : req = (S.client c).request c :=
    congrArg Sent.req (h.protocol.one _ hask _ hmsg rfl)
  have hpre := hL.of_handed hG
  have hmade := h.made_of_handed hG
  rw [List.map_append] at hmade
  have he : Made S (requestOf e) :=
    hmade _ (List.mem_append_right _ (List.mem_singleton_self _))
  -- the entry is the operation's own
  obtain ⟨c', k, -, -, -, -, hinv⟩ := h.protocol.sent _ hask
  have hreq := h.requestOf_of_identity (hG G.length e List.getElem?_concat_length) hinv hid
  have hgives := Sessions.apply_gives (M := G.map requestOf) (b := requestOf e) (h.inert hL)
    (by rw [← List.map_singleton, ← List.map_append]; exact hpre.map requestOf)
    (fun a ha x hb ha' => h.same (hmade a (List.mem_append_left _ ha)) he ha' hb)
    (fun a ha c₀ p p' hb ha' => ?_)
  · rw [KVStateMachine.sessions_after, KVStateMachine.sessions_answer, map_command,
      requestOf_command, hreq] at hgives
    rw [hres]
    exact hgives
  · -- the client has no later operation yet
    obtain ⟨hbc, hbq⟩ := he.tag hb
    obtain ⟨hac, haq⟩ := (hmade a (List.mem_append_left _ ha)).tag ha'
    have hle := (h.protocol.invoked a (hmade a (List.mem_append_left _ ha)).invoked).2
    rw [hreq] at hbc hbq
    have hcc : c = c₀ := hbc
    rw [hac, ← hcc, haq] at hle
    rw [← hbq]
    exact hle

end Log

/-! ## 3. Every state is explained -/

/-- **The log linearizes the history.** -/
structure Explained (Z : SimConfig) (S : Sim) : Prop where
  answered : Answered Z S
  linear : ∃ L, Z.cluster.IsLog S.nodes.world L ∧ Linearization kvRequests S.history (effects L)

section Run

variable {Z : SimConfig} {S S' : Sim}

theorem effects_grow {L L' : List LogEntry} (h : L <+: L') : effects L <+: effects L' :=
  Sessions.order_grows _ _ (h.map requestOf)

theorem explained_start (Z : SimConfig) : Explained Z (Sim.start Z) := by
  refine ⟨⟨protocol_start, good_start _ _, fun _ hq => (List.not_mem_nil hq).elim⟩, [], ?_,
    linearization_nil⟩
  intro i e
  constructor
  · intro h
    cases h
  · intro h
    obtain ⟨m, -, hm⟩ := h
    exact (List.not_mem_nil hm).elim

/-- An act of a node. -/
theorem Explained.node (h : Explained Z S) {b : Act} {out : Nodes × List Answer}
    (hb : S.Arrives b) (hout : S.nodes.step Z.cluster b = some out) :
    Explained Z { S with nodes := out.1, answers := S.answers ++ out.2 } := by
  obtain ⟨hans, L, hL, hlin⟩ := h
  have hcarried : Carried S.Origin S.asked := fun n src req hask hid => ⟨_, hask, rfl, hid⟩
  have hfine := good_step hans.good hcarried hout fun K src req he => by
    subst he
    exact hb
  have hans' : Answered Z { S with nodes := out.1, answers := S.answers ++ out.2 } := by
    refine ⟨hans.protocol, hfine.good, fun q hq hok => ?_⟩
    rcases List.mem_append.mp hq with hq | hq
    · exact (hans.right q hq hok).mono (fun _ _ _ => id) hfine.longer
    · exact hfine.answers q hq hok
  -- the log may have grown, and what is new in it was asked for before
  obtain ⟨L', hL'⟩ := Cluster.exists_log hfine.good.reachable hfine.good.sourced
  exact ⟨hans', L', hL', hlin.extend (effects_grow (hL.grows hL' hfine.longer))
    (hans'.effects_made hL') (hans'.effects_nodup hL')⟩

/-- **Every act keeps this**, as long as the envelope ids last. -/
theorem explained_step (h : Explained Z S) {a : SimAct} (hs : S.step Z a = some S')
    (hk : ∀ c ∈ Z.ids, (S'.client c).attempt ≤ Z.range c) : Explained Z S' := by
  have hproto := protocol_step h.answered.protocol hs hk
  rcases step_cases hs with ⟨b, out, hb, hout, rfl⟩ | ⟨hn, ha, hsent, hgrow⟩
  · exact h.node hb hout
  · obtain ⟨hans, L, hL, hlin⟩ := h
    refine ⟨⟨hproto, ?_, fun q hq hok => ?_⟩, L, ?_, ?_⟩
    · rw [hn]
      refine hans.good.mono (fun b hb => ?_) fun _ _ _ hask => hsent hask
      obtain ⟨m, hm, hrest⟩ := hb
      exact ⟨m, hsent hm, hrest⟩
    · rw [ha] at hq
      rw [hn]
      exact (hans.right q hq hok).mono (fun _ _ _ hask => hsent hask) (Cluster.Longer.refl _)
    · rw [hn]
      exact hL
    · have hwf := hproto.wf
      generalize S'.history = h' at hwf hgrow ⊢
      cases hgrow with
      | same => exact hlin
      | invoke req => exact hlin.invoke hwf.fresh
      | respond c q hc hq hok hw hdst hsrc =>
          exact hlin.respond (hans.gives hL hc hq hok hw hdst hsrc)

/-- **Every state of a run is explained.** -/
theorem explained_reachable (hr : Sim.Reachable Z S)
    (hk : ∀ c ∈ Z.ids, (S.client c).attempt ≤ Z.range c) : Explained Z S := by
  induction hr with
  | start => exact explained_start Z
  | step a _ hs ih =>
      exact explained_step (ih fun c hc => (attempt_mono hs c).trans (hk c hc)) hs hk

end Run

/-! ## 4. Linearizability -/

/-- At position `i` of the log the state machine executes a command with the identity of `req`. -/
def EffectAt (L : List LogEntry) (req : ClientRequest) (i : ℕ) : Prop :=
  ∃ e, L[i]? = some e ∧ decodePrefix e.command = some (req.clientId, req.seqNo) ∧
    (KVStateMachine.after ((L.take i).map LogEntry.command)).Executes e.command

section Main

variable {Z : SimConfig} {S : Sim} {L : List LogEntry} {req : ClientRequest}

theorem Answered.effectAt_iff (h : Answered Z S) (hL : Z.cluster.IsLog S.nodes.world L)
    (hreq : Made S req) {q : KvCommand} (hp : parse req.command = some q) (i : ℕ) :
    EffectAt L req i ↔ Sessions.ExecutedAt kvRequests requestTag (L.map requestOf) req i := by
  have hcached : Sessions.cached requestTag
      (Sessions.after kvRequests requestTag ((L.map requestOf).take i)) req =
      (KVStateMachine.after ((L.take i).map LogEntry.command)).cachedResult q := by
    rw [← List.map_take, KVStateMachine.sessions_after, map_command]
    exact KVStateMachine.cached_view hp
  unfold Sessions.ExecutedAt
  rw [hcached, List.getElem?_map, Option.map_eq_some_iff]
  constructor
  · intro hx
    obtain ⟨e, he, hid, q', hp', hc⟩ := hx
    have hreqe := h.requestOf_of_identity ((hL i e).mp he) hreq.invoked hid
    have hcmd : e.command = req.command := by rw [← hreqe, requestOf_command]
    rw [hcmd, hp] at hp'
    cases hp'
    exact ⟨⟨e, he, hreqe⟩, hc⟩
  · intro hx
    obtain ⟨⟨e, he, hreqe⟩, hc⟩ := hx
    have hcmd : e.command = req.command := by rw [← hreqe, requestOf_command]
    refine ⟨e, he, ?_, q, ?_, hc⟩
    · rw [hcmd]
      exact hreq.identity
    · rw [hcmd]
      exact hp

/-- **The replicated store is linearizable**, for any number of clients that retry: the operations
    that were completed by OK replies, and some of those that were not, happen one after the other
    on the sequential store, in an order that respects time. There is one applied log, in which
    every acknowledged operation is, and there it is executed once; wherever else it is, it changes
    nothing. The condition says that no envelope id has been used for two attempts. -/
theorem kv_linearizable (hr : Sim.Reachable Z S)
    (hk : ∀ c ∈ Z.ids, (S.client c).attempt ≤ Z.range c) :
    WellFormed S.history ∧ Linearizable kvRequests S.history ∧
    ∃ L, Z.cluster.IsLog S.nodes.world L ∧ ∀ req r, .respond req r ∈ S.history →
      (∃ e ∈ L, e.command = req.command ∧
        decodePrefix e.command = some (req.clientId, req.seqNo)) ∧
      (parse req.command ≠ none → ∃! i, EffectAt L req i) ∧
      ∀ i e, L[i]? = some e → decodePrefix e.command = some (req.clientId, req.seqNo) →
        ¬ EffectAt L req i →
        ((KVStateMachine.after ((L.take i).map LogEntry.command)).apply e.command).1 =
          KVStateMachine.after ((L.take i).map LogEntry.command) := by
  obtain ⟨hans, L, hL, hlin⟩ := explained_reachable hr hk
  refine ⟨hans.protocol.wf, ⟨effects L, hlin⟩, L, hL, fun req r hresp => ⟨?_, ?_, ?_⟩⟩
  · have hmem := Sessions.mem_of_mem_order (hlin.answered req r hresp).mem
    have hmade := hans.made_of_log hL req hmem
    obtain ⟨e, he, rfl⟩ := List.mem_map.mp hmem
    refine ⟨e, he, (requestOf_command e).symm, ?_⟩
    rw [← requestOf_command e]
    exact hmade.identity
  · intro hp
    obtain ⟨q, hq⟩ := Option.ne_none_iff_exists'.mp hp
    have hmem := (hlin.answered req r hresp).mem
    have hmade := hans.made_of_log hL req (Sessions.mem_of_mem_order hmem)
    have honce := Sessions.executed_once (hans.inert hL) (hans.tag_eq hmade hq) hmem
    simpa only [hans.effectAt_iff hL hmade hq] using honce
  · intro i e he hid hno
    exact KVStateMachine.apply_of_not_executes fun hex => hno ⟨e, he, hid, hex⟩

end Main

/-! ## 5. One client and one retry

Client 7 sends a PUT to node 1 of three, gives its first attempt up and sends it again. Both
attempts become entries of the log, both entries are applied and answered, and the client takes the
second answer. -/

/-- A script of acts; one that cannot happen is skipped. -/
def Sim.play (Z : SimConfig) (S : Sim) : List SimAct → Sim
  | [] => S
  | a :: l => Sim.play Z ((S.step Z a).getD S) l

theorem reachable_play {Z : SimConfig} (l : List SimAct) {S : Sim} (h : Sim.Reachable Z S) :
    Sim.Reachable Z (S.play Z l) := by
  induction l generalizing S with
  | nil => exact h
  | cons a l ih =>
      refine ih ?_
      cases hs : S.step Z a with
      | none => exact h
      | some S' => exact h.step a hs

def soleConfig : SimConfig where
  cluster := Cluster.trio
  batching _ := {}
  ids := {7}
  base _ := 100
  range _ := 8
  nonzero := by decide
  disjoint := by
    intro c hc d hd _ _ _ _ _
    rw [Finset.mem_singleton.mp hc, Finset.mem_singleton.mp hd]

def soleCtx (n : NodeId) (now : ℕ) : Ctx := { self := n, peers := Cluster.trio.peers n, now := now }

def solePut : Bytes := encodeKvCommand 7 1 .put [107] [118] []

def soleRequest : ClientRequest := ⟨7, 1, solePut⟩

def soleServes (src : NodeId) : List SimAct :=
  (.request (soleCtx 1 1000) src soleRequest :: Nodes.serveAll (soleCtx 1 1000)).map .node

def soleScript : List SimAct :=
  (Nodes.callAll (soleCtx 1 0) .start ++ Nodes.callAll (soleCtx 1 1000) .tick ++
    Nodes.callAll (soleCtx 2 1000) (.handle 1 (.requestVote ⟨1, 1, 0, 0⟩)) ++
    Nodes.callAll (soleCtx 1 1000) (.handle 2 (.requestVoteReply ⟨1, true⟩))).map .node ++
  [.issueNextOp 7 solePut 1] ++ soleServes 100 ++
  [.sendAttempt 7 1] ++ soleServes 101 ++
  (Nodes.callAll (soleCtx 2 1000) (.handle 1 (.appendEntries
      ⟨1, 1, 0, 0, 0, [⟨1, solePut⟩, ⟨1, solePut⟩]⟩)) ++
    Nodes.callAll (soleCtx 1 1000) (.handle 2 (.appendEntriesReply ⟨1, true, 2, 0⟩)) ++
    [Act.apply 1, Act.apply 1]).map .node ++
  [.onDeliver 7 ⟨1, 100, ⟨.ok, 1, [kKvOk]⟩⟩, .onDeliver 7 ⟨1, 101, ⟨.ok, 1, [kKvOk]⟩⟩]

def soleRun : Sim := (Sim.start soleConfig).play soleConfig soleScript

theorem kv_linearizable_sole :
    soleRun.history = [.invoke soleRequest, .respond soleRequest [kKvOk]] ∧
    soleRun.answers.length = 2 ∧ Linearizable kvRequests soleRun.history ∧
    ∃ L, Cluster.trio.IsLog soleRun.nodes.world L ∧ ∃! i, EffectAt L soleRequest i := by
  have hhist : soleRun.history = [.invoke soleRequest, .respond soleRequest [kKvOk]] := by
    decide +kernel
  obtain ⟨-, hlin, L, hL, hacked⟩ := kv_linearizable (Z := soleConfig) (S := soleRun)
    (reachable_play soleScript .start) (by decide +kernel)
  obtain ⟨-, honce, -⟩ := hacked soleRequest [kKvOk] (by rw [hhist]; decide)
  exact ⟨hhist, by decide +kernel, hlin, L, hL, honce (by decide +kernel)⟩

end Rsm.Client
