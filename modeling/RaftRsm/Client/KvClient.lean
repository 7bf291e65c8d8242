/-
  File:      RaftRsm/Client/KvClient.lean
  Subject:   THE REAL CLIENT (`client/kv_client.{h,cpp}`) on its connections, in front of the nodes.

  A call sends its request to the server it prefers, waits for a reply on the connection and takes
  the first one it reads; the rest of that read is dropped. After a timeout or a failure the
  connection is closed, after a reply it is kept for the next attempt at the same server. A read may
  end inside a frame: the assembler is reset before the next attempt, which takes the rest of that
  frame for the beginning of one (`torn`); what it makes of it is left open (`misread`). The
  operations `put`, `get`, `del`, `cas`, `append` and those of the order book differ in the command
  bytes only, which are left open here.

  * `KvClient`, `KvClient.finish` -- a client, and what `call` does with the outcome of an attempt;
  * `KvNet`, `KvNet.step` -- the clients, the connections and the nodes, and all they do;
  * `KvNet.Reachable` -- the states of every run.
-/
import RaftRsm.Transport.Connections

namespace Rsm.Client

open Rsm.Rpc Rsm.Raft Rsm.StateMachine Rsm.Transport

/-! ## 1. A client -/

/-- Where the client is in `call`. -/
inductive CallState where
  | idle
  /-- at the head of the loop -/
  | trying
  /-- in `attempt`, waiting for the reply of the server at `idx` -/
  | awaiting (idx : ℕ)
  deriving DecidableEq, Repr

structure KvClient where
  seqNo : ℕ := 0
  preferred : NodeId := 0
  rotation : ℕ := 0
  lastCommand : Bytes := []
  fd : Option ℕ := none
  connectedTo : NodeId := 0
  /-- what is next on the connection is the rest of a frame; the source does not keep this -/
  torn : Bool := false
  state : CallState := .idle
  tries : ℕ := 0
  /-- the servers the operation has been sent to; the source does not keep them -/
  tried : List NodeId := []
  deriving DecidableEq, Repr

namespace KvClient

variable (d : KvClient)

/-- The request of the client `id` for its current operation. -/
def request (id : ℕ) : ClientRequest := ⟨id, d.seqNo, d.lastCommand⟩

def dropConnection : KvClient := { d with fd := none, connectedTo := 0, torn := false }

/-- A new operation enters `call`. -/
def call (command : Bytes) : KvClient :=
  { d with seqNo := d.seqNo + 1, lastCommand := command, state := .trying, tries := 0, tried := [] }

def resendLast : KvClient := { d with state := .trying, tries := 0 }

/-- The believed leader, if it is one of the servers; otherwise the rotation. -/
def pick (servers : List NodeId) : ℕ :=
  if d.preferred ≠ 0 ∧ d.preferred ∈ servers then servers.idxOf d.preferred
  else d.rotation % servers.length

/-- `call` once `attempt` has returned, with the result it returns. -/
def finish (serverId : NodeId) (idx : ℕ) : Option ClientReply → KvClient × Option Bytes
  | some reply =>
      if reply.status = .ok then
        ({ d with
           preferred := if reply.result = [] then d.preferred else serverId
           state := .idle }, some reply.result)
      else if reply.status = .notLeader ∧ reply.leaderHint ≠ 0 ∧ reply.leaderHint ≠ serverId then
        ({ d with preferred := reply.leaderHint, state := .trying, tries := d.tries + 1 }, none)
      else ({ d with preferred := 0, rotation := idx + 1, state := .trying, tries := d.tries + 1 },
        none)
  | none =>
      ({ d with preferred := 0, rotation := idx + 1, state := .trying, tries := d.tries + 1 }, none)

end KvClient

/-! ## 2. The system -/

/-- The nodes and the clients; a client has an id for the sessions and an envelope id of its own. -/
structure KvConfig where
  cluster : Cluster
  batching : NodeId → Batching
  ids : Finset ℕ
  nodeId : ℕ → NodeId
  servers : List NodeId
  maxAttempts : ℕ := 20
  unique : ∀ c ∈ ids, ∀ d ∈ ids, nodeId c = nodeId d → c = d
  disjoint : ∀ c ∈ ids, nodeId c ∉ cluster.ids

/-- A result that `call` has returned, with the request it was returned for. -/
structure Returned where
  req : ClientRequest
  result : Bytes
  deriving DecidableEq, Repr

structure KvNet where
  nodes : Nodes
  links : Links
  client : ℕ → KvClient
  returned : List Returned

inductive KvAct where
  /-- a node does something other than the next two -/
  | node (a : Act)
  /-- the Raft thread takes the next request -/
  | receive (K : Ctx)
  | crash (n : NodeId) (rng : ℕ → ℕ)
  | onFrame (k : ℕ)
  | dropFrame (k : ℕ)
  | noteRoute (v : NodeId)
  | closeConn (k : ℕ)
  | sendFrame (v : NodeId) (ring : Ring) (written : Bool)
  | call (c : ℕ) (command : Bytes)
  | resendLast (c : ℕ)
  | setPreferredNode (c : ℕ) (v : NodeId)
  /-- the request is sent -/
  | attempt (c : ℕ)
  /-- connecting or sending fails -/
  | attemptFails (c : ℕ)
  /-- the request does not encode -/
  | unsent (c : ℕ)
  /-- `n` frames are read, and if `cut` the beginning of the next one -/
  | read (c n : ℕ) (cut : Bool)
  /-- the rest of a frame, and what follows it, is taken for a reply -/
  | misread (c n : ℕ) (reply : ClientReply)
  /-- the deadline passes, or the connection ends -/
  | noReply (c : ℕ)
  | giveUp (c : ℕ)

/-- What a node does by itself. -/
def Act.own : Act → Bool
  | .request _ _ _ => false
  | .crash _ _ => false
  | _ => true

/-- The ring the replies of an act go to. -/
def Act.ring : Act → Ring
  | .apply _ => .applyTx
  | _ => .raftTx

namespace KvNet

variable (Z : KvConfig) (S : KvNet)

/-- The nodes have moved, and their replies are in a ring. -/
def moved (ring : Ring) (out : Nodes × List Answer) : KvNet :=
  { S with nodes := out.1, links := S.links.produce ring out.2 }

/-- The server client `c` turns to, and its place in the list. -/
def target (c : ℕ) : NodeId := Z.servers.getD ((S.client c).pick Z.servers) 0

/-- The first half of `attempt`: client `c` has a connection to its target. -/
def connected (c : ℕ) : KvNet :=
  if (S.client c).fd ≠ none ∧ (S.client c).connectedTo = S.target Z c then S
  else
    { S with
      links := S.links.connect (Z.nodeId c) (S.target Z c)
      client := Function.update S.client c
        { S.client c with fd := some S.links.dialed, connectedTo := S.target Z c, torn := false } }

/-- The second half of `attempt`, up to the wait for the reply. -/
def sent (c : ℕ) : KvNet :=
  let d := S.client c
  { S with
    links := S.links.write (d.fd.getD 0) (d.request c)
    client := Function.update S.client c
      { d with state := .awaiting (d.pick Z.servers), tried := d.connectedTo :: d.tried } }

/-- `attempt` has returned to `call`; `d` is the client by then. -/
def finished (c : ℕ) (d : KvClient) (idx : ℕ) (reply : Option ClientReply) : KvNet :=
  let out := d.finish (Z.servers.getD idx 0) idx reply
  { S with
    client := Function.update S.client c out.1
    returned := S.returned ++ (out.2.map fun r => ⟨d.request c, r⟩).toList }

/-- Client `c` is at the head of the loop and goes on. -/
def Trying (c : ℕ) : Prop :=
  c ∈ Z.ids ∧ (S.client c).state = .trying ∧ (S.client c).tries < Z.maxAttempts

instance (c : ℕ) : Decidable (Trying Z S c) := by
  unfold Trying
  infer_instance

/-- **One act**, if it can happen. -/
def step : KvAct → Option KvNet
  | .node a =>
      if a.own then (S.nodes.step Z.cluster a).map (S.moved a.ring) else none
  | .receive K =>
      match (S.links.server K.self).inbound with
      | [] => none
      | m :: _ =>
          (S.nodes.step Z.cluster (.request K m.1 m.2)).map
            ({ S with links := S.links.taken K.self }.moved .raftTx)
  | .crash n rng =>
      (S.nodes.step Z.cluster (.crash n rng)).map fun out =>
        { S with nodes := out.1, links := S.links.crash n }
  | .onFrame k => (S.links.onFrame k).map fun l => { S with links := l }
  | .dropFrame k => (S.links.dropFrame k).map fun l => { S with links := l }
  | .noteRoute v => (S.links.noteRoute v).map fun l => { S with links := l }
  | .closeConn k => (S.links.closeConn k).map fun l => { S with links := l }
  | .sendFrame v ring written =>
      (S.links.sendFrame v ring written).map fun l => { S with links := l }
  | .call c command =>
      if c ∈ Z.ids ∧ (S.client c).state = .idle then
        some { S with client := Function.update S.client c ((S.client c).call command) }
      else none
  | .resendLast c =>
      if c ∈ Z.ids ∧ (S.client c).state = .idle then
        some { S with client := Function.update S.client c (S.client c).resendLast }
      else none
  | .setPreferredNode c v =>
      if c ∈ Z.ids ∧ (S.client c).state = .idle then
        some { S with client := Function.update S.client c { S.client c with preferred := v } }
      else none
  | .attempt c => if Trying Z S c then some ((S.connected Z c).sent Z c) else none
  | .attemptFails c =>
      if Trying Z S c then
        some (S.finished Z c (S.client c).dropConnection ((S.client c).pick Z.servers) none)
      else none
  | .unsent c =>
      if Trying Z S c then
        let S := S.connected Z c
        some (S.finished Z c (S.client c) ((S.client c).pick Z.servers) none)
      else none
  | .read c n cut =>
      match (S.client c).state, (S.client c).fd with
      | .awaiting idx, some k =>
          match (S.links.conns k).down with
          | [] => none
          | reply :: rest =>
              if c ∈ Z.ids ∧ (S.client c).torn = false ∧ 1 ≤ n ∧ n ≤ rest.length + 1 then
                some ({ S with links := S.links.read k n }.finished Z c
                  { S.client c with torn := cut } idx (some reply))
              else none
      | _, _ => none
  | .misread c n reply =>
      match (S.client c).state, (S.client c).fd with
      | .awaiting idx, some k =>
          if c ∈ Z.ids ∧ (S.client c).torn = true then
            some ({ S with links := S.links.read k n }.finished Z c (S.client c) idx (some reply))
          else none
      | _, _ => none
  | .noReply c =>
      match (S.client c).state with
      | .awaiting idx =>
          if c ∈ Z.ids then some (S.finished Z c (S.client c).dropConnection idx none) else none
      | _ => none
  | .giveUp c =>
      if c ∈ Z.ids ∧ (S.client c).state = .trying ∧ Z.maxAttempts ≤ (S.client c).tries then
        some { S with client := Function.update S.client c { S.client c with state := .idle } }
      else none

def start : KvNet := ⟨.start Z.cluster Z.batching, {}, fun _ => {}, []⟩

/-- **The states of every run.** -/
inductive Reachable : KvNet → Prop where
  | start : Reachable (start Z)
  | step {S S' : KvNet} (a : KvAct) : Reachable S → S.step Z a = some S' → Reachable S'

end KvNet

end Rsm.Client
