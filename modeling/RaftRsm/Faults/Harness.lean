/-
  File:      RaftRsm/Faults/Harness.lean
  Subject:   The deterministic harness of a chaos run (`faults/sim_harness.{h,cpp}`): the cores, their
             client services and state machines on one simulated network and one clock, with the monitors.

  A call into a core runs to its end at once. What the core shows on the way (messages, transitions,
  applies) is taken up in order: a message goes to the network, a win and an apply to the monitors, an
  apply to the client service as well. A client request goes to the service, which may call the core
  again. What a new incarnation of a node finds of its term, vote and log is up to the storage factory;
  the default one (`inMemoryStorage`) keeps nothing, the one of a chaos run everything. Left out are the
  trace and endpoints that send while they are delivered to: an endpoint collects what it is handed, and
  clients send between two acts of the driver.

  * `Harness`, `SimOptions`, `StorageFactory` -- the harness and what it is built with;
  * `call`, `serve`, `deliver`, `deliverDue`, `observeStep`, `stepMs` -- one virtual millisecond;
  * `Driver`, `act`, `drive` -- what the driver of a run may do, in any order.
-/
import RaftRsm.Faults.Watching
import RaftRsm.Faults.SimNetwork
import RaftRsm.Client.Service

namespace Rsm.Sim

open Rsm.Rpc Rsm.Raft Rsm.Client Rsm.Storage

/-! ## 1. The harness -/

/-- What the persistent state and the log of a node hold. -/
structure StoragePair where
  currentTerm : ℕ := 0
  votedFor : Option NodeId := none
  log : InMemoryLog := []

/-- The storage of a node's incarnation, from what the incarnation before has left. -/
abbrev StorageFactory := NodeId → ℕ → StoragePair → StoragePair

/-- Every incarnation starts from nothing. -/
def inMemoryStorage : StorageFactory := fun _ _ _ => {}

/-- The node's directory is opened again. -/
def durableStorage : StorageFactory := fun _ _ left => left

/-- A state machine, as the factory makes it: where it starts and what a command does. -/
structure Machine (M : Type) where
  init : M
  apply : M → Bytes → M × Bytes

/-- The machine after some commands. -/
def Machine.after {M : Type} (A : Machine M) (cmds : List Bytes) : M :=
  cmds.foldl (fun m c => (A.apply m c).1) A.init

/-- Node ids are 1, …, the number of configurations; `rng` is the generator of a node's core in one
    incarnation, `netRng` that of the network. -/
structure SimOptions where
  raft : List RaftConfig
  rng : NodeId → ℕ → ℕ → ℕ := fun _ _ _ => 0
  netRng : ℕ → ℕ := fun _ => 0
  logMatchingEveryMs : ℕ := 25
  storage : StorageFactory := inMemoryStorage

namespace SimOptions

variable (O : SimOptions)

def ids : List NodeId := List.range' 1 O.raft.length

def peers (id : NodeId) : List NodeId := O.ids.filter (· ≠ id)

/-- **Storage that survives**: a new incarnation finds what the one before has left. -/
def Keeps : Prop := ∀ id incarnation left, O.storage id incarnation left = left

end SimOptions

structure NodeRt (M : Type) where
  incarnation : ℕ := 0
  alive : Bool := true
  core : RaftCore
  service : ClientService := {}
  sm : M

/-- A node over its storage; `old` is the core of its last incarnation. -/
def buildNode {M : Type} (A : Machine M) (O : SimOptions) (id : NodeId) (incarnation : ℕ) (old : RaftCore) :
    NodeRt M :=
  let pair := O.storage id incarnation ⟨old.currentTerm, old.votedFor, old.log⟩
  { incarnation
    core := { old.restart (O.rng id incarnation) with
      currentTerm := pair.currentTerm, votedFor := pair.votedFor, log := pair.log }
    sm := A.init }

structure Harness (M : Type) where
  nodes : NodeId → NodeRt M
  net : SimNetwork
  now : ℕ := 0
  endpoints : List (NodeId × NodeId) := []
  /-- What the endpoints have been handed. -/
  inbox : List Wire := []
  electionSafety : ElectionSafetyChecker := {}
  appendOnly : LeaderAppendOnlyChecker := {}
  applied : AppliedConsistencyChecker := {}
  commit : CommitChecker := {}
  sweepViolations : List String := []
  lastLogMatchingMs : ℕ := 0

namespace Harness

variable {M : Type} (A : Machine M) (O : SimOptions) (h : Harness M)

def setNode (id : NodeId) (node : NodeRt M) : Harness M := { h with nodes := Function.update h.nodes id node }

/-- What a call at `id` finds around the core. -/
def ctx (id : NodeId) : Ctx :=
  { self := id, peers := O.peers id, cfg := O.raft.getD (id - 1) {}, now := h.now }

/-! ## 2. Calls -/

/-- Replies of the service at `id` go to the network. -/
def sendReplies (id : NodeId) (replies : List (NodeId × ClientReply)) : Harness M :=
  replies.foldl (fun h q => { h with net := h.net.send id q.1 (.clientReply q.2) h.now }) h

/-- The service at `id` has changed, and replies. -/
def answer (id : NodeId) (out : ClientService × List (NodeId × ClientReply)) : Harness M :=
  (h.setNode id { h.nodes id with service := out.1 }).sendReplies id out.2

/-- The apply observer: the machine applies, the monitor looks, the service may reply. -/
def onApply (id : NodeId) (index : ℕ) (entry : LogEntry) : Harness M :=
  let node := h.nodes id
  let m := A.apply node.sm entry.command
  let h := { h.setNode id { node with sm := m.1 } with
    applied := h.applied.observeApply id index (entryImage entry) (fnv1a m.2) }
  h.answer id (node.service.onApplied id index entry m.2)

/-- What the core of `id` has shown is taken up; a client request is for `serve`. -/
def observe (id : NodeId) : Output → Harness M
  | .send dest m => { h with net := h.net.send id dest m h.now }
  | .transition term role _ log =>
      if role = .leader then
        { h with
          electionSafety := h.electionSafety.observeLeader term id
          commit := h.commit.observeElectionWin id term (logImage log) }
      else h
  | .apply index entry => h.onApply A id index entry
  | _ => h

/-- One call into the core of `id`. -/
def call (id : NodeId) (i : Input) : Harness M :=
  let node := h.nodes id
  let core := (step (h.ctx O id) i).final node.core
  (core.out.drop node.core.out.length).foldl (fun h o => h.observe A id o)
    (h.setNode id { node with core := core })

/-- The client service at `id` gets a request. -/
def serve (id src : NodeId) (req : ClientRequest) : Harness M :=
  let node := h.nodes id
  let K := h.ctx O id
  let out := node.service.onClientRequest node.core src req
  let h := h.setNode id { node with service := out.1 }
  match out.2 with
  | .done => h
  | .reply r => h.sendReplies id [(src, r)]
  | .propose =>
      let index := (propose K req.command).value node.core
      let h := h.call A O id (.propose req.command)
      h.answer id ((h.nodes id).service.proposed src req index)
  | .flushBatch =>
      let first := (proposeBatch K out.1.flushScratch).value node.core
      let h := h.call A O id (.proposeBatch out.1.flushScratch)
      h.answer id ((h.nodes id).service.flushed (h.nodes id).core first)

/-- A message arrives: at a node that lives, or at the endpoint that covers its address. -/
def deliver (f : Wire) : Harness M :=
  if f.dest ∈ O.ids then
    if (h.nodes f.dest).alive then
      let h := h.call A O f.dest (.handle f.sender f.msg)
      match f.msg with
      | .clientRequest req => h.serve A O f.dest f.sender req
      | _ => h
    else h
  else if h.endpoints.any fun ep => ep.1 ≤ f.dest && f.dest ≤ ep.2 then { h with inbox := h.inbox ++ [f] }
  else h

/-! ## 3. One virtual millisecond -/

/-- The first message of the queue is taken out; across a partition it is dropped. -/
def deliverFirst (f : InFlight) (rest : List InFlight) : Harness M :=
  let h := { h with net := { h.net with queue := rest } }
  if h.net.sameSide f.wire.sender f.wire.dest then h.deliver A O f.wire else h

/-- `deliverDue`, with a bound on the number of messages; `none` if the bound is too low. -/
def deliverDue : ℕ → Harness M → Option (Harness M)
  | fuel, h =>
      match h.net.queue with
      | [] => some h
      | f :: rest =>
          if f.deliverAt ≤ h.now then
            match fuel with
            | 0 => none
            | k + 1 => deliverDue k (h.deliverFirst A O f rest)
          else some h

def tickAll : Harness M := O.ids.foldl (fun h id => if (h.nodes id).alive then h.call A O id .tick else h) h

/-- The append-only and the commit monitor look at a node. -/
def look (id : NodeId) : Harness M :=
  let core := (h.nodes id).core
  if (h.nodes id).alive then
    { h with
      appendOnly := h.appendOnly.observe id (core.role = .leader) core.currentTerm (logImage core.log)
      commit := h.commit.observeCommit id core.commitIndex (logImage core.log) }
  else h

/-- The logs of the nodes that live. -/
def logs : Std.ExtTreeMap NodeId LogImage :=
  O.ids.foldl (fun m id => if (h.nodes id).alive then m.insert id (logImage (h.nodes id).core.log) else m) ∅

def finalCheck : Harness M := { h with sweepViolations := h.sweepViolations ++ checkLogMatching (h.logs O) }

def observeStep : Harness M :=
  let h := O.ids.foldl look h
  if h.now - h.lastLogMatchingMs ≥ O.logMatchingEveryMs then
    { h with lastLogMatchingMs := h.now }.finalCheck O
  else h

def stepMs (fuel : ℕ) : Option (Harness M) :=
  (deliverDue A O fuel ({ h with now := h.now + 1 }.tickAll A O)).map (observeStep O)

/-! ## 4. Nodes that stop and start -/

def crash (id : NodeId) : Harness M := h.setNode id { h.nodes id with alive := false }

/-- A new core, a new service and a new machine. -/
def restart (id : NodeId) : Harness M :=
  let node := h.nodes id
  if node.alive then h
  else (h.setNode id (buildNode A O id (node.incarnation + 1) node.core)).call A O id .start

/-- The last of the live leaders of the highest term. -/
def leaderToKill : Option NodeId :=
  (O.ids.foldl (fun (best : ℕ × Option NodeId) id =>
    let core := (h.nodes id).core
    if (h.nodes id).alive ∧ core.role = .leader ∧ core.currentTerm ≥ best.1 then (core.currentTerm, some id)
    else best) (0, none)).2

def killLeader : Harness M :=
  match h.leaderToKill O with
  | none => h
  | some id => h.crash id

def deadNodes : List NodeId := O.ids.filter fun id => !(h.nodes id).alive

/-! ## 5. What a driver asks -/

def liveLeaders : List NodeId := O.ids.filter fun id => (h.nodes id).alive && (h.nodes id).core.role = .leader

/-- One live leader, and every other node that lives follows it in its term. -/
def converged : Bool :=
  match h.liveLeaders O with
  | [l] => O.ids.all fun id => !(h.nodes id).alive || id == l ||
      ((h.nodes id).core.role = .follower && (h.nodes id).core.currentTerm == (h.nodes l).core.currentTerm &&
        (h.nodes id).core.leaderId == some l)
  | _ => false

/-- Converged, everyone lives, and all logs are the same and fully applied. -/
def quiescent : Bool :=
  h.converged O &&
    match h.liveLeaders O with
    | l :: _ => O.ids.all fun id => (h.nodes id).alive &&
        (h.nodes id).core.commitIndex == (h.nodes l).core.commitIndex &&
        (h.nodes id).core.lastApplied == (h.nodes id).core.commitIndex &&
        (h.nodes id).core.log.lastIndex == (h.nodes l).core.log.lastIndex &&
        logImage (h.nodes id).core.log == logImage (h.nodes l).core.log
    | [] => false

def violations : List String :=
  h.electionSafety.violations ++ h.appendOnly.violations ++ h.applied.violations ++ h.commit.violations ++
    h.sweepViolations

/-! ## 6. Runs -/

/-- The harness as constructed, before any core has been started. -/
def built : Harness M where
  nodes id := buildNode A O id 0 {}
  net := { rng := O.netRng, cluster := O.ids }

def start : Harness M := O.ids.foldl (fun h id => h.call A O id .start) (built A O)

end Harness

/-- A setting of the network. -/
inductive Control where
  | setDrop (probability : ℚ)
  | setLatency (min max : ℕ)
  | setReorder (probability : ℚ) (extraMax : ℕ)
  | partition (groups : List (List NodeId))
  | isolate (id : NodeId)
  | heal

def SimNetwork.control (net : SimNetwork) : Control → SimNetwork
  | .setDrop p => net.setDrop p
  | .setLatency min max => net.setLatency min max
  | .setReorder p extraMax => net.setReorder p extraMax
  | .partition groups => net.partition groups
  | .isolate id => net.isolate id
  | .heal => net.heal

/-- What the driver of a run does. -/
inductive Driver where
  | crash (id : NodeId)
  | restart (id : NodeId)
  | killLeader
  | control (c : Control)
  | registerEndpoint (low high : NodeId)
  | clientSend (fromClient toNode : NodeId) (req : ClientRequest)
  | stepMs (fuel : ℕ)
  | finalCheck

namespace Harness

variable {M : Type} (A : Machine M) (O : SimOptions)

/-- One act of the driver; `none` for a node that does not exist, or a bound that is too low. -/
def act (h : Harness M) : Driver → Option (Harness M)
  | .crash id => if id ∈ O.ids then some (h.crash id) else none
  | .restart id => if id ∈ O.ids then some (h.restart A O id) else none
  | .killLeader => some (h.killLeader O)
  | .control c => some { h with net := h.net.control c }
  | .registerEndpoint low high => some { h with endpoints := h.endpoints ++ [(low, high)] }
  | .clientSend fromClient toNode req =>
      some { h with net := h.net.send fromClient toNode (.clientRequest req) h.now }
  | .stepMs fuel => h.stepMs A O fuel
  | .finalCheck => some (h.finalCheck O)

def drive (h : Harness M) (acts : List Driver) : Option (Harness M) := acts.foldlM (act A O) h

end Harness

end Rsm.Sim
