/-
  File:      RaftRsm/Transport/Connections.lean
  Subject:   The connections between clients and nodes, and how a node finds its way back to a client
             (`transport/transport.{h,cpp}`, and the rings of `runtime/node_runtime.cpp` around it).

  A connection carries frames: requests up, replies down. The node assembles the frames of each
  connection over all its reads, so it meets whole ones; a client that does not is modelled with the
  client. On the node, the I/O thread puts a frame it has read into the inbound ring and THEN notes
  that its sender is to be answered on this connection; the Raft thread and the apply thread put their
  replies into a ring each, and the tx thread writes them to wherever the sender of the request was
  noted last. A ring that is full loses what is put into it: on the way in this is `dropFrame`, on the
  way out it is a `sendFrame` that writes nothing.

  The clients' envelope ids are not those of peers, so `sendFrame` always takes the inbound route.
-/
import RaftRsm.Client.Nodes

namespace Rsm.Transport

open Rsm.Rpc Rsm.Client

/-! ## 1. Connections and rings -/

/-- A connection, with what has been written to it and not read yet. Its frames come from `src`;
    `accepted` holds until the node closes it. -/
structure Conn where
  src : NodeId := 0
  server : NodeId := 0
  up : List ClientRequest := []
  down : List ClientReply := []
  accepted : Bool := false
  deriving DecidableEq, Repr

/-- The rings to the tx thread. -/
inductive Ring where
  | raftTx
  | applyTx
  deriving DecidableEq, Repr

/-- The transport of a node; `noting` is where the I/O thread is between the inbound ring and
    `inboundRoutes_`. -/
structure Server where
  inboundRoutes : NodeId → Option ℕ := fun _ => none
  noting : Option (NodeId × ℕ) := none
  inbound : List (NodeId × ClientRequest) := []
  tx : Ring → List (NodeId × ClientReply) := fun _ => []

/-- All connections ever made, by number, and the transports of the nodes. -/
structure Links where
  conns : ℕ → Conn := fun _ => {}
  dialed : ℕ := 0
  server : NodeId → Server := fun _ => {}

namespace Links

variable (l : Links)

def setConn (k : ℕ) (c : Conn) : Links := { l with conns := Function.update l.conns k c }

def setServer (v : NodeId) (s : Server) : Links :=
  { l with server := Function.update l.server v s }

/-! ## 2. The client's end -/

def connect (src server : NodeId) : Links :=
  { l with
    conns := Function.update l.conns l.dialed { src := src, server := server, accepted := true }
    dialed := l.dialed + 1 }

def write (k : ℕ) (req : ClientRequest) : Links :=
  l.setConn k { l.conns k with up := (l.conns k).up ++ [req] }

/-- The first `n` frames are read. -/
def read (k n : ℕ) : Links := l.setConn k { l.conns k with down := (l.conns k).down.drop n }

/-! ## 3. The node's end -/

/-- The I/O thread can turn to the connection. -/
def Readable (k : ℕ) : Prop :=
  k < l.dialed ∧ (l.conns k).accepted = true ∧ (l.server (l.conns k).server).noting = none

instance (k : ℕ) : Decidable (l.Readable k) := by
  unfold Readable
  infer_instance

/-- `enqueueFrame` with the next frame of connection `k`. -/
def onFrame (k : ℕ) : Option Links :=
  match (l.conns k).up with
  | [] => none
  | req :: rest =>
      let c := l.conns k
      let s := l.server c.server
      if l.Readable k then
        some ((l.setConn k { c with up := rest }).setServer c.server
          { s with inbound := s.inbound ++ [(c.src, req)], noting := some (c.src, k) })
      else none

/-- `enqueueFrame` when the inbound ring is full. -/
def dropFrame (k : ℕ) : Option Links :=
  match (l.conns k).up with
  | [] => none
  | _ :: rest =>
      if l.Readable k then some (l.setConn k { l.conns k with up := rest }) else none

/-- The I/O thread notes the route of the frame it has passed on. -/
def noteRoute (v : NodeId) : Option Links :=
  let s := l.server v
  match s.noting with
  | none => none
  | some (src, k) =>
      some (l.setServer v
        { s with inboundRoutes := Function.update s.inboundRoutes src (some k), noting := none })

/-- `closeConn`. -/
def closeConn (k : ℕ) : Option Links :=
  let c := l.conns k
  let s := l.server c.server
  if l.Readable k then
    some ((l.setConn k { c with accepted := false }).setServer c.server
      { s with inboundRoutes := fun u =>
          if s.inboundRoutes u = some k then none else s.inboundRoutes u })
  else none

/-- The Raft thread has taken the first message of the inbound ring. -/
def taken (v : NodeId) : Links :=
  l.setServer v { l.server v with inbound := (l.server v).inbound.tail }

/-- A reply of a node is put into a ring. -/
def produceOne (ring : Ring) (q : Answer) : Links :=
  let s := l.server q.node
  l.setServer q.node
    { s with tx := Function.update s.tx ring (s.tx ring ++ [(q.dest, q.reply)]) }

def produce (ring : Ring) (qs : List Answer) : Links := qs.foldl (produceOne · ring) l

/-- The tx thread takes the next reply of a ring to `sendFrame`, which writes it or not. -/
def sendFrame (v : NodeId) (ring : Ring) (written : Bool) : Option Links :=
  let s := l.server v
  match s.tx ring with
  | [] => none
  | (dest, reply) :: rest =>
      let l := l.setServer v { s with tx := Function.update s.tx ring rest }
      match s.inboundRoutes dest with
      | none => some l
      | some k =>
          if written then
            some (l.setConn k { l.conns k with down := (l.conns k).down ++ [reply] })
          else some l

/-- The node goes down, and its end of every connection with it. -/
def crash (v : NodeId) : Links :=
  { l with
    conns := fun k =>
      if (l.conns k).server = v then { l.conns k with accepted := false } else l.conns k
    server := Function.update l.server v {} }

end Links

end Rsm.Transport
