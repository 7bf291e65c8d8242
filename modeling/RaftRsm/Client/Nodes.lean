/-
  File:      RaftRsm/Client/Nodes.lean
  Subject:   THE NODES OF A REPLICATED STORE: on every node a Raft core, the client service on top of
             it and the state machine below it, with their threads.

  The Raft thread runs one call at a time: a call of the runtime into the core, or a client request
  through the service, which may call `propose` or `proposeBatch` in turn and goes on when that has
  returned. The apply thread takes what the core has handed over, in order, and tells the service.
  The two interleave freely, and a node may crash at any moment; a restart finds the disk, an empty
  state machine and a new service. In the runtime without an apply thread the entries are applied
  inside the core's call, which is one of these interleavings.

  * `Nodes`, `Act`, `step` -- the nodes and what they do; `step` returns the replies it sends;
  * `Good P A S` -- what the nodes know was asked (in the sense of `A`), the commands in the logs are
    of `P`, and the state machines are where the log takes them;
  * `good_step` -- every act keeps this, and an OK reply carries what the state machine returned for
    an entry with the identity of the request it answers.
-/
import RaftRsm.Client.Service
import RaftRsm.Raft.AppliedLog
import RaftRsm.StateMachine.KvStore

namespace Rsm.Client

open Rsm.Rpc Rsm.Raft Rsm.StateMachine Process

/-! ## 1. The nodes -/

/-- A well-formed command begins with the prefix the service reads. -/
theorem decodePrefix_of_parse {cmd : Bytes} {q : KvCommand} (h : parse cmd = some q) :
    decodePrefix cmd = some (q.clientId, q.seqNo) := by
  unfold parse at h
  dsimp only at h
  split_ifs at h with hok
  rw [Bool.not_eq_true', Bool.not_eq_false] at hok
  -- three reads in bounds
  obtain ⟨hok2, -, -⟩ := Reader.uint_of_ok hok
  obtain ⟨hok1, hlen2, -⟩ := Reader.uint_of_ok hok2
  obtain ⟨-, hlen1, hrest⟩ := Reader.uint_of_ok hok1
  have hlen : ¬ cmd.length < kSessionPrefixSize := by
    have hlen2 : 8 ≤ (Reader.uint 8 ⟨cmd, true⟩).2.rest.length := hlen2
    rw [hrest, List.length_drop] at hlen2
    unfold kSessionPrefixSize
    dsimp only at hlen2
    omega
  unfold decodePrefix
  dsimp only
  rw [if_neg hlen, if_pos hok2]
  split at h
  · cases h
  · split at h
    · cases h
    · split at h
      · cases h
      · split at h
        · cases h
        · split_ifs at h
          cases h
          rfl

/-- Where the Raft thread of a node is. -/
inductive Phase where
  /-- between two calls -/
  | loop
  /-- in `handle`, with a request that goes to the service -/
  | request (src : NodeId) (req : ClientRequest)
  /-- in `onClientRequest`, at `core_.propose`, which returns `index` -/
  | proposing (src : NodeId) (req : ClientRequest) (index : Option ℕ)
  /-- in `flushBatch`, at `core_.proposeBatch`, which returns `first` -/
  | flushing (first : Option ℕ)
  deriving DecidableEq

/-- The sender of the request the Raft thread is at. -/
def Phase.sender : Phase → Option NodeId
  | .loop => none
  | .request src _ => some src
  | .proposing src _ _ => some src
  | .flushing _ => none

/-- What a node has besides its core; `applied` counts what its apply thread has taken. -/
structure Node where
  svc : ClientService := {}
  phase : Phase := .loop
  machine : KVStateMachine := {}
  applied : ℕ := 0

structure Nodes where
  world : Cluster.World
  node : NodeId → Node

/-- A reply on its way from a node. -/
structure Answer where
  node : NodeId
  dest : NodeId
  reply : ClientReply
  deriving DecidableEq, Repr

/-- What can happen at a node. -/
inductive Act where
  /-- The runtime calls into the core. -/
  | call (K : Ctx) (i : Input)
  /-- The call that runs reaches its next moment. -/
  | advance (n : NodeId)
  | crash (n : NodeId) (rng : ℕ → ℕ)
  /-- A client request reaches `handle`. -/
  | request (K : Ctx) (src : NodeId) (req : ClientRequest)
  /-- The service gets it. -/
  | serve (K : Ctx)
  /-- A proposal has returned to the service. -/
  | returned (n : NodeId)
  | flushIfDue (K : Ctx)
  /-- The apply thread takes the next entry. -/
  | apply (n : NodeId)

/-- The calls the runtime makes on its own: everything but proposals and client messages. -/
def internal : Input → Bool
  | .start => true
  | .tick => true
  | .handle _ m => (termOf m).isSome
  | .propose _ => false
  | .proposeBatch _ => false
  | .pumpApply => true

namespace Nodes

variable (C : Cluster) (S : Nodes)

/-- The core of `K` is between two calls. -/
def Ready (K : Ctx) : Prop := K.self ∈ C.ids ∧ K.peers = C.peers K.self ∧ (S.world K.self).todo = []

instance (K : Ctx) : Decidable (Ready C S K) := by
  unfold Ready
  infer_instance

/-- The world in which a call has begun. -/
def begun (K : Ctx) (i : Input) : Cluster.World :=
  Function.update S.world K.self ⟨S.world.cur K.self, (Raft.step K i).moments (S.world.cur K.self)⟩

/-- The nodes with another `d` at `n`. -/
def set (n : NodeId) (d : Node) : NodeId → Node := Function.update S.node n d

/-- `flushBatch` up to its proposal; `svc` is the service of the node. -/
def flushing (K : Ctx) (svc : ClientService) : Nodes :=
  { world := S.begun K (.proposeBatch svc.flushScratch)
    node := S.set K.self { S.node K.self with
      svc := svc
      phase := .flushing ((proposeBatch K svc.flushScratch).value (S.world.cur K.self)) } }

/-- `onClientRequest` up to its end, or to the proposal it makes. -/
def served (K : Ctx) (src : NodeId) (req : ClientRequest) : Nodes × List Answer :=
  let d := S.node K.self
  let core := S.world.cur K.self
  match d.svc.onClientRequest core src req with
  | (svc, .done) => ({ S with node := S.set K.self { d with svc := svc, phase := .loop } }, [])
  | (svc, .reply r) =>
      ({ S with node := S.set K.self { d with svc := svc, phase := .loop } }, [⟨K.self, src, r⟩])
  | (svc, .propose) =>
      ({ world := S.begun K (.propose req.command)
         node := S.set K.self { d with
           svc := svc
           phase := .proposing src req ((propose K req.command).value core) } }, [])
  | (svc, .flushBatch) => (S.flushing K svc, [])

/-- The service goes on after a proposal. -/
def resumed (n : NodeId) (out : ClientService × List (NodeId × ClientReply)) :
    Nodes × List Answer :=
  ({ S with node := S.set n { S.node n with svc := out.1, phase := .loop } },
    out.2.map fun q => ⟨n, q.1, q.2⟩)

/-- The apply thread applies `entry` and tells the service. -/
def applied (n : NodeId) (entry : LogEntry) : Nodes × List Answer :=
  let d := S.node n
  let m := d.machine.apply entry.command
  let out := d.svc.onApplied n (d.applied + 1) entry m.2
  ({ S with node := S.set n { d with svc := out.1, machine := m.1, applied := d.applied + 1 } },
    out.2.map fun q => ⟨n, q.1, q.2⟩)

/-- **One act**, if it can happen, with the replies it sends. -/
def step : Act → Option (Nodes × List Answer)
  | .call K i =>
      if Ready C S K ∧ (S.node K.self).phase = .loop ∧ internal i ∧ C.Allowed S.world.cur K.self i
      then some ({ S with world := S.begun K i }, []) else none
  | .advance n =>
      match (S.world n).todo with
      | [] => none
      | t :: l => some ({ S with world := Function.update S.world n ⟨t, l⟩ }, [])
  | .crash n rng =>
      if n ∈ C.ids then
        some ({ world := Function.update S.world n ⟨(S.world.cur n).restart rng, []⟩
                node := S.set n { svc := { batching := (S.node n).svc.batching } } }, [])
      else none
  | .request K src req =>
      if Ready C S K ∧ (S.node K.self).phase = .loop ∧ K.hasClientHandler then
        some ({ world := S.begun K (.handle src (.clientRequest req))
                node := S.set K.self { S.node K.self with phase := .request src req } }, [])
      else none
  | .serve K =>
      match (S.node K.self).phase with
      | .request src req => if Ready C S K then some (S.served K src req) else none
      | _ => none
  | .returned n =>
      if (S.world n).todo = [] then
        match (S.node n).phase with
        | .proposing src req index => some (S.resumed n ((S.node n).svc.proposed src req index))
        | .flushing first => some (S.resumed n ((S.node n).svc.flushed (S.world.cur n) first))
        | _ => none
      else none
  | .flushIfDue K =>
      if Ready C S K ∧ (S.node K.self).phase = .loop then
        match (S.node K.self).svc.flushIfDue K.now with
        | (svc, .flushBatch) => some (S.flushing K svc, [])
        | (svc, _) => some ({ S with node := S.set K.self { S.node K.self with svc := svc } }, [])
      else none
  | .apply n =>
      if n ∈ C.ids then
        match (S.world.cur n).sm[(S.node n).applied]? with
        | none => none
        | some entry => some (S.applied n entry)
      else none

/-- **What an act finds and does**, where it can happen. -/
inductive Stepped (C : Cluster) (S : Nodes) : Act → Nodes × List Answer → Prop where
  | call (K : Ctx) (i : Input) (hK : Ready C S K) (hp : (S.node K.self).phase = .loop) (hi : internal i)
      (ha : C.Allowed S.world.cur K.self i) : Stepped C S (.call K i) ({ S with world := S.begun K i }, [])
  | advance (n : NodeId) (t : RaftCore) (l : List RaftCore) (ht : (S.world n).todo = t :: l) :
      Stepped C S (.advance n) ({ S with world := Function.update S.world n ⟨t, l⟩ }, [])
  | crash (n : NodeId) (rng : ℕ → ℕ) (hn : n ∈ C.ids) :
      Stepped C S (.crash n rng) ({
        world := Function.update S.world n ⟨(S.world.cur n).restart rng, []⟩
        node := S.set n { svc := { batching := (S.node n).svc.batching } } }, [])
  | request (K : Ctx) (src : NodeId) (req : ClientRequest) (hK : Ready C S K)
      (hp : (S.node K.self).phase = .loop) :
      Stepped C S (.request K src req) ({
        world := S.begun K (.handle src (.clientRequest req))
        node := S.set K.self { S.node K.self with phase := .request src req } }, [])
  | serve (K : Ctx) (src : NodeId) (req : ClientRequest) (hK : Ready C S K)
      (hp : (S.node K.self).phase = .request src req) : Stepped C S (.serve K) (S.served K src req)
  | proposed (n : NodeId) (src : NodeId) (req : ClientRequest) (index : Option ℕ)
      (hp : (S.node n).phase = .proposing src req index) :
      Stepped C S (.returned n) (S.resumed n ((S.node n).svc.proposed src req index))
  | flushed (n : NodeId) (first : Option ℕ) (hp : (S.node n).phase = .flushing first) :
      Stepped C S (.returned n) (S.resumed n ((S.node n).svc.flushed (S.world.cur n) first))
  | flush (K : Ctx) (svc : ClientService) (hK : Ready C S K) (hp : (S.node K.self).phase = .loop)
      (he : (S.node K.self).svc.flushIfDue K.now = (svc, .flushBatch)) :
      Stepped C S (.flushIfDue K) (S.flushing K svc, [])
  | wait (K : Ctx) (svc : ClientService) (next : Next) (hK : Ready C S K)
      (hp : (S.node K.self).phase = .loop) (he : (S.node K.self).svc.flushIfDue K.now = (svc, next))
      (hn : next ≠ .flushBatch) :
      Stepped C S (.flushIfDue K) ({ S with node := S.set K.self { S.node K.self with svc := svc } }, [])
  | apply (n : NodeId) (entry : LogEntry) (hn : n ∈ C.ids)
      (he : (S.world.cur n).sm[(S.node n).applied]? = some entry) : Stepped C S (.apply n) (S.applied n entry)

variable {C S} in
theorem stepped {a : Act} {out : Nodes × List Answer} (hs : step C S a = some out) : Stepped C S a out := by
  cases a with
  | call K i =>
      dsimp only [step] at hs
      split_ifs at hs with hc
      cases hs
      exact .call K i hc.1 hc.2.1 hc.2.2.1 hc.2.2.2
  | advance n =>
      dsimp only [step] at hs
      split at hs
      · cases hs
      · rename_i t l ht
        cases hs
        exact .advance n t l ht
  | crash n rng =>
      dsimp only [step] at hs
      split_ifs at hs with hn
      cases hs
      exact .crash n rng hn
  | request K src req =>
      dsimp only [step] at hs
      split_ifs at hs with hc
      cases hs
      exact .request K src req hc.1 hc.2.1
  | serve K =>
      dsimp only [step] at hs
      split at hs
      · rename_i src req hp
        split_ifs at hs with hK
        cases hs
        exact .serve K src req hK hp
      · cases hs
  | returned n =>
      dsimp only [step] at hs
      split_ifs at hs
      split at hs
      · rename_i src req index hp
        cases hs
        exact .proposed n src req index hp
      · rename_i first hp
        cases hs
        exact .flushed n first hp
      · cases hs
  | flushIfDue K =>
      dsimp only [step] at hs
      split_ifs at hs with hc
      split at hs
      · rename_i svc he
        cases hs
        exact .flush K svc hc.1 hc.2 he
      · rename_i svc next hn he
        cases hs
        exact .wait K svc next hc.1 hc.2 he hn
  | apply n =>
      dsimp only [step] at hs
      split_ifs at hs with hn
      split at hs
      · cases hs
      · rename_i entry he
        cases hs
        exact .apply n entry hn he

/-- A whole call: it begins and reaches its end, if it has at most 8 moments. -/
def callAll (K : Ctx) (i : Input) : List Act := .call K i :: List.replicate 8 (.advance K.self)

/-- A client request from `handle` on to the end of what the service does with it. -/
def serveAll (K : Ctx) : List Act :=
  List.replicate 8 (.advance K.self) ++ .serve K :: List.replicate 8 (.advance K.self) ++
    [.returned K.self]

/-- The nodes at the start; each has its own batching. -/
def start (b : NodeId → Batching) : Nodes :=
  ⟨C.system.start, fun n => { svc := { batching := b n } }⟩

end Nodes

/-! ## 2. What holds of the nodes -/

section Good

/-- The request the Raft thread is at was asked. -/
def Phase.Asked (A : NodeId → ClientRequest → Prop) : Phase → Prop
  | .loop => True
  | .request src req => A src req
  | .proposing src req _ => A src req
  | .flushing _ => True

/-- **A node knows only what was asked of it**, and its state machine is where the entries that were
    taken lead. -/
structure Node.Good (A : NodeId → ClientRequest → Prop) (core : RaftCore) (d : Node) : Prop where
  asked : Asked A d.svc
  phase : d.phase.Asked A
  le : d.applied ≤ core.sm.length
  machine : d.machine = KVStateMachine.after ((core.sm.take d.applied).map LogEntry.command)

/-- **All nodes**: `A n src req` says that `src` has asked `req` of node `n`, and the commands in the
    logs are of `P`. -/
structure Good (C : Cluster) (P : Bytes → Prop) (A : NodeId → NodeId → ClientRequest → Prop)
    (S : Nodes) : Prop where
  reachable : C.system.Reachable S.world
  sourced : Cluster.Sourced P S.world
  node : ∀ n, (S.node n).Good (A n) (S.world.cur n)

variable {C : Cluster} {P P' : Bytes → Prop} {A A' : NodeId → NodeId → ClientRequest → Prop}
  {S S' : Nodes} {n : NodeId} {K : Ctx} {i : Input} {d : Node}

/-- What is asked, and carries its identity, is of `P`. -/
def Carried (P : Bytes → Prop) (A : NodeId → NodeId → ClientRequest → Prop) : Prop :=
  ∀ n src req, A n src req → decodePrefix req.command = some (req.clientId, req.seqNo) →
    P req.command

theorem Phase.Asked.mono {B B' : NodeId → ClientRequest → Prop} {p : Phase} (h : p.Asked B)
    (hB : ∀ m r, B m r → B' m r) : p.Asked B' := by
  cases p with
  | loop => trivial
  | request src req => exact hB _ _ h
  | proposing src req i => exact hB _ _ h
  | flushing first => trivial

theorem Good.mono (h : Good C P A S) (hP : ∀ b, P b → P' b) (hA : ∀ n m r, A n m r → A' n m r) :
    Good C P' A' S where
  reachable := h.reachable
  sourced := h.sourced.mono hP
  node n := ⟨(h.node n).asked.mono (hA n), (h.node n).phase.mono (hA n), (h.node n).le,
    (h.node n).machine⟩

/-- What is not from `u` at `v` is all that counts if nothing is from `u` at `v`. -/
theorem Good.narrow (h : Good C P A S) {u v : NodeId}
    (hA : ∀ n m r, ¬ (n = v ∧ m = u) → A n m r → A' n m r)
    (hphase : (S.node v).phase.sender ≠ some u)
    (hpend : ∀ k, ((S.node v).svc.pending.slots k).used = true →
      ((S.node v).svc.pending.slots k).p.replyTo ≠ u)
    (hbuf : ∀ b ∈ (S.node v).svc.buffer, b.src ≠ u) : Good C P A' S where
  reachable := h.reachable
  sourced := h.sourced
  node n := by
    have hd := h.node n
    by_cases hn : n = v
    · subst hn
      have hA' : ∀ m r, m ≠ u → A n m r → A' n m r := fun m r hm => hA n m r fun hx => hm hx.2
      refine ⟨hd.asked.narrow hA' hpend hbuf, ?_, hd.le, hd.machine⟩
      have hp := hd.phase
      cases hph : (S.node n).phase with
      | loop => trivial
      | request src req =>
          rw [hph] at hp hphase
          exact hA' _ _ (fun hs => hphase (congrArg some hs)) hp
      | proposing src req i =>
          rw [hph] at hp hphase
          exact hA' _ _ (fun hs => hphase (congrArg some hs)) hp
      | flushing first => trivial
    · have hA' : ∀ m r, A n m r → A' n m r := fun m r => hA n m r fun hx => hn hx.1
      exact ⟨hd.asked.mono hA', hd.phase.mono hA', hd.le, hd.machine⟩

theorem Node.good_init (B : NodeId → ClientRequest → Prop) (core : RaftCore) (b : Batching) :
    Node.Good B core { svc := { batching := b } } :=
  ⟨asked_init b, trivial, Nat.zero_le _, rfl⟩

theorem good_start (C : Cluster) (b : NodeId → Batching) : Good C P A (Nodes.start C b) where
  reachable := .refl
  sourced := Cluster.sourced_start _
  node n := Node.good_init _ _ (b n)

/-- The state machine's history may grow. -/
theorem Node.Good.grow {B : NodeId → ClientRequest → Prop} {core core' : RaftCore}
    (h : d.Good B core) (hsm : core.sm <+: core'.sm) : d.Good B core' := by
  obtain ⟨l, hl⟩ := hsm
  refine ⟨h.asked, h.phase, ?_, ?_⟩
  · rw [← hl, List.length_append]
    exact Nat.le_add_right_of_le h.le
  · rw [← hl, List.take_append_of_le_length h.le]
    exact h.machine

/-- A node changes. -/
theorem Good.set (h : Good C P A S) (hd : d.Good (A n) (S.world.cur n)) :
    Good C P A { S with node := S.set n d } where
  reachable := h.reachable
  sourced := h.sourced
  node := (Function.forall_update_iff S.node fun m d => d.Good (A m) (S.world.cur m)).mpr
    ⟨hd, fun m _ => h.node m⟩

/-- A call begins. -/
theorem Good.begun (h : Good C P A S) (hK : Nodes.Ready C S K)
    (ha : C.Allowed S.world.cur K.self i) (hi : i.Brings P) :
    Good C P A { S with world := S.begun K i } where
  reachable := h.reachable.tail ⟨K.self, .live _ _ _ (.begin _ _ _ hK.2.2
    ⟨hK.1, K, i, rfl, hK.2.1, ha, rfl⟩)⟩
  sourced := h.sourced.begin hK.2.2 hi
  node m := by
    unfold Nodes.begun
    by_cases hm : m = K.self
    · subst hm
      rw [World.cur_update_self]
      exact h.node K.self
    · rw [World.cur_update_of_ne hm]
      exact h.node m

/-- A call reaches its next moment. -/
theorem Good.advance (h : Good C P A S) {t : RaftCore} {l : List RaftCore}
    (ht : (S.world n).todo = t :: l) :
    Good C P A { S with world := Function.update S.world n ⟨t, l⟩ } where
  reachable := h.reachable.tail ⟨n, .live _ _ _ (.advance _ _ _ _ ht)⟩
  sourced := (h.sourced.advance ht).1
  node m := by
    by_cases hm : m = n
    · subst hm
      rw [World.cur_update_self]
      exact (h.node m).grow (h.sourced.advance ht).2.sm
    · rw [World.cur_update_of_ne hm]
      exact h.node m

/-- A node crashes and restarts. -/
theorem Good.crash (h : Good C P A S) (hn : n ∈ C.ids) (rng : ℕ → ℕ) (b : Batching) :
    Good C P A { world := Function.update S.world n ⟨(S.world.cur n).restart rng, []⟩
                 node := S.set n { svc := { batching := b } } } where
  reachable := h.reachable.tail ⟨n, .crash _ _ _ ⟨hn, rng, rfl⟩⟩
  sourced := h.sourced.crash rng
  node := by
    refine (Function.forall_update_iff S.node fun m d => d.Good (A m) _).mpr
      ⟨Node.good_init _ _ b, fun m hm => ?_⟩
    rw [World.cur_update_of_ne hm]
    exact h.node m

/-- The reply is what the state machine returned for an entry with the identity of a request that
    its receiver has asked. -/
def Answer.Right (C : Cluster) (A : NodeId → NodeId → ClientRequest → Prop) (w : Cluster.World)
    (q : Answer) : Prop :=
  ∃ req, A q.node q.dest req ∧ ∃ G e, C.Handed w (G ++ [e]) ∧
    decodePrefix e.command = some (req.clientId, req.seqNo) ∧
    q.reply.result = ((KVStateMachine.after (G.map LogEntry.command)).apply e.command).2

theorem Answer.Right.mono {q : Answer} {w w' : Cluster.World} (h : q.Right C A w)
    (hA : ∀ n m r, A n m r → A' n m r) (hw : Cluster.Longer w w') : q.Right C A' w' := by
  obtain ⟨req, hask, G, e, hG, hrest⟩ := h
  exact ⟨req, hA _ _ _ hask, G, e, hG.mono hw, hrest⟩

/-- What an act leads to. -/
structure Fine (C : Cluster) (P : Bytes → Prop) (A : NodeId → NodeId → ClientRequest → Prop)
    (S : Nodes) (out : Nodes × List Answer) : Prop where
  good : Good C P A out.1
  longer : Cluster.Longer S.world out.1.world
  answers : ∀ q ∈ out.2, q.reply.status = .ok → q.Right C A out.1.world

/-- No reply is sent. -/
theorem Fine.silent (h : Good C P A S') (hw : Cluster.Longer S.world S'.world) :
    Fine C P A S (S', []) :=
  ⟨h, hw, fun _ hq => (List.not_mem_nil hq).elim⟩

theorem longer_begun (S : Nodes) (K : Ctx) (i : Input) : Cluster.Longer S.world (S.begun K i) :=
  Cluster.Longer.update List.prefix_rfl

theorem fine_flushing (h : Good C P A S) (hP : Carried P A) (hK : Nodes.Ready C S K) {svc : ClientService}
    (hs : Asked (A K.self) svc) : Fine C P A S (S.flushing K svc, []) := by
  have hd := h.node K.self
  have hset := h.set (n := K.self) (d := { S.node K.self with
      svc := svc
      phase := .flushing ((proposeBatch K svc.flushScratch).value (S.world.cur K.self)) })
    ⟨hs, trivial, hd.le, hd.machine⟩
  refine Fine.silent (hset.begun hK trivial fun c hc => ?_) (longer_begun S K _)
  obtain ⟨b, hb, rfl⟩ := List.mem_map.mp hc
  obtain ⟨hask, hid⟩ := hs.buffer b hb
  exact hP K.self b.src ⟨b.clientId, b.seqNo, b.command⟩ hask hid

theorem fine_served (h : Good C P A S) (hP : Carried P A) (hK : Nodes.Ready C S K) {src : NodeId}
    {req : ClientRequest} (hreq : A K.self src req) : Fine C P A S (S.served K src req) := by
  have hd := h.node K.self
  obtain ⟨hs, hreply, hprop⟩ := asked_onClientRequest hd.asked (S.world.cur K.self) hreq
  unfold Nodes.served
  dsimp only
  -- how `onClientRequest` goes on
  rcases hc : (S.node K.self).svc.onClientRequest (S.world.cur K.self) src req with ⟨svc, next⟩
  rw [hc] at hs hreply hprop
  have hloop : Good C P A
      { S with node := S.set K.self { S.node K.self with svc := svc, phase := .loop } } :=
    h.set ⟨hs, trivial, hd.le, hd.machine⟩
  cases next with
  | done => exact Fine.silent hloop (Cluster.Longer.refl _)
  | reply r =>
      refine ⟨hloop, Cluster.Longer.refl _, fun q hq he => ?_⟩
      rw [List.mem_singleton.mp hq] at he
      exact absurd he (hreply r rfl)
  | propose =>
      have hset := h.set (n := K.self) (d := { S.node K.self with
          svc := svc
          phase := .proposing src req ((propose K req.command).value (S.world.cur K.self)) })
        ⟨hs, hreq, hd.le, hd.machine⟩
      exact Fine.silent (hset.begun hK trivial (hP K.self src req hreq (hprop rfl)))
        (longer_begun S K _)
  | flushBatch => exact fine_flushing h hP hK hs

theorem fine_resumed (h : Good C P A S) {out : ClientService × List (NodeId × ClientReply)}
    (hs : Asked (A n) out.1) (hr : ∀ q ∈ out.2, q.2.status ≠ .ok) :
    Fine C P A S (S.resumed n out) := by
  have hd := h.node n
  refine ⟨h.set ⟨hs, trivial, hd.le, hd.machine⟩, Cluster.Longer.refl _, fun q hq he => ?_⟩
  obtain ⟨p, hp, rfl⟩ := List.mem_map.mp hq
  exact absurd he (hr p hp)

theorem fine_applied (h : Good C P A S) (hn : n ∈ C.ids) {entry : LogEntry}
    (he : (S.world.cur n).sm[(S.node n).applied]? = some entry) :
    Fine C P A S (S.applied n entry) := by
  have hd := h.node n
  obtain ⟨hlt, hget⟩ := List.getElem?_eq_some_iff.mp he
  have htake : (S.world.cur n).sm.take ((S.node n).applied + 1)
      = (S.world.cur n).sm.take (S.node n).applied ++ [entry] := by
    rw [List.take_add_one, he]
    rfl
  obtain ⟨hs, hok⟩ := asked_onApplied hd.asked n ((S.node n).applied + 1) entry
    ((S.node n).machine.apply entry.command).2
  refine ⟨h.set ⟨hs, hd.phase, hlt, ?_⟩, Cluster.Longer.refl _, fun q hq hst => ?_⟩
  · dsimp only
    rw [htake, List.map_append, hd.machine]
    exact (KVStateMachine.after_snoc _ _).symm
  · obtain ⟨p, hp, rfl⟩ := List.mem_map.mp hq
    obtain ⟨hres, req, hask, hid⟩ := hok p hp hst
    refine ⟨req, hask, (S.world.cur n).sm.take (S.node n).applied, entry, ?_, hid, ?_⟩
    · rw [← htake]
      intro j e hj
      refine ⟨n, hn, (h.sourced.now n).handed j e ?_⟩
      rw [List.getElem?_take] at hj
      split at hj
      · exact hj
      · cases hj
    · dsimp only
      rw [hres, hd.machine]

/-- **Every act keeps this, and every OK reply is right**, if the request that arrives was asked. -/
theorem good_step {a : Act} {out : Nodes × List Answer} (h : Good C P A S) (hP : Carried P A)
    (hs : Nodes.step C S a = some out)
    (ha : ∀ K src req, a = .request K src req → A K.self src req) : Fine C P A S out := by
  cases Nodes.stepped hs with
  | call K i hK hp hint hall =>
      have hi : i.Brings P := by
        refine h.sourced.brings hall ?_ ?_
        · intro c hc
          rw [hc] at hint
          cases hint
        · intro cs hc
          rw [hc] at hint
          cases hint
      exact Fine.silent (h.begun hK hall hi) (longer_begun S K i)
  | advance n t l ht =>
      exact Fine.silent (h.advance ht) (Cluster.Longer.update (h.sourced.advance ht).2.out)
  | crash n rng hn => exact Fine.silent (h.crash hn rng _) (Cluster.Longer.update List.prefix_rfl)
  | request K src req hK hp =>
      have hd := h.node K.self
      have hset := h.set (n := K.self) (d := { S.node K.self with phase := .request src req })
        ⟨hd.asked, ha K src req rfl, hd.le, hd.machine⟩
      exact Fine.silent (hset.begun hK (Or.inr rfl) trivial) (longer_begun S K _)
  | serve K src req hK hp =>
      have hphase := (h.node K.self).phase
      rw [hp] at hphase
      exact fine_served h hP hK hphase
  | proposed n src req index hp =>
      have hphase := (h.node n).phase
      rw [hp] at hphase
      obtain ⟨h1, h2⟩ := asked_proposed (h.node n).asked hphase index
      exact fine_resumed h h1 h2
  | flushed n first hp =>
      obtain ⟨h1, h2⟩ := asked_flushed (h.node n).asked (S.world.cur n) first
      exact fine_resumed h h1 h2
  | flush K svc hK hp he =>
      have hasked := asked_flushIfDue (h.node K.self).asked K.now
      rw [he] at hasked
      exact fine_flushing h hP hK hasked
  | wait K svc next hK hp he hn =>
      have hasked := asked_flushIfDue (h.node K.self).asked K.now
      rw [he] at hasked
      have hd := h.node K.self
      exact Fine.silent (h.set ⟨hasked, hd.phase, hd.le, hd.machine⟩) (Cluster.Longer.refl _)
  | apply n entry hn he => exact fine_applied h hn he

end Good

end Rsm.Client
