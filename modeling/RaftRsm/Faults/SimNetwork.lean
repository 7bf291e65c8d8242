/-
  File:      RaftRsm/Faults/SimNetwork.lean
  Subject:   The simulated network of a chaos run (`faults/sim_network.{h,cpp}`): loss, latency, reordering
             and partitions, all decided by the draws of one generator.

  A message that is not lost stands in a queue ordered by (time of delivery, number of the message). The
  generator is the sequence of 64-bit words it has still to give; a probability is the value of the double.

  * `Ordered` -- the queue is sorted, and its numbers are below the next one; `Ordered.send` -- a send
    keeps this;
  * `queue_send` -- it queues one message between nodes on one side, or none;
  * `dueAt_send` -- a message that takes at least a millisecond is not due at once.
-/
import RaftRsm.Rpc.Messages
import Mathlib.Data.Rat.Defs
import Mathlib.Algebra.Order.Ring.Rat
import Std.Data.ExtTreeMap

namespace Rsm.Sim

open Rsm.Rpc

/-! ## 1. Draws -/

/-- `static_cast<double>` of a word: 53 significant bits, ties to even. -/
def toDouble (draw : ℕ) : ℕ :=
  let unit := 2 ^ (draw.log2 - 52)
  let q := draw / unit
  let r := draw % unit
  if 2 * r > unit ∨ (2 * r = unit ∧ q % 2 = 1) then (q + 1) * unit else q * unit

/-- Exact for `p = 0` (never) and `p = 1` (always). -/
def chance (draw : ℕ) (p : ℚ) : Bool :=
  if p ≤ 0 then false
  else if p ≥ 1 then true
  else (toDouble draw : ℚ) < p * 2 ^ 64

/-! ## 2. The network -/

structure Wire where
  sender : NodeId
  dest : NodeId
  msg : Message
  deriving DecidableEq, Repr

/-- An entry of the queue: its key and its message. -/
structure InFlight where
  deliverAt : ℕ
  seq : ℕ
  wire : Wire
  deriving DecidableEq, Repr

/-- The order of the keys. -/
def InFlight.Before (f g : InFlight) : Prop := f.deliverAt < g.deliverAt ∨ f.deliverAt = g.deliverAt ∧ f.seq < g.seq

instance (f g : InFlight) : Decidable (f.Before g) := inferInstanceAs (Decidable (_ ∨ _))

structure SimNetwork where
  /-- The words the generator has still to give. -/
  rng : ℕ → ℕ := fun _ => 0
  cluster : List NodeId := []
  /-- empty: fully connected -/
  groupOf : Std.ExtTreeMap NodeId ℕ := ∅
  dropProb : ℚ := 0
  latencyMin : ℕ := 1
  latencyMax : ℕ := 1
  reorderProb : ℚ := 0
  reorderExtraMax : ℕ := 0
  queue : List InFlight := []
  nextSeq : ℕ := 0

/-- `queue_.emplace` with a new key. -/
def emplace (f : InFlight) : List InFlight → List InFlight
  | [] => [f]
  | g :: q => if f.Before g then f :: g :: q else g :: emplace f q

namespace SimNetwork

variable (net : SimNetwork)

def setDrop (probability : ℚ) : SimNetwork := { net with dropProb := probability }

def setLatency (min max : ℕ) : SimNetwork := { net with latencyMin := min, latencyMax := Max.max min max }

def setReorder (probability : ℚ) (extraMax : ℕ) : SimNetwork :=
  { net with reorderProb := probability, reorderExtraMax := extraMax }

/-- The ids of the groups, each with the number of its group, from `g` on. -/
def numberGroups : ℕ → List (List NodeId) → List (NodeId × ℕ)
  | _, [] => []
  | g, group :: groups => group.map (fun id => (id, g)) ++ numberGroups (g + 1) groups

/-- Without any group everyone is isolated: the map is not empty, and finds nobody. -/
def partition (groups : List (List NodeId)) : SimNetwork :=
  let groupOf := (numberGroups 1 groups).foldl (fun (m : Std.ExtTreeMap NodeId ℕ) x => m.insert x.1 x.2) ∅
  { net with groupOf := if groupOf.isEmpty then groupOf.insert 0 0 else groupOf }

def isolate (id : NodeId) : SimNetwork := net.partition [[id], net.cluster.filter (· ≠ id)]

def heal : SimNetwork := { net with groupOf := ∅ }

def isClusterNode (id : NodeId) : Bool := net.cluster.contains id

/-- Partitions separate cluster nodes only; a cluster node in no group is isolated. -/
def sameSide (a b : NodeId) : Bool :=
  if net.groupOf.isEmpty then true
  else if !net.isClusterNode a || !net.isClusterNode b then true
  else
    match net.groupOf[a]?, net.groupOf[b]? with
    | some ga, some gb => ga == gb
    | _, _ => false

/-- The delay of a message, from the three words that decide it. -/
def delay (latencyDraw reorderDraw reorderExtraDraw : ℕ) : ℕ :=
  let window := net.latencyMax - net.latencyMin
  let delay := net.latencyMin + latencyDraw % (window + 1)
  if chance reorderDraw net.reorderProb && net.reorderExtraMax > 0 then
    delay + reorderExtraDraw % (net.reorderExtraMax + 1)
  else delay

/-- Four words are drawn whatever the settings are. -/
def send (sender dest : NodeId) (m : Message) (now : ℕ) : SimNetwork :=
  let drawn := { net with rng := fun k => net.rng (k + 4) }
  let cut := !net.sameSide sender dest
  let dropped := cut || chance (net.rng 0) net.dropProb
  if dropped then drawn
  else
    { drawn with
      queue := emplace ⟨now + net.delay (net.rng 1) (net.rng 2) (net.rng 3), net.nextSeq, ⟨sender, dest, m⟩⟩ net.queue
      nextSeq := net.nextSeq + 1 }

end SimNetwork

/-! ## 3. The order of the queue -/

theorem mem_emplace {f g : InFlight} : ∀ {q : List InFlight}, g ∈ emplace f q ↔ g = f ∨ g ∈ q
  | [] => by simp [emplace]
  | h :: q => by
      unfold emplace
      split_ifs
      · exact List.mem_cons
      · rw [List.mem_cons, List.mem_cons, mem_emplace]
        tauto

theorem InFlight.Before.trans {f g h : InFlight} (hfg : f.Before g) (hgh : g.Before h) : f.Before h := by
  unfold InFlight.Before at *
  omega

theorem before_of_not {f g : InFlight} (h : ¬ f.Before g) (hne : f.seq ≠ g.seq) : g.Before f := by
  unfold InFlight.Before at *
  omega

theorem sorted_emplace {f : InFlight} : ∀ {q : List InFlight}, q.Pairwise InFlight.Before →
    (∀ g ∈ q, f.seq ≠ g.seq) → (emplace f q).Pairwise InFlight.Before
  | [], _, _ => List.pairwise_singleton _ _
  | g :: q, hq, hne => by
      obtain ⟨hg, hq⟩ := List.pairwise_cons.mp hq
      unfold emplace
      split_ifs with hfg
      · refine List.pairwise_cons.mpr ⟨fun h hh => ?_, List.pairwise_cons.mpr ⟨hg, hq⟩⟩
        rcases List.mem_cons.mp hh with rfl | hh
        · exact hfg
        · exact hfg.trans (hg h hh)
      · refine List.pairwise_cons.mpr ⟨fun h hh => ?_, sorted_emplace hq fun x hx => hne x (List.mem_cons_of_mem g hx)⟩
        rcases mem_emplace.mp hh with rfl | hh
        · exact before_of_not hfg (hne g List.mem_cons_self)
        · exact hg h hh

/-- What the queue holds that is due. -/
def dueAt (now : ℕ) (q : List InFlight) : List InFlight := q.filter fun f => f.deliverAt ≤ now

theorem dueAt_emplace {f : InFlight} {now : ℕ} (h : now < f.deliverAt) : ∀ q : List InFlight,
    dueAt now (emplace f q) = dueAt now q
  | [] => List.filter_cons_of_neg (by simpa using h)
  | g :: q => by
      unfold emplace
      split_ifs
      · exact List.filter_cons_of_neg (by simpa using h)
      · unfold dueAt
        rw [List.filter_cons, List.filter_cons, ← dueAt, dueAt_emplace h q]
        rfl

/-- **The queue of a network is in order**: sorted by its keys, whose numbers have been given out. -/
structure SimNetwork.Ordered (net : SimNetwork) : Prop where
  sorted : net.queue.Pairwise InFlight.Before
  below : ∀ f ∈ net.queue, f.seq < net.nextSeq

namespace SimNetwork

variable {net : SimNetwork} {sender dest : NodeId} {m : Message} {now : ℕ}

theorem latencyMin_le_delay (a b c : ℕ) : net.latencyMin ≤ net.delay a b c := by
  unfold delay
  dsimp only
  split_ifs <;> omega

/-- **What a send does to the queue**: nothing, or one new message between nodes on one side. -/
theorem queue_send (net : SimNetwork) (sender dest : NodeId) (m : Message) (now : ℕ) :
    (net.send sender dest m now).queue = net.queue ∧ (net.send sender dest m now).nextSeq = net.nextSeq ∨
    net.sameSide sender dest = true ∧ ∃ d, net.latencyMin ≤ d ∧
      (net.send sender dest m now).queue = emplace ⟨now + d, net.nextSeq, ⟨sender, dest, m⟩⟩ net.queue ∧
      (net.send sender dest m now).nextSeq = net.nextSeq + 1 := by
  unfold send
  dsimp only
  split_ifs with h
  · exact .inl ⟨rfl, rfl⟩
  · rw [Bool.or_eq_true, not_or] at h
    exact .inr ⟨by simpa using h.1, _, latencyMin_le_delay _ _ _, rfl, rfl⟩

/-- **A send keeps the queue in order.** -/
theorem Ordered.send (h : net.Ordered) (sender dest : NodeId) (m : Message) (now : ℕ) :
    (net.send sender dest m now).Ordered := by
  rcases net.queue_send sender dest m now with ⟨hq, hs⟩ | ⟨-, d, -, hq, hs⟩
  · exact ⟨hq ▸ h.sorted, by rw [hq, hs]; exact h.below⟩
  · refine ⟨?_, fun f hf => ?_⟩
    · rw [hq]
      exact sorted_emplace h.sorted fun g hg => Nat.ne_of_gt (h.below g hg)
    · rw [hq] at hf
      rw [hs]
      rcases mem_emplace.mp hf with rfl | hf
      · exact Nat.lt_succ_self _
      · exact (h.below f hf).trans (Nat.lt_succ_self _)

/-- **A message that takes a millisecond at least is not due at once.** -/
theorem dueAt_send (hlat : 1 ≤ net.latencyMin) (sender dest : NodeId) (m : Message) (now : ℕ) :
    dueAt now (net.send sender dest m now).queue = dueAt now net.queue := by
  rcases net.queue_send sender dest m now with ⟨hq, -⟩ | ⟨-, d, hd, hq, -⟩
  · rw [hq]
  · rw [hq, dueAt_emplace (show now < now + d by omega)]

theorem subset_send (net : SimNetwork) (sender dest : NodeId) (m : Message) (now : ℕ) :
    net.queue ⊆ (net.send sender dest m now).queue := by
  intro f hf
  rcases net.queue_send sender dest m now with ⟨hq, -⟩ | ⟨-, d, -, hq, -⟩
  · rw [hq]
    exact hf
  · rw [hq]
    exact mem_emplace.mpr (.inr hf)

theorem latencyMin_send (net : SimNetwork) (sender dest : NodeId) (m : Message) (now : ℕ) :
    (net.send sender dest m now).latencyMin = net.latencyMin := by
  unfold send
  dsimp only
  split_ifs <;> rfl

end SimNetwork

end Rsm.Sim
