/-
  File:      RaftRsm/Raft/Cluster.lean
  Subject:   A cluster of cores on an unreliable network, with crashes.

  A world holds every core, and for a core inside a call the moments it has still to pass. The
  network is the history: a message that a member has ever sent may be delivered at any time
  and any number of times, or never; nothing else is delivered from a member. Clocks, election
  draws and the answers of the apply sink are arbitrary at every call. A crash may come after
  any moment and is followed by a restart with the persistent state and the log.

  * `Cluster` -- the members, each with the list of all the others as its peers;
  * `Cluster.system` -- the worlds of a cluster and their steps;
  * `Cluster.play`, `reach_play` -- scripts of whole calls, to exhibit reachable worlds.
-/
import RaftRsm.Raft.Core
import RaftRsm.Process.Interleave

namespace Rsm.Raft

open Rsm.Rpc Rsm.Storage Process

/-- The fixed membership of a cluster, and what each core's generator is seeded with. -/
structure Cluster where
  ids : Finset NodeId
  peers : NodeId → List NodeId
  rng : NodeId → ℕ → ℕ
  nodup : ∀ n, (peers n).Nodup
  mem_peers : ∀ {n}, n ∈ ids → ∀ p, p ∈ peers n ↔ p ∈ ids ∧ p ≠ n

namespace Cluster

variable (C : Cluster)

/-- What may be put to node `n` when the cores are `x`: from a member only what it has sent to
    `n`, from clients any client message. -/
def Allowed (x : NodeId → RaftCore) (n : NodeId) : Input → Prop
  | .handle p m => (p ∈ C.ids ∧ Output.send n m ∈ (x p).out) ∨ termOf m = none
  | _ => True

instance (x : NodeId → RaftCore) (n : NodeId) : ∀ i, Decidable (C.Allowed x n i)
  | .handle _ _ => inferInstanceAs (Decidable (_ ∨ _))
  | .start => inferInstanceAs (Decidable True)
  | .tick => inferInstanceAs (Decidable True)
  | .propose _ => inferInstanceAs (Decidable True)
  | .proposeBatch _ => inferInstanceAs (Decidable True)
  | .pumpApply => inferInstanceAs (Decidable True)

/-- **The cluster as a system of processes.** -/
def system : System NodeId RaftCore where
  init n := { rng := C.rng n }
  begins x n l := n ∈ C.ids ∧ ∃ K i, K.self = n ∧ K.peers = C.peers n ∧ C.Allowed x n i ∧
    l = (step K i).moments (x n)
  restart n s t := n ∈ C.ids ∧ ∃ rng, t = s.restart rng

/-- A world. -/
abbrev World := Process.World NodeId RaftCore

/-! ## Scripts -/

/-- The world in which every core is between two calls. -/
def resting (x : NodeId → RaftCore) : World := fun n => ⟨x n, []⟩

/-- One whole call. -/
def call (x : NodeId → RaftCore) (K : Ctx) (i : Input) : NodeId → RaftCore :=
  Function.update x K.self ((step K i).final (x K.self))

/-- A script of whole calls. -/
def play (x : NodeId → RaftCore) : List (Ctx × Input) → NodeId → RaftCore
  | [] => x
  | (K, i) :: l => play (call x K i) l

/-- Every call of the script may be made when its turn comes. -/
def Playable (x : NodeId → RaftCore) : List (Ctx × Input) → Prop
  | [] => True
  | (K, i) :: l =>
      K.self ∈ C.ids ∧ K.peers = C.peers K.self ∧ C.Allowed x K.self i ∧ Playable (call x K i) l

instance : ∀ (l : List (Ctx × Input)) (x : NodeId → RaftCore), Decidable (C.Playable x l)
  | [], _ => inferInstanceAs (Decidable True)
  | (K, i) :: l, x =>
      have := instDecidablePlayable l (call x K i)
      inferInstanceAs (Decidable (_ ∧ _ ∧ _ ∧ _))

variable {C}

/-- **A script leads to a reachable world.** -/
theorem reach_play {l : List (Ctx × Input)} : ∀ {x : NodeId → RaftCore}, C.Playable x l →
    C.system.Reach (resting x) (resting (play x l)) := by
  induction l with
  | nil => exact fun _ => .refl
  | cons k l ih =>
      intro x h
      obtain ⟨K, i⟩ := k
      obtain ⟨hself, hpeers, hallowed, hrest⟩ := h
      have hb : C.system.begins (resting x).cur K.self ((step K i).moments (x K.self)) :=
        ⟨hself, K, i, rfl, hpeers, hallowed, rfl⟩
      have h1 := System.reach_run (S := C.system) (w := resting x) rfl hb
      have he : Function.update (resting x) K.self
          ⟨((step K i).moments (x K.self)).getLastD ((resting x).cur K.self), []⟩ =
          resting (call x K i) := by
        funext n
        by_cases hn : n = K.self
        · subst hn
          simp only [Function.update_self, resting, call]
          rfl
        · simp only [Function.update_of_ne hn, resting, call]
      rw [he] at h1
      exact h1.trans (ih hrest)

end Cluster

end Rsm.Raft
