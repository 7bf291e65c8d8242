/-
  File:      RaftRsm/Raft/AppliedLog.lean
  Subject:   THE LOG AS IT HAS BEEN APPLIED: along every run the lines `apply` of all nodes together
             are one growing sequence of entries, and every command in it was brought in by a call.

  * `Sourced P w` -- the cores of a world hold commands of `P` only, now and at the moments their
    calls have still to pass; `Sourced.begin`, `.advance`, `.crash` -- the steps of a world;
  * `IsLog C w L` -- `L` is what the nodes have handed to their state machines, at every index that
    any of them has reached in any incarnation;
  * `exists_log`, `IsLog.grows` -- there is such a log in every reachable world, and it only grows.
-/
import RaftRsm.Raft.Origins
import RaftRsm.Raft.Refinement
import Mathlib.Algebra.Order.BigOperators.Group.List
import Mathlib.Algebra.Order.Group.Nat
import Mathlib.Data.Finset.Lattice.Fold

namespace Rsm.Raft.Cluster

open Rsm.Rpc Rsm.Storage Process Replication

variable {C : Cluster} {w w' : World} {P P' : Bytes → Prop} {n : NodeId}

/-! ## 1. Commands of a world -/

/-- **Every command in the world is of `P`**, and stays so until the calls that run have ended. -/
structure Sourced (P : Bytes → Prop) (w : World) : Prop where
  now : ∀ n, Sound P (w.cur n)
  plan : ∀ n, Plan (keeps P) (fun _ t => Sound P t ∧ InStep t) () (w.cur n) (w n).todo

theorem Sourced.mono (h : Sourced P w) (hP : ∀ b, P b → P' b) : Sourced P' w where
  now n := (h.now n).mono hP
  plan n := plan_weaken (C := keeps P) (D := keeps P') id id (fun hm => Sound.mono hm hP) id
    (fun _ _ hq => ⟨Sound.mono hq.1 hP, hq.2⟩) (h.plan n)

/-- One slot of the world changes. -/
theorem Sourced.update (h : Sourced P w) {x : Slot RaftCore} (hx : Sound P x.cur)
    (hp : Plan (keeps P) (fun _ t => Sound P t ∧ InStep t) () x.cur x.todo) :
    Sourced P (Function.update w n x) := by
  refine ⟨fun m => ?_, fun m => ?_⟩
  · by_cases hm : m = n
    · subst hm
      rw [World.cur_update_self]
      exact hx
    · rw [World.cur_update_of_ne hm]
      exact h.now m
  · by_cases hm : m = n
    · subst hm
      rw [World.cur_update_self, Function.update_self]
      exact hp
    · rw [World.cur_update_of_ne hm, Function.update_of_ne hm]
      exact h.plan m

theorem sourced_start (P : Bytes → Prop) : Sourced P C.system.start := by
  have hs : ∀ n, Sound P (C.system.init n) := fun n =>
    ⟨fun _ h => (List.not_mem_nil h).elim, fun _ _ h => (List.not_mem_nil h).elim,
      fun _ _ h => (Option.some_ne_none _ h.symm).elim, fun _ _ h => (List.not_mem_nil h).elim⟩
  exact ⟨hs, fun n => ⟨hs n, rfl⟩⟩

/-- What an incoming AppendEntries carries, its sender has sent. -/
theorem Sourced.brings (h : Sourced P w) {i : Input} (hi : C.Allowed w.cur n i)
    (hp : ∀ c, i = .propose c → P c) (hb : ∀ cs, i = .proposeBatch cs → ∀ c ∈ cs, P c) :
    i.Brings P := by
  cases i with
  | handle p m =>
      cases m with
      | appendEntries ae =>
          rcases hi with hi | hi
          · exact (h.now p).sent n ae hi.2
          · cases hi
      | _ => trivial
  | propose c => exact hp c rfl
  | proposeBatch cs => exact hb cs rfl
  | _ => trivial

theorem Sourced.begin (h : Sourced P w) (hn : w.Idle n) {K : Ctx} {i : Input} (hi : i.Brings P) :
    Sourced P (Function.update w n ⟨w.cur n, (step K i).moments (w.cur n)⟩) := by
  refine h.update (h.now n) (stays_step hi (w.cur n) (h.now n) ?_)
  have hp := h.plan n
  unfold World.Idle at hn
  rw [hn] at hp
  exact hp.2

theorem Sourced.advance (h : Sourced P w) {t : RaftCore} {l : List RaftCore}
    (ht : (w n).todo = t :: l) :
    Sourced P (Function.update w n ⟨t, l⟩) ∧ Added (w.cur n) t := by
  have hp := h.plan n
  rw [ht] at hp
  obtain ⟨hmove, hp⟩ := hp
  obtain ⟨_, -, hmid, hp⟩ := hp () trivial
  exact ⟨h.update hmid hp, hmove⟩

theorem Sourced.crash (h : Sourced P w) (rng : ℕ → ℕ) :
    Sourced P (Function.update w n ⟨(w.cur n).restart rng, []⟩) := by
  have hs : Sound P ((w.cur n).restart rng) :=
    ⟨(h.now n).log, (h.now n).sent, fun _ _ hi => (Option.some_ne_none _ hi.symm).elim,
      (h.now n).below⟩
  exact h.update hs ⟨hs, rfl⟩

/-! ## 2. The log -/

/-- Some node has handed `e` over at index `i + 1`. -/
def HandedAt (C : Cluster) (w : World) (i : ℕ) (e : LogEntry) : Prop :=
  ∃ m ∈ C.ids, Output.apply (i + 1) e ∈ (w.cur m).out

/-- Every entry of `G` has been handed over, at its place. -/
def Handed (C : Cluster) (w : World) (G : List LogEntry) : Prop :=
  ∀ i e, G[i]? = some e → C.HandedAt w i e

/-- **The log as it has been applied**, by whichever node and in whichever incarnation. -/
def IsLog (C : Cluster) (w : World) (L : List LogEntry) : Prop :=
  ∀ i e, L[i]? = some e ↔ C.HandedAt w i e

/-- The histories only grow. -/
def Longer (w w' : World) : Prop := ∀ n, (w.cur n).out <+: (w'.cur n).out

theorem Longer.refl (w : World) : Longer w w := fun _ => List.prefix_rfl

theorem Longer.update {x : Slot RaftCore} (h : (w.cur n).out <+: x.cur.out) :
    Longer w (Function.update w n x) := by
  intro m
  by_cases hm : m = n
  · subst hm
    rw [World.cur_update_self]
    exact h
  · rw [World.cur_update_of_ne hm]

theorem HandedAt.mono (h : Longer w w') {i : ℕ} {e : LogEntry} (hw : C.HandedAt w i e) :
    C.HandedAt w' i e := by
  obtain ⟨m, hm, ho⟩ := hw
  exact ⟨m, hm, (h m).subset ho⟩

theorem Handed.mono (h : Longer w w') {G : List LogEntry} (hw : C.Handed w G) : C.Handed w' G :=
  fun i e he => (hw i e he).mono h

/-- One entry per index. -/
theorem handedAt_unique (h : C.system.Reachable w) {i : ℕ} {e e' : LogEntry}
    (he : C.HandedAt w i e) (he' : C.HandedAt w i e') : e = e' := by
  obtain ⟨a, ha⟩ := explained h
  obtain ⟨m, -, hm⟩ := he
  obtain ⟨m', -, hm'⟩ := he'
  exact chosen_unique (ha.mid m).inv ((ha.mid m).out _ hm).2 ((ha.mid m').out _ hm').2

/-- What has been handed over is in somebody's log, so its command is of `P`. -/
theorem HandedAt.command (h : C.system.Reachable w) (hs : Sourced P w) {i : ℕ} {e : LogEntry}
    (he : C.HandedAt w i e) : P e.command := by
  obtain ⟨a, ha⟩ := explained h
  obtain ⟨m, -, hm⟩ := he
  have hinv := (ha.mid m).inv
  obtain ⟨T, k, hcom, hik, hget⟩ := ((ha.mid m).out _ hm).2
  rw [Nat.add_sub_cancel] at hik hget
  obtain ⟨Q, hQ, hheld⟩ := committed_held hinv hcom
  -- a quorum holds it, and two quorums meet
  obtain ⟨v, hv, -⟩ := C.setting.meet hQ hQ
  have hpre := hheld v hv
  rw [(ha.mid v).log] at hpre
  have hlog : (w.cur v).log[i]? = some e := by
    refine getElem_of_pre hpre ?_
    rw [List.getElem?_take_of_lt hik]
    exact hget
  exact (hs.now v).log e (List.mem_of_getElem? hlog)

theorem prefix_of_getElem {α : Type} {l l' : List α}
    (h : ∀ (i : ℕ) (e : α), l[i]? = some e → l'[i]? = some e) : l <+: l' :=
  List.prefix_iff_getElem?.mpr fun i hi => h i _ (List.getElem?_eq_getElem hi)

theorem IsLog.of_handed {L G : List LogEntry} (hL : C.IsLog w L) (hG : C.Handed w G) : G <+: L :=
  prefix_of_getElem fun i e he => (hL i e).mpr (hG i e he)

/-- The log of a later world is longer. -/
theorem IsLog.grows {L L' : List LogEntry} (hL : C.IsLog w L) (hL' : C.IsLog w' L')
    (h : Longer w w') : L <+: L' :=
  hL'.of_handed fun i e he => ((hL i e).mp he).mono h

/-- The index of a line `apply`. -/
def lineIndex : Output → ℕ
  | .apply i _ => i
  | _ => 0

/-- **There is a log in every reachable world.** -/
theorem exists_log (hr : C.system.Reachable w) (hs : Sourced P w) : ∃ L, C.IsLog w L := by
  -- no index is beyond `B`
  let B := C.ids.sup fun m => ((w.cur m).out.map lineIndex).sum
  have hB : ∀ {i : ℕ} {e : LogEntry}, C.HandedAt w i e → i < B := by
    intro i e he
    obtain ⟨m, hm, ho⟩ := he
    have h1 : i + 1 ≤ ((w.cur m).out.map lineIndex).sum :=
      List.le_sum_of_mem (List.mem_map.mpr ⟨_, ho, rfl⟩)
    exact h1.trans (Finset.le_sup (f := fun m => ((w.cur m).out.map lineIndex).sum) hm)
  -- a sequence that has been handed over is the log, or can be extended
  have hext : ∀ k (G : List LogEntry), G.length + k = B → C.Handed w G → ∃ L, C.IsLog w L := by
    intro k
    induction k with
    | zero =>
        intro G hG hH
        refine ⟨G, fun i e => ⟨hH i e, fun he => ?_⟩⟩
        have hi : i < G.length := by
          have := hB he
          omega
        rw [List.getElem?_eq_getElem hi]
        exact congrArg some (handedAt_unique hr (hH i _ (List.getElem?_eq_getElem hi)) he)
    | succ k ih =>
        intro G hG hH
        by_cases hmore : ∃ i e, G.length ≤ i ∧ C.HandedAt w i e
        · obtain ⟨i, e, hi, m, hm, ho⟩ := hmore
          obtain ⟨e', he'⟩ := (hs.now m).below i e ho G.length hi
          refine ih (G ++ [e']) (by rw [List.length_append, List.length_singleton]; omega) ?_
          intro j f hf
          rcases Nat.lt_or_ge j G.length with hj | hj
          · rw [List.getElem?_append_left hj] at hf
            exact hH j f hf
          · have hlt := (List.getElem?_eq_some_iff.mp hf).1
            rw [List.length_append, List.length_singleton] at hlt
            obtain rfl : j = G.length := by omega
            rw [List.getElem?_concat_length] at hf
            exact ⟨m, hm, Option.some.inj hf ▸ he'⟩
        · refine ⟨G, fun i e => ⟨hH i e, fun he => ?_⟩⟩
          have hi : i < G.length := by
            by_contra hge
            exact hmore ⟨i, e, Nat.le_of_not_lt hge, he⟩
          rw [List.getElem?_eq_getElem hi]
          exact congrArg some (handedAt_unique hr (hH i _ (List.getElem?_eq_getElem hi)) he)
  exact hext B [] (by simp) fun i e he => (Option.some_ne_none _ he.symm).elim

end Rsm.Raft.Cluster
