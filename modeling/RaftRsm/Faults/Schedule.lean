/-
  File:      RaftRsm/Faults/Schedule.lean
  Subject:   The fault schedule of a chaos run (`faults/fault_schedule.{h,cpp}`), for every seed.

  * `FaultEvent`, `newEvent`, `generateFaultSchedule` -- the events, all drawn before the run starts;
  * `applyFaultEvent` -- one event, with targets that depend on the run drawn when it is applied;
  * `FaultEvent.Sound` -- what an event says makes sense: a partition has two sides, a probability is
    below one, a latency is at least one millisecond;
  * `schedule_sound` -- every schedule is in the window, in order and sound, and every crash is followed
    by a restart unless the window ends first.
-/
import RaftRsm.Process.Draws
import RaftRsm.Faults.Harness

namespace Rsm.Sim

open Rsm.Rpc Process
open scoped List

/-! ## 1. The code -/

inductive FaultKind where
  | partition
  | heal
  | setDrop
  | setLatency
  | setReorder
  | crash
  | restart
  | leaderKill
  deriving DecidableEq, Repr

structure FaultEvent where
  atMs : ℕ := 0
  kind : FaultKind := .partition
  groups : List (List NodeId) := []
  probability : ℚ := 0
  latencyMinMs : ℕ := 0
  latencyMaxMs : ℕ := 0
  reorderExtraMs : ℕ := 0
  deriving DecidableEq, Repr

/-- Each id goes to one of two sides. -/
def split : List NodeId → Drawn (List NodeId × List NodeId)
  | [] => pure ([], [])
  | id :: ids => do
      let d ← draw
      let sides ← split ids
      pure (if d % 2 = 0 then (id :: sides.1, sides.2) else (sides.1, id :: sides.2))

/-- A side that is empty gets the last id of the other. -/
def balance (a b : List NodeId) : List NodeId × List NodeId :=
  if a = [] then (b.getLast?.toList, b.dropLast)
  else if b = [] then (a.dropLast, a.getLast?.toList)
  else (a, b)

/-- One node against the rest, or a random bipartition. -/
def groupsOf (n : ℕ) : Drawn (List (List NodeId)) := do
  let d ← draw
  if d % 100 < 70 then
    let v ← draw
    let victim := 1 + v % n
    pure [[victim], (List.range' 1 n).filter (· ≠ victim)]
  else
    let sides ← split (List.range' 1 n)
    let (a, b) := balance sides.1 sides.2
    pure [a, b]

/-- The doubles 0.0, 0.05, 0.15 and 0.30. -/
def dropLevels : List ℚ :=
  [0, 3602879701896397 / 72057594037927936, 5404319552844595 / 36028797018963968, 5404319552844595 / 18014398509481984]

/-- The doubles 0.0, 0.10 and 0.30. -/
def reorderLevels : List ℚ := [0, 3602879701896397 / 36028797018963968, 5404319552844595 / 18014398509481984]

def latencyLevels : List ℕ := [2, 10, 40, 120]

def newEvent (n t : ℕ) : Drawn FaultEvent := do
  let d ← draw
  let kind := d % 100
  if kind < 20 then
    let groups ← groupsOf n
    pure { atMs := t, kind := .partition, groups }
  else if kind < 35 then pure { atMs := t, kind := .heal }
  else if kind < 47 then
    let level ← draw
    pure { atMs := t, kind := .setDrop, probability := dropLevels.getD (level % 4) 0 }
  else if kind < 59 then
    let level ← draw
    let latencyMaxMs := latencyLevels.getD (level % 4) 0
    let latencyMinMs ← pickFrom 1 (max 1 (latencyMaxMs / 4))
    pure { atMs := t, kind := .setLatency, latencyMinMs, latencyMaxMs }
  else if kind < 67 then
    let level ← draw
    let reorderExtraMs ← pickFrom 5 30
    pure { atMs := t, kind := .setReorder, probability := reorderLevels.getD (level % 3) 0, reorderExtraMs }
  else if kind < 80 then pure { atMs := t, kind := .crash }
  else if kind < 92 then pure { atMs := t, kind := .restart }
  else pure { atMs := t, kind := .leaderKill }

/-- A crash brings a restart with it, if it comes before the end. -/
def recovery (endMs : ℕ) (ev : FaultEvent) : Drawn (List FaultEvent) :=
  if ev.kind = .crash ∨ ev.kind = .leaderKill then do
    let d ← pickFrom 500 3000
    pure (if ev.atMs + d < endMs then [{ atMs := ev.atMs + d, kind := .restart }] else [])
  else pure []

/-- The loop over the events, with a bound on their number; `none` if the bound is too low. -/
def eventsFrom (n endMs : ℕ) : ℕ → ℕ → Drawn (Option (List FaultEvent))
  | fuel, t =>
      if t < endMs then
        match fuel with
        | 0 => pure none
        | k + 1 => do
            let ev ← newEvent n t
            let back ← recovery endMs ev
            let gap ← pickFrom 700 2500
            let rest ← eventsFrom n endMs k (t + gap)
            pure (rest.map fun l => ev :: (back ++ l))
      else pure (some [])

/-- `std::stable_sort` by time. -/
def sortEvents (events : List FaultEvent) : List FaultEvent := events.mergeSort fun a b => a.atMs ≤ b.atMs

def generateFaultSchedule (nodeCount startMs endMs : ℕ) : Drawn (Option (List FaultEvent)) := do
  let d ← pickFrom 0 800
  let events ← eventsFrom nodeCount endMs endMs (startMs + d)
  pure (events.map sortEvents)

/-- Any of a list, if there is one. -/
def pickAny (l : List NodeId) : Drawn (Option NodeId) :=
  if l = [] then pure none else do
    let d ← draw
    pure l[d % l.length]?

def applyFaultEvent {M : Type} (A : Machine M) (O : SimOptions) (h : Harness M) (ev : FaultEvent) :
    Drawn (Harness M) :=
  match ev.kind with
  | .partition => pure { h with net := h.net.partition ev.groups }
  | .heal => pure { h with net := h.net.heal }
  | .setDrop => pure { h with net := h.net.setDrop ev.probability }
  | .setLatency => pure { h with net := h.net.setLatency ev.latencyMinMs ev.latencyMaxMs }
  | .setReorder => pure { h with net := h.net.setReorder ev.probability ev.reorderExtraMs }
  | .crash => do
      let id ← pickAny (O.ids.filter fun id => (h.nodes id).alive)
      pure ((id.map h.crash).getD h)
  | .restart => do
      let id ← pickAny (h.deadNodes O)
      pure ((id.map (h.restart A O)).getD h)
  | .leaderKill => pure (h.killLeader O)

/-! ## 2. What an event says -/

/-- **An event makes sense** in a cluster of `n` nodes. -/
def FaultEvent.Sound (n : ℕ) (ev : FaultEvent) : Prop :=
  match ev.kind with
  | .partition => ∃ a b, ev.groups = [a, b] ∧ a ≠ [] ∧ b ≠ [] ∧ a ++ b ~ List.range' 1 n
  | .setDrop => 0 ≤ ev.probability ∧ ev.probability < 1
  | .setLatency => 1 ≤ ev.latencyMinMs ∧ ev.latencyMinMs ≤ ev.latencyMaxMs
  | .setReorder => 0 ≤ ev.probability ∧ ev.probability < 1
  | _ => True

theorem always_split : ∀ ids : List NodeId, Always (split ids) fun s => s.1 ++ s.2 ~ ids
  | [] => always_pure (List.Perm.refl _)
  | id :: ids => by
      refine always_bind (always_any draw) fun d _ => always_bind (always_split ids) fun s hs => always_pure ?_
      split_ifs
      · exact hs.cons id
      · exact List.perm_middle.trans (hs.cons id)

theorem balance_spec {a b : List NodeId} (h : 2 ≤ (a ++ b).length) :
    (balance a b).1 ≠ [] ∧ (balance a b).2 ≠ [] ∧ (balance a b).1 ++ (balance a b).2 ~ a ++ b := by
  unfold balance
  -- a list of two ids or more is its front and its last id, and the front is not empty
  have hlast : ∀ {l : List NodeId}, 2 ≤ l.length →
      l.getLast?.toList ≠ [] ∧ l.dropLast ≠ [] ∧ l.dropLast ++ l.getLast?.toList = l := by
    intro l hl
    rcases List.eq_nil_or_concat' l with rfl | ⟨l', x, rfl⟩
    · cases hl
    · rw [List.getLast?_append, List.getLast?_singleton, List.dropLast_concat]
      refine ⟨List.cons_ne_nil _ _, fun hnil => ?_, rfl⟩
      rw [hnil] at hl
      simp at hl
  split_ifs with ha hb
  · subst ha
    rw [List.nil_append] at h ⊢
    obtain ⟨h1, h2, h3⟩ := hlast h
    exact ⟨h1, h2, List.perm_append_comm.trans (List.Perm.of_eq h3)⟩
  · subst hb
    rw [List.append_nil] at h ⊢
    obtain ⟨h1, h2, h3⟩ := hlast h
    exact ⟨h2, h1, List.Perm.of_eq h3⟩
  · exact ⟨ha, hb, List.Perm.refl _⟩

/-- **Two sides, both with nodes on them, and every node on one of them.** -/
theorem always_groupsOf {n : ℕ} (hn : 2 ≤ n) : Always (groupsOf n) fun groups =>
    ∃ a b, groups = [a, b] ∧ a ≠ [] ∧ b ≠ [] ∧ a ++ b ~ List.range' 1 n := by
  refine always_bind (always_any draw) fun d _ => always_ite (fun _ => ?_) fun _ => ?_
  · refine always_bind (always_any draw) fun v _ => always_pure ⟨_, _, rfl, List.cons_ne_nil _ _, ?_, ?_⟩
    · -- there is another node than the victim
      have hv := Nat.mod_lt v (show 0 < n by omega)
      rw [Ne, List.filter_eq_nil_iff]
      intro hall
      have hvictim : ∀ x, 1 ≤ x → x ≤ 2 → x = 1 + v % n := fun x h1 h2 =>
        of_not_not fun hx => hall x (List.mem_range'_1.mpr ⟨h1, by omega⟩) (decide_eq_true hx)
      have h1 := hvictim 1 (Nat.le_refl _) (by omega)
      have h2 := hvictim 2 (by omega) (Nat.le_refl _)
      omega
    · have hv := Nat.mod_lt v (show 0 < n by omega)
      have hmem : 1 + v % n ∈ List.range' 1 n := List.mem_range'_1.mpr ⟨by omega, by omega⟩
      have hfilter : (List.range' 1 n).filter (· ≠ 1 + v % n) = (List.range' 1 n).erase (1 + v % n) := by
        rw [List.Nodup.erase_eq_filter List.nodup_range']
        exact List.filter_congr fun x _ => by rw [Bool.eq_iff_iff, decide_eq_true_iff, bne_iff_ne]
      rw [hfilter]
      exact (List.perm_cons_erase hmem).symm
  · refine always_bind (always_split _) fun s hs => always_pure ?_
    obtain ⟨h1, h2, h3⟩ := balance_spec (a := s.1) (b := s.2) (by rw [hs.length_eq, List.length_range']; exact hn)
    exact ⟨_, _, rfl, h1, h2, h3.trans hs⟩

/-- One of the levels. -/
theorem getD_mod_mem {α : Type} {l : List α} (hl : l ≠ []) (d : ℕ) (v : α) : l.getD (d % l.length) v ∈ l := by
  have hlt : d % l.length < l.length := Nat.mod_lt d (List.length_pos_of_ne_nil hl)
  rw [List.getD_eq_getElem?_getD, List.getElem?_eq_getElem hlt]
  exact List.getElem_mem hlt

theorem always_newEvent {n : ℕ} (hn : 2 ≤ n) (t : ℕ) : Always (newEvent n t) fun ev => ev.atMs = t ∧ ev.Sound n := by
  have hdrop : ∀ p ∈ dropLevels, 0 ≤ p ∧ p < 1 := by decide +kernel
  have hreorder : ∀ p ∈ reorderLevels, 0 ≤ p ∧ p < 1 := by decide +kernel
  have hlatency : ∀ k ∈ latencyLevels, max 1 (k / 4) ≤ k := by decide
  refine always_bind (always_any draw) fun d _ => ?_
  dsimp only
  refine always_ite (fun _ => ?_) fun _ => always_ite (fun _ => ?_) fun _ => always_ite (fun _ => ?_) fun _ =>
    always_ite (fun _ => ?_) fun _ => always_ite (fun _ => ?_) fun _ => always_ite (fun _ => ?_) fun _ =>
    always_ite (fun _ => ?_) fun _ => ?_
  · exact always_bind (always_groupsOf hn) fun groups hg => always_pure ⟨rfl, hg⟩
  · exact always_pure ⟨rfl, trivial⟩
  · exact always_bind (always_any draw) fun level _ =>
      always_pure ⟨rfl, hdrop _ (getD_mod_mem (l := dropLevels) (List.cons_ne_nil _ _) level 0)⟩
  · refine always_bind (always_any draw) fun level _ => ?_
    have hk := hlatency _ (getD_mod_mem (l := latencyLevels) (List.cons_ne_nil _ _) level 0)
    refine always_bind (always_pickFrom (le_max_left 1 _)) fun m hm => always_pure ⟨rfl, hm.1, hm.2.trans hk⟩
  · exact always_bind (always_any draw) fun level _ => always_bind (always_any _) fun extra _ =>
      always_pure ⟨rfl, hreorder _ (getD_mod_mem (l := reorderLevels) (List.cons_ne_nil _ _) level 0)⟩
  · exact always_pure ⟨rfl, trivial⟩
  · exact always_pure ⟨rfl, trivial⟩
  · exact always_pure ⟨rfl, trivial⟩

/-! ## 3. The schedule -/

/-- If the event is a crash, a restart is scheduled half a second to three seconds later, unless the
    window ends first. -/
def Recovered (endMs : ℕ) (events : List FaultEvent) (ev : FaultEvent) : Prop :=
  ev.kind = .crash ∨ ev.kind = .leaderKill → ∃ d, 500 ≤ d ∧ d ≤ 3000 ∧
    (ev.atMs + d < endMs → ∃ back ∈ events, back.kind = .restart ∧ back.atMs = ev.atMs + d)

theorem Recovered.mono {endMs : ℕ} {events events' : List FaultEvent} {ev : FaultEvent}
    (h : Recovered endMs events ev) (hsub : events ⊆ events') : Recovered endMs events' ev := by
  intro hk
  obtain ⟨d, h1, h2, hback⟩ := h hk
  refine ⟨d, h1, h2, fun hlt => ?_⟩
  obtain ⟨back, hmem, hb⟩ := hback hlt
  exact ⟨back, hsub hmem, hb⟩

theorem always_recovery (endMs : ℕ) (ev : FaultEvent) : Always (recovery endMs ev) fun back =>
    Recovered endMs back ev ∧ ∀ e ∈ back, e.kind = .restart ∧ ev.atMs ≤ e.atMs ∧ e.atMs < endMs := by
  unfold recovery
  refine always_ite (fun hk => ?_) fun hk => always_pure ⟨fun h => absurd h hk, fun e he => (List.not_mem_nil he).elim⟩
  refine always_bind (always_pickFrom (by omega)) fun d hd => always_pure ?_
  split_ifs with hlt
  · refine ⟨fun _ => ⟨d, hd.1, hd.2, fun _ => ⟨_, List.mem_singleton_self _, rfl, rfl⟩⟩, fun e he => ?_⟩
    rw [List.mem_singleton.mp he]
    exact ⟨rfl, Nat.le_add_right _ _, hlt⟩
  · exact ⟨fun _ => ⟨d, hd.1, hd.2, fun h => absurd h hlt⟩, fun e he => (List.not_mem_nil he).elim⟩

/-- **The loop ends**, and all its events are in the window, sound and recovered from. -/
theorem always_eventsFrom {n : ℕ} (hn : 2 ≤ n) (endMs : ℕ) : ∀ fuel t, endMs ≤ t + fuel →
    Always (eventsFrom n endMs fuel t) fun r => ∃ l, r = some l ∧ ∀ ev ∈ l,
      t ≤ ev.atMs ∧ ev.atMs < endMs ∧ ev.Sound n ∧ Recovered endMs l ev
  | fuel, t, hfuel => by
      unfold eventsFrom
      refine always_ite (fun hlt => ?_) fun _ => always_pure ⟨[], rfl, fun ev hev => (List.not_mem_nil hev).elim⟩
      cases fuel with
      | zero => omega
      | succ k =>
          refine always_bind (always_newEvent hn t) fun ev hev => always_bind (always_recovery endMs ev) fun back hb =>
            always_bind (always_pickFrom (by omega)) fun gap hgap =>
            always_bind (always_eventsFrom hn endMs k (t + gap) (by omega)) fun rest hrest => always_pure ?_
          obtain ⟨l, rfl, hl⟩ := hrest
          refine ⟨ev :: (back ++ l), rfl, fun e he => ?_⟩
          rcases List.mem_cons.mp he with rfl | he
          · refine ⟨hev.1.ge, hev.1 ▸ hlt, hev.2, hb.1.mono fun x hx => ?_⟩
            exact List.mem_cons_of_mem _ (List.mem_append_left l hx)
          · rcases List.mem_append.mp he with he | he
            · obtain ⟨hk, hle, hend⟩ := hb.2 e he
              refine ⟨hev.1 ▸ hle, hend, ?_, fun hc => ?_⟩
              · unfold FaultEvent.Sound
                rw [hk]
                trivial
              · rw [hk] at hc
                rcases hc with hc | hc <;> cases hc
            · obtain ⟨hle, hend, hsound, hrec⟩ := hl e he
              refine ⟨by omega, hend, hsound, hrec.mono fun x hx => ?_⟩
              exact List.mem_cons_of_mem _ (List.mem_append_right back hx)

theorem pickAny_mem (l : List NodeId) (r : Draws) {id : NodeId} (hid : (pickAny l r).1 = some id) : id ∈ l := by
  unfold pickAny at hid
  split_ifs at hid with hnil
  · cases hid
  · exact List.mem_of_getElem? hid

/-- An event does nothing to the harness, or what one act of a driver does. -/
theorem applyFaultEvent_act {M : Type} (A : Machine M) (O : SimOptions) (h : Harness M) (ev : FaultEvent) (r : Draws) :
    (applyFaultEvent A O h ev r).1 = h ∨ ∃ d, h.act A O d = some (applyFaultEvent A O h ev r).1 := by
  have hpick : ∀ {l : List NodeId} {f : NodeId → Harness M}, (∀ id ∈ l, ∃ d, h.act A O d = some (f id)) →
      ((pickAny l r).1.map f).getD h = h ∨ ∃ d, h.act A O d = some (((pickAny l r).1.map f).getD h) := by
    intro l f hf
    cases hp : (pickAny l r).1 with
    | none => exact .inl rfl
    | some id => exact .inr (hf id (pickAny_mem l r hp))
  unfold applyFaultEvent
  cases ev.kind with
  | partition => exact .inr ⟨.control (.partition ev.groups), rfl⟩
  | heal => exact .inr ⟨.control .heal, rfl⟩
  | setDrop => exact .inr ⟨.control (.setDrop ev.probability), rfl⟩
  | setLatency => exact .inr ⟨.control (.setLatency ev.latencyMinMs ev.latencyMaxMs), rfl⟩
  | setReorder => exact .inr ⟨.control (.setReorder ev.probability ev.reorderExtraMs), rfl⟩
  | crash => exact hpick fun id hid => ⟨.crash id, if_pos (List.mem_filter.mp hid).1⟩
  | restart => exact hpick fun id hid => ⟨.restart id, if_pos (List.mem_filter.mp hid).1⟩
  | leaderKill => exact .inr ⟨.killLeader, rfl⟩

theorem always_generateFaultSchedule {n : ℕ} (hn : 2 ≤ n) (startMs endMs : ℕ) :
    Always (generateFaultSchedule n startMs endMs) fun r => ∃ events, r = some events ∧
      events.Pairwise (fun a b => a.atMs ≤ b.atMs) ∧
      ∀ ev ∈ events, startMs ≤ ev.atMs ∧ ev.atMs < endMs ∧ ev.Sound n ∧ Recovered endMs events ev := by
  refine always_bind (always_any _) fun d _ =>
    always_bind (always_eventsFrom hn endMs endMs (startMs + d) (Nat.le_add_left _ _)) fun r hr => always_pure ?_
  obtain ⟨l, rfl, hl⟩ := hr
  have hperm : sortEvents l ~ l := List.mergeSort_perm l _
  refine ⟨sortEvents l, rfl, ?_, fun ev hev => ?_⟩
  · have hsorted : (sortEvents l).Pairwise fun a b => decide (a.atMs ≤ b.atMs) = true := by
      refine List.pairwise_mergeSort (fun a b c hab hbc => ?_) (fun a b => ?_) l
      · simp only [decide_eq_true_eq] at *
        omega
      · simp only [Bool.or_eq_true, decide_eq_true_eq]
        omega
    exact hsorted.imp fun h => of_decide_eq_true h
  · obtain ⟨hle, hend, hsound, hrec⟩ := hl ev (hperm.mem_iff.mp hev)
    exact ⟨by omega, hend, hsound, hrec.mono hperm.symm.subset⟩

/-- **Every fault schedule makes sense.** Whatever is drawn, the schedule is generated; its events are in
    the order of their times and in the window; every partition has two sides, with a node on each and
    every node on one of them, every probability is below one and every latency at least a millisecond;
    every crash has its restart, unless the window ends first; and what an event does to a harness, a driver
    may do. -/
theorem schedule_sound {n : ℕ} (hn : 2 ≤ n) (startMs endMs : ℕ) (seed : Draws) {M : Type} (A : Machine M)
    (O : SimOptions) : ∃ events, (generateFaultSchedule n startMs endMs seed).1 = some events ∧
      events.Pairwise (fun a b => a.atMs ≤ b.atMs) ∧
      ∀ ev ∈ events, startMs ≤ ev.atMs ∧ ev.atMs < endMs ∧ ev.Sound n ∧ Recovered endMs events ev ∧
        ∀ h r, (applyFaultEvent A O h ev r).1 = h ∨ ∃ d, h.act A O d = some (applyFaultEvent A O h ev r).1 := by
  obtain ⟨events, he, hsorted, hall⟩ := always_generateFaultSchedule hn startMs endMs seed
  refine ⟨events, he, hsorted, fun ev hev => ?_⟩
  obtain ⟨hstart, hend, hsound, hrec⟩ := hall ev hev
  exact ⟨hstart, hend, hsound, hrec, fun h r => applyFaultEvent_act A O h ev r⟩

def someDraws : Draws := fun k =>
  [100, 70, 1500, 0, 0, 80, 0, 1, 0, 1, 1, 100, 40, 2, 800, 95, 2500, 300].getD k 0

/-- Five events: a crash with its restart, a partition and a change of the drop rate in between, and a
    leader that is killed too late to be restarted in the window. -/
theorem schedule_sound_mixed : (generateFaultSchedule 5 0 4000 someDraws).1 =
      some [{ atMs := 100, kind := .crash }, { atMs := 800, kind := .partition, groups := [[1, 3], [2, 4, 5]] },
        { atMs := 1600, kind := .setDrop, probability := 5404319552844595 / 36028797018963968 },
        { atMs := 2100, kind := .restart }, { atMs := 3100, kind := .leaderKill }] ∧
    ∃ events, (generateFaultSchedule 5 0 4000 someDraws).1 = some events ∧
      events.Pairwise (fun a b => a.atMs ≤ b.atMs) ∧ ∀ ev ∈ events, ev.Sound 5 ∧ Recovered 4000 events ev := by
  have hdrawn : (eventsFrom 5 4000 4000 100 fun k => someDraws (k + 1)).1 =
      some [{ atMs := 100, kind := .crash }, { atMs := 2100, kind := .restart },
        { atMs := 800, kind := .partition, groups := [[1, 3], [2, 4, 5]] },
        { atMs := 1600, kind := .setDrop, probability := 5404319552844595 / 36028797018963968 },
        { atMs := 3100, kind := .leaderKill }] := by decide +kernel
  have hsort : (generateFaultSchedule 5 0 4000 someDraws).1 =
      (eventsFrom 5 4000 4000 100 fun k => someDraws (k + 1)).1.map sortEvents := rfl
  obtain ⟨events, he, hsorted, hall⟩ := schedule_sound (n := 5) (by decide) 0 4000 someDraws
    (⟨(), fun _ _ => ((), [])⟩ : Machine Unit) { raft := List.replicate 5 {} }
  refine ⟨?_, events, he, hsorted, fun ev hev => ⟨(hall ev hev).2.2.1, (hall ev hev).2.2.2.1⟩⟩
  rw [hsort, hdrawn]
  simp [sortEvents, List.mergeSort, List.MergeSort.Internal.splitInTwo]

end Rsm.Sim
