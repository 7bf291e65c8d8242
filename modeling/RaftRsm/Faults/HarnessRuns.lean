/-
  File:      RaftRsm/Faults/HarnessRuns.lean
  Subject:   EVERY RUN OF THE HARNESS IS A RUN OF THE CLUSTER, and what its monitors can say of it.

  Whatever the driver does (crashes, restarts, partitions, loss, latency, client requests, in any order
  and for any draws), the cores of the harness are those of a reachable world of `Cluster.system`. What
  the monitors are fed is kept as facts about the abstract replicated log, which only grows, so that it
  can be compared with what they are fed later.

  * `Told` -- what the monitors have been told is true of the abstract state, and a win that the commit
    monitor objects to came late (`Late`);
  * `Inv` -- the cores are reachable, what is on the wire may be delivered, the machines are where their
    cores take them;
  * `Inv.call`, `Inv.serve`, `Inv.deliver`, `Inv.act` -- the calls and the acts of the driver keep this,
    over storage that survives; `inv_drive` -- so it holds in every run.
-/
import RaftRsm.Faults.Harness
import RaftRsm.Raft.HandOff

namespace Rsm.Sim

open Rsm.Rpc Rsm.Raft Rsm.Client Rsm.Storage Process Replication

/-! ## 1. The cluster of a harness -/

theorem SimOptions.mem_peers (O : SimOptions) (n p : NodeId) : p ∈ O.peers n ↔ p ∈ O.ids ∧ p ≠ n := by
  unfold SimOptions.peers
  rw [List.mem_filter, decide_eq_true_iff]

/-- The members a harness is built with. -/
def SimOptions.members (O : SimOptions) : Cluster where
  ids := O.ids.toFinset
  peers := O.peers
  rng id := O.rng id 0
  nodup n := (List.nodup_range').filter _
  mem_peers {n} _ p := by rw [O.mem_peers, List.mem_toFinset]

variable {M : Type} {A : Machine M} {O : SimOptions} {a b a₀ b₀ : Abs} {C : Cluster}
  {P Q : (NodeId → RaftCore) → Prop}

namespace Harness

/-- The cores, each between two calls. -/
def cores (h : Harness M) (id : NodeId) : RaftCore := (h.nodes id).core

end Harness

/-! ## 2. Chosen prefixes -/

/-- Every entry of `P` is chosen, at its place. -/
def AllChosen (C : Cluster) (a : Abs) (P : List LogEntry) : Prop :=
  ∀ i e, P[i]? = some e → Chosen C.setting a i e

theorem AllChosen.mono {P : List LogEntry} (h : AllChosen C a P) (hA : AckInv C.setting a) (hab : Le a b) :
    AllChosen C b P := fun i e he => (h i e he).mono hA hab

/-- Chosen prefixes of one length are the same. -/
theorem AllChosen.unique {P Q : List LogEntry} (hI : Replication.Inv C.setting a) (hP : AllChosen C a P)
    (hQ : AllChosen C a Q) (hlen : P.length = Q.length) : P = Q := by
  refine List.ext_getElem? fun i => ?_
  rcases Nat.lt_or_ge i P.length with hi | hi
  · have hj : i < Q.length := hlen ▸ hi
    rw [List.getElem?_eq_getElem hi, List.getElem?_eq_getElem hj]
    exact congrArg some (chosen_unique hI (hP i _ (List.getElem?_eq_getElem hi)) (hQ i _ (List.getElem?_eq_getElem hj)))
  · rw [List.getElem?_eq_none hi, List.getElem?_eq_none (hlen ▸ hi)]

/-- Of two chosen prefixes the shorter begins the longer. -/
theorem AllChosen.le {P Q : List LogEntry} (hI : Replication.Inv C.setting a) (hP : AllChosen C a P)
    (hQ : AllChosen C a Q) (hlen : P.length ≤ Q.length) : P <+: Q := by
  have htake : P = Q.take P.length := by
    refine hP.unique hI (fun i e he => ?_) (by rw [List.length_take, Nat.min_eq_left hlen])
    have hi := (List.getElem?_eq_some_iff.mp he).1
    rw [List.length_take] at hi
    rw [List.getElem?_take_of_lt (by omega)] at he
    exact hQ i e he
  rw [htake]
  exact List.take_prefix _ _

/-! ## 3. What the monitors have been told -/

/-- An apply is that of a chosen entry, with the result it has behind the entries before it. -/
def ApplyOk (C : Cluster) (A : Machine M) (a : Abs) (c : Apply) : Prop :=
  ∃ P e, AllChosen C a (P ++ [e]) ∧ c.index = P.length + 1 ∧ c.entry = entryImage e ∧
    c.resultFp = fnv1a (A.apply (A.after (P.map LogEntry.command)) e.command).2

/-- A look at a leader is one at the beginning of the log of its term. -/
def LookOk (a : Abs) (c : Look) : Prop :=
  c.isLeader = true → a.leader c.term = some c.node ∧ ∃ L, c.log = logImage L ∧ L <+: a.llog c.term

/-- **A look at a commit index**: it was that of `m` at a moment `x`, which an abstract state up to `a`
    explains. -/
structure Seen (C : Cluster) (P : (NodeId → RaftCore) → Prop) (a : Abs) (m : NodeId) (c : ℕ) (log : LogImage)
    (x : NodeId → RaftCore) : Prop where
  past : P x
  explained : ∃ b, C.Explains b (Cluster.resting x) ∧ Le b a
  index : c = (x m).commitIndex
  log : log = logImage (x m).log

/-- The moments of the looks are explained up to `a₀`; a win is that of the log which the winner had. -/
def ObservationOk (C : Cluster) (P : (NodeId → RaftCore) → Prop) (a₀ a : Abs) : Observation → Prop
  | .commit node c log => ∃ x, Seen C P a₀ node c log x
  | .electionWin node term log => a.leader term = some node ∧ log = logImage (a.elog term)

/-- **A win that comes late**: at a moment before it another node was in a later term already, and had
    committed what the winner does not have. -/
def Late (P : (NodeId → RaftCore) → Prop) (node : NodeId) (term : ℕ) (log : LogImage) : Prop :=
  ∃ x m, P x ∧ term < (x m).currentTerm ∧ term ∉ (x node).out.filterMap Output.won ∧
    ¬ (logImage (x m).log).take (x m).commitIndex <+: log

/-- **What the monitors have been told is true**, of moments `P` that are explained up to `a₀` and of the
    present that `a` explains. -/
structure Told (C : Cluster) (A : Machine M) (P : (NodeId → RaftCore) → Prop) (a₀ a : Abs) (h : Harness M) :
    Prop where
  wins : ∃ wins, h.electionSafety = electionMonitor wins ∧ ∀ T n, (T, n) ∈ wins → a.leader T = some n
  looks : ∃ looks, h.appendOnly = appendOnlyMonitor looks ∧ (∀ c ∈ looks, LookOk a c) ∧
    looks.Pairwise fun c d => c.isLeader = true → d.isLeader = true → d.term = c.term → c.log <+: d.log
  applies : ∃ applies, h.applied = appliedMonitor applies ∧ ∀ c ∈ applies, ApplyOk C A a c
  commits : ∃ obs, h.commit = monitor obs ∧ (∀ o ∈ obs, ObservationOk C P a₀ a o) ∧
    ∀ before node term log after, obs = before ++ .electionWin node term log :: after →
      committedRecord before <+: log ∨ Late P node term log
  sweep : h.sweepViolations = []

theorem logImage_begins {L L' : List LogEntry} (h : L <+: L') : logImage L <+: logImage L' := h.map _

theorem Seen.covered {m : NodeId} {c : ℕ} {log : LogImage} {x : NodeId → RaftCore} (h : Seen C P a m c log x) :
    C.Covered a (x m).currentTerm (x m).log c := by
  obtain ⟨b, hE, hba⟩ := h.explained
  rw [h.index]
  exact (hE.mid m).commit.mono (hE.mid m).inv.ack hba (Nat.le_refl _)

theorem ObservationOk.mono {o : Observation} (h : ObservationOk C P a₀ a o) (hPQ : ∀ x, P x → Q x) (h₀ : Le a₀ b₀)
    (hab : Le a b) : ObservationOk C Q b₀ b o := by
  cases o with
  | commit node c log =>
      obtain ⟨x, hP, ⟨b', hE, hle⟩, hc, hlog⟩ := h
      exact ⟨x, hPQ x hP, ⟨b', hE, hle.trans h₀⟩, hc, hlog⟩
  | electionWin node term log =>
      obtain ⟨hled, hlog⟩ := h
      exact ⟨hab.leader hled, by rw [hab.elog hled]; exact hlog⟩

/-- What is true stays true. -/
theorem Told.mono {h : Harness M} (ht : Told C A P a₀ a h) (hA : AckInv C.setting a) (hPQ : ∀ x, P x → Q x)
    (h₀ : Le a₀ b₀) (hab : Le a b) : Told C A Q b₀ b h := by
  obtain ⟨⟨wins, hw, hwins⟩, ⟨looks, hl, hlooks, hkept⟩, ⟨applies, ha, happ⟩, ⟨obs, ho, hobs, hwon⟩, hsweep⟩ := ht
  refine ⟨⟨wins, hw, fun T n hTn => hab.leader (hwins T n hTn)⟩, ⟨looks, hl, fun c hc hlead => ?_, hkept⟩,
    ⟨applies, ha, fun c hc => ?_⟩, ⟨obs, ho, fun o hmem => (hobs o hmem).mono hPQ h₀ hab, ?_⟩, hsweep⟩
  · obtain ⟨hled, L, hL, hpre⟩ := hlooks c hc hlead
    exact ⟨hab.leader hled, L, hL, hpre.trans (hab.llog hled)⟩
  · obtain ⟨P, e, hP, hrest⟩ := happ c hc
    exact ⟨P, e, hP.mono hA hab, hrest⟩
  · intro before node term log after heq
    refine (hwon before node term log after heq).imp_right fun ⟨x, m, hP, hrest⟩ => ⟨x, m, hPQ x hP, hrest⟩

/-- The monitors of `h` are those of `h'`. -/
structure SameMonitors (h h' : Harness M) : Prop where
  electionSafety : h'.electionSafety = h.electionSafety
  appendOnly : h'.appendOnly = h.appendOnly
  applied : h'.applied = h.applied
  commit : h'.commit = h.commit
  sweep : h'.sweepViolations = h.sweepViolations

theorem Told.congr {h h' : Harness M} (ht : Told C A P a₀ a h) (hs : SameMonitors h h') :
    Told C A P a₀ a h' := by
  obtain ⟨h1, h2, h3, h4, h5⟩ := hs
  refine ⟨?_, ?_, ?_, ?_, ?_⟩
  · rw [h1]; exact ht.wins
  · rw [h2]; exact ht.looks
  · rw [h3]; exact ht.applies
  · rw [h4]; exact ht.commits
  · rw [h5]; exact ht.sweep

theorem appliedMonitor_snoc (applies : List Apply) (c : Apply) :
    appliedMonitor (applies ++ [c]) = (appliedMonitor applies).observeApply c.node c.index c.entry c.resultFp :=
  List.foldl_concat _ _ _ _

theorem appendOnlyMonitor_snoc (looks : List Look) (c : Look) :
    appendOnlyMonitor (looks ++ [c]) = (appendOnlyMonitor looks).observe c.node c.isLeader c.term c.log :=
  List.foldl_concat _ _ _ _

theorem monitor_snoc (obs : List Observation) (o : Observation) : monitor (obs ++ [o]) = (monitor obs).observe o :=
  List.foldl_concat _ _ _ _

/-- One more apply. -/
theorem Told.applied {h : Harness M} (ht : Told C A P a₀ a h) {node : NodeId} {index fp : ℕ} {entry : EntryImage}
    (hc : ApplyOk C A a ⟨node, index, entry, fp⟩) :
    ∃ applies, h.applied.observeApply node index entry fp = appliedMonitor applies ∧
      ∀ c ∈ applies, ApplyOk C A a c := by
  obtain ⟨applies, ha, happ⟩ := ht.applies
  refine ⟨applies ++ [⟨node, index, entry, fp⟩], by rw [appliedMonitor_snoc, ← ha], fun c hmem => ?_⟩
  rcases List.mem_append.mp hmem with hmem | hmem
  · exact happ c hmem
  · rw [List.mem_singleton.mp hmem]
    exact hc

/-- One more observation behind the others. -/
theorem split_snoc {α : Type} {l before after : List α} {x y : α} (h : l ++ [x] = before ++ y :: after) :
    (before = l ∧ y = x ∧ after = []) ∨ ∃ after', after = after' ++ [x] ∧ l = before ++ y :: after' := by
  rcases List.eq_nil_or_concat' after with rfl | ⟨after', z, rfl⟩
  · obtain ⟨rfl, hlast⟩ := List.append_inj' h rfl
    exact .inl ⟨rfl, (List.singleton_inj.mp hlast).symm, rfl⟩
  · rw [← List.cons_append, ← List.append_assoc] at h
    obtain ⟨rfl, hlast⟩ := List.append_inj' h rfl
    exact .inr ⟨after', by rw [List.singleton_inj.mp hlast], rfl⟩

/-- **A win**: what was seen committed is in the winner's log, unless the win comes late. -/
theorem won_or_late (hI : Replication.Inv C.setting a) (h₀ : Le a₀ a) {before : List Observation} {node : NodeId}
    {term : ℕ} {log : LogImage} (hobs : ∀ o ∈ before, ObservationOk C P a₀ a o)
    (hwin : ObservationOk C P a₀ a (.electionWin node term log)) (hfresh : a₀.leader term ≠ some node) :
    committedRecord before <+: log ∨ Late P node term log := by
  by_cases hall : ∀ p ∈ before.filterMap Observation.prefixOf, p <+: log
  · exact .inl (record_begins hall)
  · simp only [not_forall] at hall
    obtain ⟨p, hp, hne⟩ := hall
    obtain ⟨m, c, l, hmem, hc, rfl⟩ := mem_prefixes.mp hp
    obtain ⟨x, hP, ⟨b, hE, hb₀⟩, rfl, rfl⟩ := hobs _ hmem
    obtain ⟨hled, hlog⟩ := hwin
    refine .inr ⟨x, m, hP, ?_, fun hT => hfresh (hb₀.leader ((hE.mid node).led_of_won hT)), hne⟩
    have hcov : C.Covered b (x m).currentTerm (x m).log (x m).commitIndex := (hE.mid m).commit
    obtain ⟨-, hzero | ⟨U, k, hU, hk, hcom, hpre⟩⟩ := hcov
    · rw [hzero] at hne
      exact absurd List.nil_prefix hne
    · refine lt_of_lt_of_le (Nat.lt_of_not_le fun hle => ?_) hU
      obtain ⟨⟨l, hl⟩, hlen⟩ := hcom.led (hE.mid m).inv.ack
      rcases Nat.eq_or_lt_of_le hle with rfl | hlt
      · -- the leader that committed would be the winner, which had not won yet
        have hsame := (h₀.leader (hb₀.leader hl)).symm.trans hled
        exact hfresh (hb₀.leader (hl.trans hsame))
      · -- a winner of a later term has what was committed
        refine hne ?_
        have hcomplete := leader_complete hI (hcom.mono (hE.mid m).inv.ack (hb₀.trans h₀)) term node hlt hled
        rw [hlog]
        unfold logImage
        rw [← List.map_take]
        refine logImage_begins (List.IsPrefix.trans ?_ hcomplete)
        refine List.prefix_of_prefix_length_le (hpre.trans ((hb₀.trans h₀).llog hl)) (List.take_prefix _ _) ?_
        have := ((hb₀.trans h₀).llog hl).length_le
        rw [List.length_take, List.length_take]
        omega

/-! ## 4. The invariant of a run -/

/-- A message that may be delivered: sent by a member, or a client's. -/
def Harness.Sent (C : Cluster) (h : Harness M) (f : InFlight) : Prop :=
  C.Allowed h.cores f.wire.dest (.handle f.wire.sender f.wire.msg)

/-- **What holds of a harness between two calls**, but for the machine of `id`, which has taken `done`
    of the entries that its core has handed over. -/
structure During (A : Machine M) (O : SimOptions) (P : (NodeId → RaftCore) → Prop) (a₀ a : Abs) (id : NodeId)
    (done : ℕ) (h : Harness M) : Prop where
  reachable : O.members.system.Reachable (Cluster.resting h.cores)
  explained : O.members.Explains a (Cluster.resting h.cores)
  told : Told O.members A P a₀ a h
  wires : ∀ f ∈ h.net.queue, h.Sent O.members f
  machine : (h.nodes id).sm = A.after (((h.cores id).sm.take done).map LogEntry.command)
  others : ∀ n, n ≠ id → (h.nodes n).sm = A.after ((h.cores n).sm.map LogEntry.command)

/-- **The invariant of a run.** -/
structure Inv (A : Machine M) (O : SimOptions) (P : (NodeId → RaftCore) → Prop) (h : Harness M) : Prop where
  reachable : O.members.system.Reachable (Cluster.resting h.cores)
  told : ∃ a, O.members.Explains a (Cluster.resting h.cores) ∧ Told O.members A P a a h
  wires : ∀ f ∈ h.net.queue, h.Sent O.members f
  machine : ∀ n, (h.nodes n).sm = A.after ((h.cores n).sm.map LogEntry.command)

/-- Only the services and the network have changed, and what is new on the wire is from or for clients. -/
structure Quietly (h h' : Harness M) : Prop where
  core : ∀ n, (h'.nodes n).core = (h.nodes n).core
  sm : ∀ n, (h'.nodes n).sm = (h.nodes n).sm
  monitors : SameMonitors h h'
  queue : ∀ f ∈ h'.net.queue, f ∈ h.net.queue ∨ termOf f.wire.msg = none

theorem Quietly.refl (h : Harness M) : Quietly h h :=
  ⟨fun _ => rfl, fun _ => rfl, ⟨rfl, rfl, rfl, rfl, rfl⟩, fun _ hf => .inl hf⟩

theorem SameMonitors.trans {h₁ h₂ h₃ : Harness M} (h : SameMonitors h₁ h₂) (h' : SameMonitors h₂ h₃) :
    SameMonitors h₁ h₃ :=
  ⟨h'.1.trans h.1, h'.2.trans h.2, h'.3.trans h.3, h'.4.trans h.4, h'.5.trans h.5⟩

theorem Quietly.trans {h₁ h₂ h₃ : Harness M} (h : Quietly h₁ h₂) (h' : Quietly h₂ h₃) : Quietly h₁ h₃ where
  core n := (h'.core n).trans (h.core n)
  sm n := (h'.sm n).trans (h.sm n)
  monitors := h.monitors.trans h'.monitors
  queue f hf := (h'.queue f hf).elim (h.queue f) .inr

theorem Quietly.cores {h h' : Harness M} (hq : Quietly h h') : h'.cores = h.cores := funext hq.core

/-- What is on the wire after a send. -/
theorem mem_queue_send {net : SimNetwork} {sender dest : NodeId} {m : Message} {now : ℕ} {f : InFlight}
    (hf : f ∈ (net.send sender dest m now).queue) : f ∈ net.queue ∨ f.wire = ⟨sender, dest, m⟩ := by
  rcases net.queue_send sender dest m now with ⟨hq, -⟩ | ⟨-, d, -, hq, -⟩
  · exact .inl (hq ▸ hf)
  · rw [hq] at hf
    exact (mem_emplace.mp hf).symm.imp_right fun heq => by rw [heq]

theorem quietly_send (h : Harness M) (id dest : NodeId) {m : Message} (hm : termOf m = none) :
    Quietly h { h with net := h.net.send id dest m h.now } := by
  refine ⟨fun _ => rfl, fun _ => rfl, ⟨rfl, rfl, rfl, rfl, rfl⟩, fun f hf => ?_⟩
  exact (mem_queue_send hf).imp_right fun hw => by rw [hw]; exact hm

theorem quietly_sendReplies (id : NodeId) : ∀ (replies : List (NodeId × ClientReply)) (h : Harness M),
    Quietly h (h.sendReplies id replies)
  | [], h => Quietly.refl h
  | q :: replies, h => (quietly_send h id q.1 rfl).trans (quietly_sendReplies id replies _)

/-- The cores, and the machines, if one node has been put in. -/
theorem cores_put {h h' : Harness M} {id : NodeId} {node : NodeRt M} (hn : h'.nodes = Function.update h.nodes id node) :
    h'.cores = Function.update h.cores id node.core := by
  funext n
  unfold Harness.cores
  rw [hn]
  by_cases hne : n = id
  · subst hne
    rw [Function.update_self, Function.update_self]
  · rw [Function.update_of_ne hne, Function.update_of_ne hne]

theorem cores_put_self {h h' : Harness M} {id : NodeId} {node : NodeRt M}
    (hn : h'.nodes = Function.update h.nodes id node) (hc : node.core = (h.nodes id).core) : h'.cores = h.cores := by
  rw [cores_put hn, hc]
  exact Function.update_eq_self id h.cores

theorem sm_put (h : Harness M) {h' : Harness M} (id : NodeId) {node : NodeRt M} (hn : h'.nodes = Function.update h.nodes id node)
    (n : NodeId) : (h'.nodes n).sm = if n = id then node.sm else (h.nodes n).sm := by
  rw [hn]
  split_ifs with hne
  · rw [hne, Function.update_self]
  · rw [Function.update_of_ne hne]

theorem quietly_service (h : Harness M) (id : NodeId) (svc : ClientService) :
    Quietly h (h.setNode id { h.nodes id with service := svc }) := by
  have hcores : Harness.cores (h.setNode id { h.nodes id with service := svc }) = h.cores := cores_put_self rfl rfl
  refine ⟨fun n => congrFun hcores n, fun n => ?_, ⟨rfl, rfl, rfl, rfl, rfl⟩, fun _ hf => .inl hf⟩
  rw [sm_put h id rfl]
  split_ifs with hn
  · rw [hn]
  · rfl

theorem quietly_answer (h : Harness M) (id : NodeId) (out : ClientService × List (NodeId × ClientReply)) :
    Quietly h (h.answer id out) :=
  (quietly_service h id out.1).trans (quietly_sendReplies id out.2 _)

theorem sent_client {h : Harness M} {f : InFlight} (hf : termOf f.wire.msg = none) : h.Sent C f := .inr hf

theorem Quietly.wires {h h' : Harness M} (hq : Quietly h h') (hw : ∀ f ∈ h.net.queue, h.Sent C f) :
    ∀ f ∈ h'.net.queue, h'.Sent C f := by
  intro f hf
  rcases hq.queue f hf with hf | hf
  · have hs := hw f hf
    unfold Harness.Sent at hs ⊢
    rw [hq.cores]
    exact hs
  · exact sent_client hf

section

variable {id : NodeId} {done : ℕ} {h h' : Harness M}

theorem During.quietly (hd : During A O P a₀ a id done h) (hq : Quietly h h') : During A O P a₀ a id done h' where
  reachable := by rw [hq.cores]; exact hd.reachable
  explained := by rw [hq.cores]; exact hd.explained
  told := hd.told.congr hq.monitors
  wires := hq.wires hd.wires
  machine := by rw [hq.sm, hq.cores]; exact hd.machine
  others n hn := by rw [hq.sm, hq.cores]; exact hd.others n hn

theorem Inv.quietly (hi : Inv A O P h) (hq : Quietly h h') : Inv A O P h' where
  reachable := by rw [hq.cores]; exact hi.reachable
  told := by
    obtain ⟨a, ha, ht⟩ := hi.told
    exact ⟨a, by rw [hq.cores]; exact ha, ht.congr hq.monitors⟩
  wires := hq.wires hi.wires
  machine n := by rw [hq.sm, hq.cores]; exact hi.machine n

/-- All entries handed over are chosen. -/
theorem During.chosen (hd : During A O P a₀ a id done h) (n : NodeId) : AllChosen O.members a (h.cores n).sm :=
  fun _ _ he => hd.explained.sm n he

theorem Machine.after_snoc (A : Machine M) (cmds : List Bytes) (c : Bytes) :
    A.after (cmds ++ [c]) = (A.apply (A.after cmds) c).1 := List.foldl_concat _ _ _ _

/-- The cores and what is on the wire stay. -/
theorem During.next (hd : During A O P a₀ a id done h) (hcores : h'.cores = h.cores) (hq : h'.net.queue = h.net.queue)
    (ht : Told O.members A P a₀ a h') {k : ℕ}
    (hm : (h'.nodes id).sm = A.after (((h.cores id).sm.take k).map LogEntry.command))
    (ho : ∀ n, n ≠ id → (h'.nodes n).sm = (h.nodes n).sm) : During A O P a₀ a id k h' where
  reachable := by rw [hcores]; exact hd.reachable
  explained := by rw [hcores]; exact hd.explained
  told := ht
  wires f hf := by
    have hs := hd.wires f (hq ▸ hf)
    unfold Harness.Sent at hs ⊢
    rw [hcores]
    exact hs
  machine := by rw [hcores]; exact hm
  others n hn := by rw [hcores, ho n hn]; exact hd.others n hn

/-- **An apply**: the machine takes the next entry, and the monitor is told the truth. -/
theorem During.apply (hd : During A O P a₀ a id done h) {e : LogEntry} (he : (h.cores id).sm[done]? = some e) :
    During A O P a₀ a id (done + 1) (h.onApply A id (done + 1) e) := by
  have hlt : done < (h.cores id).sm.length := (List.getElem?_eq_some_iff.mp he).1
  have htake : (h.cores id).sm.take (done + 1) = (h.cores id).sm.take done ++ [e] := by
    rw [List.take_add_one, he]
    rfl
  unfold Harness.onApply
  dsimp only
  rw [hd.machine]
  refine During.quietly ?_ (quietly_answer _ id _)
  refine hd.next ?_ ?_ ?_ ?_ fun n hn => ?_
  · exact cores_put_self rfl rfl
  · rfl
  · refine ⟨hd.told.wins, hd.told.looks, hd.told.applied ⟨(h.cores id).sm.take done, e, ?_, ?_, rfl, rfl⟩,
      hd.told.commits, hd.told.sweep⟩
    · rw [← htake]
      intro i f hf
      have hi := (List.getElem?_eq_some_iff.mp hf).1
      rw [List.length_take] at hi
      rw [List.getElem?_take_of_lt (by omega)] at hf
      exact hd.chosen id i f hf
    · rw [List.length_take, Nat.min_eq_left hlt.le]
  · rw [htake, List.map_append]
    refine (sm_put h id rfl id).trans ?_
    rw [if_pos rfl]
    exact (A.after_snoc _ _).symm
  · exact (sm_put h id rfl n).trans (if_neg hn)

/-- **A transition**: a win is told to two monitors. -/
theorem During.transition (hd : During A O P a₀ a id done h) (h₀ : Le a₀ a) {term : ℕ} {role : Role}
    {event : TransitionEvent} {log : InMemoryLog} (ho : Output.transition term role event log ∈ (h.cores id).out)
    (hfresh : ∀ T, (Output.transition term role event log).won = some T → a₀.leader T ≠ some id) :
    During A O P a₀ a id done (h.observe A id (.transition term role event log)) := by
  unfold Harness.observe
  dsimp only
  split_ifs with hrole
  · obtain ⟨hled, hlog⟩ := (hd.explained.mid id).out _ ho hrole
    refine ⟨hd.reachable, hd.explained, ?_, hd.wires, hd.machine, hd.others⟩
    obtain ⟨⟨wins, hw, hwins⟩, hl, ha, ⟨obs, hob, hobs, hwon⟩, hs⟩ := hd.told
    have hwin : ObservationOk O.members P a₀ a (.electionWin id term (logImage log)) := ⟨hled, by rw [hlog]⟩
    refine ⟨⟨wins ++ [(term, id)], ?_, fun T n hTn => ?_⟩, hl, ha,
      ⟨obs ++ [.electionWin id term (logImage log)], ?_, fun o hmem => ?_, ?_⟩, hs⟩
    · rw [electionMonitor_snoc, ← hw]
    · rcases List.mem_append.mp hTn with hTn | hTn
      · exact hwins T n hTn
      · cases List.mem_singleton.mp hTn
        exact hled
    · rw [monitor_snoc, ← hob]
      rfl
    · rcases List.mem_append.mp hmem with hmem | hmem
      · exact hobs o hmem
      · rw [List.mem_singleton.mp hmem]
        exact hwin
    · intro before node T l after heq
      rcases split_snoc heq with ⟨rfl, hx, -⟩ | ⟨after', -, rfl⟩
      · cases hx
        exact won_or_late (hd.explained.mid id).inv h₀ hobs hwin (hfresh _ (by rw [hrole]; rfl))
      · exact hwon before node T l after' rfl
  · exact hd

/-- A message goes to the network. -/
theorem During.send (hd : During A O P a₀ a id done h) (hid : id ∈ O.members.ids) {dest : NodeId} {m : Message}
    (ho : Output.send dest m ∈ (h.cores id).out) : During A O P a₀ a id done (h.observe A id (.send dest m)) := by
  refine ⟨hd.reachable, hd.explained, hd.told.congr ⟨rfl, rfl, rfl, rfl, rfl⟩, fun f hf => ?_, hd.machine, hd.others⟩
  rcases mem_queue_send hf with hf | hf
  · exact hd.wires f hf
  · unfold Harness.Sent
    rw [hf]
    exact .inl ⟨hid, ho⟩

/-- What a core has shown leaves the cores alone. -/
theorem cores_observe (h : Harness M) (id : NodeId) (o : Output) : (h.observe A id o).cores = h.cores := by
  cases o with
  | send dest m => rfl
  | transition term role event log =>
      unfold Harness.observe
      dsimp only
      split_ifs <;> rfl
  | apply index entry =>
      unfold Harness.observe Harness.onApply
      dsimp only
      rw [(quietly_answer _ id _).cores]
      exact cores_put_self (h := h) rfl rfl
  | _ => rfl

/-- **What a core has shown is taken up**, with as many applies as there are entries left. -/
theorem During.observe (hid : id ∈ O.members.ids) (h₀ : Le a₀ a) : ∀ (os : List Output) {done : ℕ} {h : Harness M},
    During A O P a₀ a id done h → (∀ o ∈ os, o ∈ (h.cores id).out) →
    (∀ T ∈ os.filterMap Output.won, a₀.leader T ≠ some id) →
    Raft.applied os = numbered done ((h.cores id).sm.drop done) →
    During A O P a₀ a id (h.cores id).sm.length (os.foldl (fun h o => h.observe A id o) h)
  | [], done, h, hd, _, _, happ => by
      have hnil : (h.cores id).sm.drop done = [] := by
        cases hs : (h.cores id).sm.drop done with
        | nil => rfl
        | cons e es =>
            rw [hs] at happ
            cases happ
      have hle := List.drop_eq_nil_iff.mp hnil
      refine ⟨hd.reachable, hd.explained, hd.told, hd.wires, ?_, hd.others⟩
      show (h.nodes id).sm = A.after (((h.cores id).sm.take (h.cores id).sm.length).map LogEntry.command)
      rw [List.take_length, ← List.take_of_length_le hle]
      exact hd.machine
  | o :: os, done, h, hd, hout, hfresh, happ => by
      have ho := hout o List.mem_cons_self
      have hlater : ∀ T ∈ os.filterMap Output.won, a₀.leader T ≠ some id := by
        intro T hT
        obtain ⟨x, hx, hw⟩ := List.mem_filterMap.mp hT
        exact hfresh T (List.mem_filterMap.mpr ⟨x, List.mem_cons_of_mem o hx, hw⟩)
      have hcores := cores_observe (A := A) h id o
      have hrest : ∀ x ∈ os, x ∈ ((h.observe A id o).cores id).out := by
        rw [hcores]
        exact fun x hx => hout x (List.mem_cons_of_mem o hx)
      rw [List.foldl_cons, ← hcores]
      -- a line that is no apply leaves the machine where it is
      have hskip : During A O P a₀ a id done (h.observe A id o) → Raft.applied os = Raft.applied (o :: os) →
          During A O P a₀ a id ((h.observe A id o).cores id).sm.length
            (os.foldl (fun h o => h.observe A id o) (h.observe A id o)) := by
        intro hd' hsame
        refine During.observe hid h₀ os hd' hrest hlater ?_
        rw [hsame, happ, hcores]
      cases o with
      | send dest m => exact hskip (hd.send hid ho) rfl
      | transition term role event log =>
          refine hskip (hd.transition h₀ ho fun T hT => ?_) rfl
          exact hfresh T (List.mem_filterMap.mpr ⟨_, List.mem_cons_self, hT⟩)
      | apply index entry =>
          cases hs : (h.cores id).sm.drop done with
          | nil =>
              rw [hs] at happ
              cases happ
          | cons e es =>
              rw [hs] at happ
              obtain ⟨heq, hnext⟩ := List.cons.inj happ
              cases heq
              have he : (h.cores id).sm[done]? = some entry := by
                have := congrArg (·[0]?) hs
                rw [List.getElem?_drop] at this
                exact this
              refine During.observe hid h₀ os (hd.apply he) hrest hlater ?_
              rw [hcores, ← List.drop_drop, hs]
              exact hnext
      | _ => exact hskip hd rfl

theorem cores_foldl_observe (id : NodeId) : ∀ (os : List Output) (h : Harness M),
    (os.foldl (fun h o => h.observe A id o) h).cores = h.cores
  | [], _ => rfl
  | o :: os, h => (cores_foldl_observe id os _).trans (cores_observe h id o)

theorem Sent.grow {f : InFlight} (hs : h.Sent C f) (hout : ∀ n, (h.cores n).out <+: (h'.cores n).out) :
    h'.Sent C f := by
  rcases hs with ⟨hmem, hsent⟩ | hclient
  · exact .inl ⟨hmem, (hout _).subset hsent⟩
  · exact .inr hclient

/-- The core of `id` has been called, and nothing it has shown has been taken up yet. -/
def Harness.called (O : SimOptions) (h : Harness M) (id : NodeId) (i : Input) : Harness M :=
  h.setNode id { h.nodes id with core := (step (h.ctx O id) i).final (h.cores id) }

theorem cores_called (i : Input) : (h.called O id i).cores = Cluster.call h.cores (h.ctx O id) i :=
  cores_put (h := h) (show (h.called O id i).nodes = _ from rfl)

theorem cores_called_self (i : Input) : (h.called O id i).cores id = (step (h.ctx O id) i).final (h.cores id) := by
  rw [cores_called]
  exact Function.update_self _ _ _

theorem cores_called_of_ne (i : Input) {n : NodeId} (hn : n ≠ id) : (h.called O id i).cores n = h.cores n := by
  rw [cores_called]
  exact Function.update_of_ne hn _ _

/-- What a node has won since then it had not won before. -/
theorem fresh_of_once {x y : NodeId → RaftCore} (ha : C.Explains a (Cluster.resting x))
    (hb : C.Explains b (Cluster.resting y)) {o : List Output} (hout : (y id).out = (x id).out ++ o) :
    ∀ T ∈ o.filterMap Output.won, a.leader T ≠ some id := by
  intro T hT hled
  obtain ⟨L, hL⟩ := (ha.mid id).won hled
  have honce : ((y id).out.filterMap Output.won).Nodup := (hb.mid id).once
  rw [hout, List.filterMap_append] at honce
  exact List.disjoint_of_nodup_append honce (List.mem_filterMap.mpr ⟨_, hL, rfl⟩) hT

/-- **The core has been called**: its machine is behind by what the call has handed over. -/
theorem Inv.called (hi : Inv A O P h) (hid : id ∈ O.members.ids) {i : Input}
    (hal : O.members.Allowed h.cores id i) {es : List LogEntry} {o : List Output}
    (hsm : ((h.called O id i).cores id).sm = (h.cores id).sm ++ es)
    (hout : ((h.called O id i).cores id).out = (h.cores id).out ++ o) :
    ∃ a b, O.members.Explains a (Cluster.resting h.cores) ∧ Le a b ∧
      During A O P a b id (h.cores id).sm.length (h.called O id i) := by
  obtain ⟨a, ha, htold⟩ := hi.told
  have hreach : O.members.system.Reach (Cluster.resting h.cores) (Cluster.resting (h.called O id i).cores) := by
    rw [cores_called]
    exact Cluster.reach_play (l := [(h.ctx O id, i)]) ⟨hid, rfl, hal, trivial⟩
  obtain ⟨b, hab, hb⟩ := Cluster.explained_later ha hreach
  have hgrow : ∀ n, (h.cores n).out <+: ((h.called O id i).cores n).out := by
    intro n
    by_cases hn : n = id
    · rw [hn, hout]
      exact List.prefix_append _ _
    · rw [cores_called_of_ne i hn]
  refine ⟨a, b, ha, hab, hi.reachable.trans hreach, hb,
    (htold.mono (ha.mid id).inv.ack (fun _ hx => hx) (Le.refl a) hab).congr ⟨rfl, rfl, rfl, rfl, rfl⟩,
    fun f hf => Sent.grow (hi.wires f hf) hgrow, ?_, fun n hn => ?_⟩
  · rw [hsm, List.take_left' rfl]
    refine (sm_put h id rfl id).trans ?_
    rw [if_pos rfl]
    exact hi.machine id
  · rw [cores_called_of_ne i hn]
    refine (sm_put h id rfl n).trans ?_
    rw [if_neg hn]
    exact hi.machine n

/-- **A call that may be made keeps the invariant.** -/
theorem Inv.call (hi : Inv A O P h) (hid : id ∈ O.members.ids) {i : Input}
    (hal : O.members.Allowed h.cores id i) : Inv A O P (h.call A O id i) := by
  have hstep : InStep (h.cores id) := (Cluster.inStep_idle hi.reachable (n := id) rfl).1
  obtain ⟨es, o, hsm, hout, happ, -⟩ := (takes_final (K := h.ctx O id) i hstep).hands
  have hcall : h.call A O id i = o.foldl (fun h o => h.observe A id o) (h.called O id i) := by
    unfold Harness.call
    dsimp only
    rw [show (h.nodes id).core = h.cores id from rfl, hout, List.drop_left' rfl]
    rfl
  rw [← cores_called_self (h := h) i] at hsm hout
  obtain ⟨a, b, ha, hab, hd⟩ := hi.called hid hal hsm hout
  have hdone := hd.observe hid hab o (fun x hx => by rw [hout]; exact List.mem_append_right _ hx)
    (fresh_of_once ha hd.explained hout) (by rw [hsm, List.drop_left' rfl]; exact happ)
  have hsame := cores_foldl_observe (A := A) id o (h.called O id i)
  rw [hcall]
  refine ⟨hdone.reachable, ⟨b, hdone.explained,
    hdone.told.mono (hd.explained.mid id).inv.ack (fun _ hx => hx) hab (Le.refl b)⟩, hdone.wires, fun n => ?_⟩
  by_cases hn : n = id
  · subst hn
    have hm := hdone.machine
    rw [hsame, List.take_length] at hm
    rw [hsame]
    exact hm
  · exact hdone.others n hn

theorem Inv.serve (hi : Inv A O P h) (hid : id ∈ O.members.ids) (src : NodeId) (req : ClientRequest) :
    Inv A O P (h.serve A O id src req) := by
  unfold Harness.serve
  dsimp only
  have hsvc := hi.quietly (quietly_service h id ((h.nodes id).service.onClientRequest (h.nodes id).core src req).1)
  split
  · exact hsvc
  · exact hsvc.quietly (quietly_sendReplies id _ _)
  · exact (hsvc.call hid (i := .propose req.command) trivial).quietly (quietly_answer _ id _)
  · exact (hsvc.call hid (i := .proposeBatch _) trivial).quietly (quietly_answer _ id _)

theorem mem_members {id : NodeId} : id ∈ O.members.ids ↔ id ∈ O.ids := List.mem_toFinset

/-- Cores, machines and monitors are as they were, and nothing is new on the wire. -/
theorem Inv.congr (hi : Inv A O P h) (hn : h'.nodes = h.nodes) (hm : SameMonitors h h')
    (hq : ∀ f ∈ h'.net.queue, f ∈ h.net.queue) : Inv A O P h' :=
  hi.quietly ⟨fun n => by rw [hn], fun n => by rw [hn], hm, fun f hf => .inl (hq f hf)⟩

/-- **A message that may be delivered keeps the invariant.** -/
theorem Inv.deliver (hi : Inv A O P h) {f : Wire} (hf : O.members.Allowed h.cores f.dest (.handle f.sender f.msg)) :
    Inv A O P (h.deliver A O f) := by
  unfold Harness.deliver
  split_ifs with hmem
  · have hcall := hi.call (mem_members.mpr hmem) hf
    dsimp only
    split
    · exact hcall.serve (mem_members.mpr hmem) _ _
    · exact hcall
  · exact hi
  · exact hi.congr rfl ⟨rfl, rfl, rfl, rfl, rfl⟩ fun _ hf => hf
  · exact hi

theorem Inv.deliverFirst (hi : Inv A O P h) {f : InFlight} {rest : List InFlight} (hq : h.net.queue = f :: rest) :
    Inv A O P (h.deliverFirst A O f rest) := by
  have hrest : Inv A O P { h with net := { h.net with queue := rest } } :=
    hi.congr rfl ⟨rfl, rfl, rfl, rfl, rfl⟩ fun g hg => hq ▸ List.mem_cons_of_mem f hg
  unfold Harness.deliverFirst
  dsimp only
  split_ifs
  · exact hrest.deliver (hi.wires f (hq ▸ List.mem_cons_self))
  · exact hrest

theorem Inv.deliverDue : ∀ (fuel : ℕ) {h h' : Harness M}, Inv A O P h → Harness.deliverDue A O fuel h = some h' →
    Inv A O P h'
  | fuel, h, h', hi, hd => by
      unfold Harness.deliverDue at hd
      split at hd
      · cases hd
        exact hi
      · rename_i f rest hq
        split_ifs at hd
        · cases fuel with
          | zero => cases hd
          | succ k => exact Inv.deliverDue k (hi.deliverFirst hq) hd
        · cases hd
          exact hi

/-- What is kept for each member is kept for all in a row. -/
theorem foldl_members {R : Harness M → Prop} {f : Harness M → NodeId → Harness M}
    (hf : ∀ h id, id ∈ O.ids → R h → R (f h id)) : ∀ {l : List NodeId} {h : Harness M},
    (∀ id ∈ l, id ∈ O.ids) → R h → R (l.foldl f h)
  | [], _, _, hi => hi
  | id :: l, h, hl, hi =>
      foldl_members (l := l) hf (fun m hm => hl m (List.mem_cons_of_mem id hm)) (hf h id (hl id List.mem_cons_self) hi)

theorem Inv.tickAll (hi : Inv A O P h) : Inv A O P (h.tickAll A O) := by
  refine foldl_members (fun h id hid hi => ?_) (fun _ hm => hm) hi
  split_ifs
  · exact hi.call (mem_members.mpr hid) trivial
  · exact hi

/-! ## 5. The monitors look -/

/-- One more look at a node. -/
theorem Told.look (ht : Told C A P a a h) (hE : C.Explains a (Cluster.resting h.cores)) (id : NodeId) :
    ∃ looks, h.appendOnly.observe id ((h.cores id).role = .leader) (h.cores id).currentTerm
        (logImage (h.cores id).log) = appendOnlyMonitor looks ∧ (∀ c ∈ looks, LookOk a c) ∧
      looks.Pairwise fun c d => c.isLeader = true → d.isLeader = true → d.term = c.term → c.log <+: d.log := by
  obtain ⟨looks, hl, hlooks, hkept⟩ := ht.looks
  have hlead : (h.cores id).role = .leader → a.leader (h.cores id).currentTerm = some id ∧
      a.llog (h.cores id).currentTerm = (h.cores id).log := by
    intro hr
    have hL := (hE.rest (n := id) rfl).lead hr
    exact ⟨hL.won, hL.log (hE.mid id)⟩
  refine ⟨looks ++ [⟨id, (h.cores id).role = .leader, (h.cores id).currentTerm, logImage (h.cores id).log⟩],
    by rw [appendOnlyMonitor_snoc, ← hl], fun c hc => ?_, ?_⟩
  · rcases List.mem_append.mp hc with hc | hc
    · exact hlooks c hc
    · rw [List.mem_singleton.mp hc]
      intro hr
      obtain ⟨hwon, hlog⟩ := hlead (of_decide_eq_true hr)
      exact ⟨hwon, _, rfl, by rw [hlog]⟩
  · refine List.pairwise_append.mpr ⟨hkept, List.pairwise_singleton _ _, fun c hc d hd => ?_⟩
    rw [List.mem_singleton.mp hd]
    intro hcl hr hterm
    obtain ⟨-, L, hL, hpre⟩ := hlooks c hc hcl
    rw [hL]
    refine logImage_begins ?_
    rw [← (hlead (of_decide_eq_true hr)).2, show (h.cores id).currentTerm = c.term from hterm]
    exact hpre

/-- One more commit index. -/
theorem Told.commitSeen (ht : Told C A P a a h) (hE : C.Explains a (Cluster.resting h.cores)) (hP : P h.cores)
    (id : NodeId) :
    ∃ obs, h.commit.observeCommit id (h.cores id).commitIndex (logImage (h.cores id).log) = monitor obs ∧
      (∀ o ∈ obs, ObservationOk C P a a o) ∧
      ∀ before node term log after, obs = before ++ .electionWin node term log :: after →
        committedRecord before <+: log ∨ Late P node term log := by
  obtain ⟨obs, ho, hobs, hwon⟩ := ht.commits
  refine ⟨obs ++ [.commit id (h.cores id).commitIndex (logImage (h.cores id).log)], ?_, fun o hmem => ?_, ?_⟩
  · rw [monitor_snoc, ← ho]
    rfl
  · rcases List.mem_append.mp hmem with hmem | hmem
    · exact hobs o hmem
    · rw [List.mem_singleton.mp hmem]
      exact ⟨h.cores, hP, ⟨a, hE, Le.refl a⟩, rfl, rfl⟩
  · intro before node term log after heq
    rcases split_snoc heq with ⟨-, hx, -⟩ | ⟨after', -, rfl⟩
    · cases hx
    · exact hwon before node term log after' rfl

theorem cores_look (h : Harness M) (id : NodeId) : (h.look id).cores = h.cores := by
  unfold Harness.look
  dsimp only
  split_ifs <;> rfl

theorem Inv.look (hi : Inv A O P h) (hP : P h.cores) (id : NodeId) : Inv A O P (h.look id) := by
  unfold Harness.look
  dsimp only
  split_ifs
  · obtain ⟨a, hE, ht⟩ := hi.told
    exact ⟨hi.reachable, ⟨a, hE, ht.wins, ht.look hE id, ht.applies, ht.commitSeen hE hP id, ht.sweep⟩, hi.wires, hi.machine⟩
  · exact hi

/-- What the sweep is given: the logs of members. -/
theorem mem_logs (h : Harness M) (x : NodeId × LogImage) (hx : x ∈ (h.logs O).toList) :
    x.2 = logImage (h.cores x.1).log := by
  have hall : ∀ (l : List NodeId) (m : Std.ExtTreeMap NodeId LogImage),
      (∀ n la, m[n]? = some la → la = logImage (h.cores n).log) → ∀ n la,
      (l.foldl (fun m id => if (h.nodes id).alive then m.insert id (logImage (h.nodes id).core.log) else m) m)[n]? =
        some la → la = logImage (h.cores n).log := by
    intro l
    induction l with
    | nil => exact fun m hm => hm
    | cons id l ih =>
        intro m hm
        refine ih _ fun n la hn => ?_
        dsimp only at hn
        split_ifs at hn
        · rw [getElem?_insert_ite] at hn
          split_ifs at hn with hid
          · cases hn
            rw [hid]
            rfl
          · exact hm n la hn
        · exact hm n la hn
  refine hall O.ids ∅ (fun n la hn => ?_) x.1 x.2 (Std.ExtTreeMap.mem_toList_iff_getElem?_eq_some.mp hx)
  rw [Std.ExtTreeMap.getElem?_empty] at hn
  cases hn

theorem logsMatch_image {L L' : List LogEntry}
    (h : ∀ (i : ℕ) (e f : LogEntry), L[i]? = some e → L'[i]? = some f → e.term = f.term →
      L.take (i + 1) = L'.take (i + 1)) : LogsMatch (logImage L) (logImage L') := by
  intro i e f he hf ht j hj
  unfold logImage at he hf ⊢
  rw [List.getElem?_map] at he hf ⊢
  obtain ⟨e', he', rfl⟩ := Option.map_eq_some_iff.mp he
  obtain ⟨f', hf', rfl⟩ := Option.map_eq_some_iff.mp hf
  have htake := congrArg (·[j]?) (h i e' f' he' hf' ht)
  rw [List.getElem?_take_of_lt (Nat.lt_succ_of_le hj), List.getElem?_take_of_lt (Nat.lt_succ_of_le hj)] at htake
  rw [htake, List.getElem?_map]

/-- **A sweep finds nothing.** -/
theorem Inv.sweep (hi : Inv A O P h) : checkLogMatching (h.logs O) = [] := by
  obtain ⟨a, hE, -⟩ := hi.told
  unfold checkLogMatching
  rw [sweep_nil]
  refine List.pairwise_of_forall_mem_list fun x hx y hy => ?_
  rw [mem_logs h x hx, mem_logs h y hy]
  exact logsMatch_image fun i e f he hf ht => (hE.grown x.1).matching (hE.grown y.1) he hf ht

theorem Inv.finalCheck (hi : Inv A O P h) : Inv A O P (h.finalCheck O) := by
  refine hi.congr rfl ⟨rfl, rfl, rfl, rfl, ?_⟩ fun _ hf => hf
  unfold Harness.finalCheck
  rw [hi.sweep, List.append_nil]

theorem Inv.observeStep (hi : Inv A O P h) (hP : P h.cores) :
    Inv A O P (h.observeStep O) ∧ (h.observeStep O).cores = h.cores := by
  have hlook : Inv A O P (O.ids.foldl Harness.look h) ∧ (O.ids.foldl Harness.look h).cores = h.cores := by
    refine foldl_members (R := fun g => Inv A O P g ∧ g.cores = h.cores) (fun g id _ hg => ?_) (fun _ hm => hm) ⟨hi, rfl⟩
    exact ⟨hg.1.look (by rw [hg.2]; exact hP) id, (cores_look g id).trans hg.2⟩
  unfold Harness.observeStep
  dsimp only
  split_ifs
  · exact ⟨Inv.finalCheck (hlook.1.congr rfl ⟨rfl, rfl, rfl, rfl, rfl⟩ fun _ hf => hf), hlook.2⟩
  · exact hlook

/-! ## 6. Whole runs -/

/-- More moments may have been looked at. -/
theorem Inv.widen (hi : Inv A O P h) (hPQ : ∀ x, P x → Q x) : Inv A O Q h := by
  obtain ⟨a, hE, ht⟩ := hi.told
  exact ⟨hi.reachable, ⟨a, hE, ht.mono (hE.mid 0).inv.ack hPQ (Le.refl a) (Le.refl a)⟩, hi.wires, hi.machine⟩

/-- A millisecond ends with a look at the cores. -/
theorem Inv.stepMs (hi : Inv A O P h) {fuel : ℕ} (hs : h.stepMs A O fuel = some h') :
    Inv A O (fun x => P x ∨ x = h'.cores) h' := by
  unfold Harness.stepMs at hs
  obtain ⟨h₁, hd, rfl⟩ := Option.map_eq_some_iff.mp hs
  have hnow : Inv A O P { h with now := h.now + 1 } := hi.congr rfl ⟨rfl, rfl, rfl, rfl, rfl⟩ fun _ hf => hf
  obtain ⟨hlook, hcores⟩ := Inv.observeStep (h := h₁) (P := fun x => P x ∨ x = h₁.cores)
    ((hnow.tickAll.deliverDue fuel hd).widen fun _ => .inl) (.inr rfl)
  rw [hcores]
  exact hlook

theorem Inv.crash (hi : Inv A O P h) (id : NodeId) : Inv A O P (h.crash id) := by
  have hcores : (h.crash id).cores = h.cores := cores_put_self rfl rfl
  refine hi.quietly ⟨fun n => congrFun hcores n, fun n => ?_, ⟨rfl, rfl, rfl, rfl, rfl⟩, fun _ hf => .inl hf⟩
  refine (sm_put h id rfl n).trans ?_
  split_ifs with hn
  · rw [hn]
  · rfl

/-- A new incarnation, before its core is started. -/
def Harness.renewed (A : Machine M) (O : SimOptions) (h : Harness M) (id : NodeId) : Harness M :=
  h.setNode id (buildNode A O id ((h.nodes id).incarnation + 1) (h.nodes id).core)

theorem restart_eq (h : Harness M) (id : NodeId) : h.restart A O id =
    if (h.nodes id).alive then h else (h.renewed A O id).call A O id .start := rfl

/-- Over storage that survives, a new incarnation is a restart of the core. -/
theorem core_buildNode (hk : O.Keeps) (id : NodeId) (n : ℕ) (s : RaftCore) :
    (buildNode A O id n s).core = s.restart (O.rng id n) := by
  unfold buildNode
  dsimp only
  rw [hk]
  rfl

theorem cores_renewed (hk : O.Keeps) (h : Harness M) (id : NodeId) : (h.renewed A O id).cores =
    Function.update h.cores id ((h.cores id).restart (O.rng id ((h.nodes id).incarnation + 1))) := by
  rw [cores_put (h := h) (show (h.renewed A O id).nodes = _ from rfl), core_buildNode hk]
  rfl

theorem resting_update (f : NodeId → RaftCore) (id : NodeId) (s : RaftCore) :
    Cluster.resting (Function.update f id s) = Function.update (Cluster.resting f) id ⟨s, []⟩ := by
  funext n
  unfold Cluster.resting
  by_cases hn : n = id
  · subst hn
    rw [Function.update_self, Function.update_self]
  · rw [Function.update_of_ne hn, Function.update_of_ne hn]

/-- **A new incarnation is the crash step of the cluster**, and the machine begins again. -/
theorem Inv.renewed (hk : O.Keeps) (hi : Inv A O P h) (hid : id ∈ O.members.ids) : Inv A O P (h.renewed A O id) := by
  obtain ⟨a, hE, ht⟩ := hi.told
  have hstep : O.members.system.Reach (Cluster.resting h.cores) (Cluster.resting (h.renewed A O id).cores) := by
    refine .single ⟨id, ?_⟩
    rw [cores_renewed hk, resting_update]
    exact .crash _ id _ ⟨hid, _, rfl⟩
  obtain ⟨b, hab, hb⟩ := Cluster.explained_later hE hstep
  refine ⟨hi.reachable.trans hstep,
    ⟨b, hb, (ht.mono (hE.mid id).inv.ack (fun _ hx => hx) hab hab).congr ⟨rfl, rfl, rfl, rfl, rfl⟩⟩,
    fun f hf => Sent.grow (hi.wires f hf) fun n => ?_, fun n => ?_⟩
  · rw [cores_renewed hk]
    by_cases hn : n = id
    · subst hn
      rw [Function.update_self]
      exact List.prefix_refl _
    · rw [Function.update_of_ne hn]
  · rw [cores_renewed hk]
    refine (sm_put h id rfl n).trans ?_
    split_ifs with hn
    · subst hn
      rw [Function.update_self]
      rfl
    · rw [Function.update_of_ne hn]
      exact hi.machine n

theorem Inv.restart (hk : O.Keeps) (hi : Inv A O P h) (hid : id ∈ O.members.ids) : Inv A O P (h.restart A O id) := by
  rw [restart_eq]
  split_ifs
  · exact hi
  · exact (hi.renewed hk hid).call hid (i := .start) trivial

theorem Inv.killLeader (hi : Inv A O P h) : Inv A O P (h.killLeader O) := by
  unfold Harness.killLeader
  split
  · exact hi
  · exact hi.crash _

theorem queue_control (net : SimNetwork) (c : Control) : (net.control c).queue = net.queue := by
  cases c <;> rfl

/-- **Any act of the driver keeps the invariant**, over storage that survives. -/
theorem Inv.act (hk : O.Keeps) (hi : Inv A O P h) {d : Driver} (hd : h.act A O d = some h') :
    Inv A O (fun x => P x ∨ x = h'.cores) h' := by
  have hwiden : Inv A O P h' → Inv A O (fun x => P x ∨ x = h'.cores) h' := fun hi => hi.widen fun _ => .inl
  cases d with
  | crash id =>
      unfold Harness.act at hd
      dsimp only at hd
      split_ifs at hd
      cases hd
      exact hwiden (hi.crash id)
  | restart id =>
      unfold Harness.act at hd
      dsimp only at hd
      split_ifs at hd with hid
      cases hd
      exact hwiden (hi.restart hk (mem_members.mpr hid))
  | killLeader =>
      cases hd
      exact hwiden hi.killLeader
  | control c =>
      cases hd
      exact hwiden (hi.congr rfl ⟨rfl, rfl, rfl, rfl, rfl⟩ fun f hf => queue_control h.net c ▸ hf)
  | registerEndpoint low high =>
      cases hd
      exact hwiden (hi.congr rfl ⟨rfl, rfl, rfl, rfl, rfl⟩ fun _ hf => hf)
  | clientSend fromClient toNode req =>
      cases hd
      exact hwiden (hi.quietly (quietly_send h fromClient toNode rfl))
  | stepMs fuel => exact hi.stepMs hd
  | finalCheck =>
      cases hd
      exact hwiden hi.finalCheck

theorem inv_built (hk : O.Keeps) (A : Machine M) : Inv A O P (Harness.built A O) := by
  have hcores : (Harness.built A O).cores = fun id => RaftCore.restart {} (O.rng id 0) :=
    funext fun id => core_buildNode hk id 0 {}
  have hreach : O.members.system.Reachable (Cluster.resting (Harness.built A O).cores) := by
    rw [hcores]
    exact .refl
  obtain ⟨a, hE⟩ := Cluster.explained hreach
  refine ⟨hreach, ⟨a, hE, ⟨[], rfl, fun _ _ h => (List.not_mem_nil h).elim⟩,
    ⟨[], rfl, fun _ h => (List.not_mem_nil h).elim, List.Pairwise.nil⟩,
    ⟨[], rfl, fun _ h => (List.not_mem_nil h).elim⟩, ⟨[], rfl, fun _ h => (List.not_mem_nil h).elim, ?_⟩, rfl⟩,
    fun _ h => (List.not_mem_nil h).elim, fun _ => rfl⟩
  intro before node term log after heq
  exact absurd heq.symm (List.append_ne_nil_of_right_ne_nil _ (List.cons_ne_nil _ _))

theorem inv_start (hk : O.Keeps) (A : Machine M) : Inv A O P (Harness.start A O) :=
  foldl_members (fun _ _ hid hi => hi.call (mem_members.mpr hid) (i := .start) trivial) (fun _ hm => hm) (inv_built hk A)

/-- The cores of a run after its first acts. -/
def Passed (A : Machine M) (O : SimOptions) (acts : List Driver) (x : NodeId → RaftCore) : Prop :=
  ∃ pre h, pre <+: acts ∧ (Harness.start A O).drive A O pre = some h ∧ h.cores = x

/-- **The invariant holds in every run**, and the monitors have looked at what the run has passed. -/
theorem inv_drive (hk : O.Keeps) {acts : List Driver} (hrun : (Harness.start A O).drive A O acts = some h) :
    Inv A O (Passed A O acts) h := by
  -- from the back: the last act adds the cores it ends with
  induction acts using List.reverseRecOn generalizing h with
  | nil =>
      cases hrun
      exact inv_start hk A
  | append_singleton acts d ih =>
      have hlast := hrun
      unfold Harness.drive at hlast
      rw [List.foldlM_append] at hlast
      obtain ⟨h₁, hpre, hd⟩ := Option.bind_eq_some_iff.mp hlast
      obtain ⟨h₂, hd, hnil⟩ := Option.bind_eq_some_iff.mp hd
      cases hnil
      refine ((ih hpre).act hk hd).widen fun x hx => ?_
      rcases hx with ⟨pre, g, hp, hg⟩ | rfl
      · exact ⟨pre, g, hp.trans (List.prefix_append _ _), hg⟩
      · exact ⟨acts ++ [d], h, List.prefix_rfl, hrun, rfl⟩

end

end Rsm.Sim
