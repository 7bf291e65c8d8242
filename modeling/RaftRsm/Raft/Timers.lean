/-
  File:      RaftRsm/Raft/Timers.lean
  Subject:   THE TIMERS AND THE ROLE OF A CORE, over every sequence of calls, with any messages at any
             times.

  * `Armed me s` -- a leader has a heartbeat and no election timer, all others have it the other way
    round; a candidate and a leader have voted for themselves;
  * `Effect.armed` -- every call keeps it; `armed_after` -- and so does every run;
  * `Resets s i t` -- the three things that may move the election timer of a core that does not lead;
  * `timers_and_role` -- all of it.

  Times are natural numbers here and `TimePoint::max` is `none`. No use is made of the clock going
  forwards.
-/
import RaftRsm.Raft.Calls

namespace Rsm.Raft

open Rsm.Rpc Rsm.Storage Process

variable {K : Ctx} {s t : RaftCore} {me : NodeId} {i : Input}

/-! ## 1. The invariant -/

/-- `std::min` of two deadlines. -/
def earlier : Option ℕ → Option ℕ → Option ℕ
  | none, d => d
  | some d, none => some d
  | some d, some e => some (min d e)

def nextDeadline (s : RaftCore) : Option ℕ := earlier s.electionDeadline s.heartbeatDeadline

theorem earlier_isSome {d e : Option ℕ} (h : d ≠ none ∨ e ≠ none) : (earlier d e).isSome := by
  cases d with
  | none =>
      have he := h.resolve_left fun hd => hd rfl
      exact Option.isSome_iff_ne_none.mpr he
  | some d => cases e <;> rfl

/-- **The timers fit the role, and who asks for votes or leads has its own.** -/
structure Armed (me : NodeId) (s : RaftCore) : Prop where
  election : s.electionDeadline = none ↔ s.role = .leader
  heartbeat : s.heartbeatDeadline ≠ none ↔ s.role = .leader
  vote : s.role ≠ .follower → s.votedFor = some me

theorem Armed.nextDeadline (h : Armed me s) : (nextDeadline s).isSome := by
  refine earlier_isSome ?_
  by_cases hr : s.role = .leader
  · exact .inr (h.heartbeat.mpr hr)
  · exact .inl fun he => hr (h.election.mp he)

/-- A core that has just been built, when its timer has been drawn. -/
theorem armed_start (s : RaftCore) (rng : ℕ → ℕ) : Armed me (timed K (s.restart rng)) :=
  ⟨⟨fun h => absurd h (Option.some_ne_none _), fun h => Role.noConfusion h⟩,
    ⟨fun h => absurd rfl h, fun h => Role.noConfusion h⟩, fun h => absurd rfl h⟩

/-- Nothing of this has changed. -/
theorem Armed.congr (h : Armed me s) (hr : t.role = s.role) (he : t.electionDeadline = s.electionDeadline)
    (hb : t.heartbeatDeadline = s.heartbeatDeadline) (hv : t.votedFor = s.votedFor) : Armed me t := by
  refine ⟨?_, ?_, ?_⟩
  · rw [he, hr]
    exact h.election
  · rw [hb, hr]
    exact h.heartbeat
  · rw [hr, hv]
    exact h.vote

/-- A follower whose timer runs. -/
theorem armed_follower (hr : t.role = .follower) (he : t.electionDeadline ≠ none) (hb : t.heartbeatDeadline = none) :
    Armed me t := by
  refine ⟨⟨fun h => absurd h he, fun h => ?_⟩, ⟨fun h => absurd hb h, fun h => ?_⟩, fun h => absurd hr h⟩
  · rw [hr] at h
    exact Role.noConfusion h
  · rw [hr] at h
    exact Role.noConfusion h

/-- A leader that sends heartbeats. -/
theorem armed_leader (hr : t.role = .leader) (he : t.electionDeadline = none) (hb : t.heartbeatDeadline ≠ none)
    (hv : t.votedFor = some me) : Armed me t :=
  ⟨⟨fun _ => hr, fun _ => he⟩, ⟨fun _ => hr, fun _ => hb⟩, fun _ => hv⟩

theorem Armed.heartbeat_none (h : Armed me s) (hr : s.role ≠ .leader) : s.heartbeatDeadline = none := by
  by_contra hb
  exact hr (h.heartbeat.mp hb)

theorem Armed.election_ne (h : Armed me s) (hr : s.role ≠ .leader) : s.electionDeadline ≠ none :=
  fun he => hr (h.election.mp he)

/-! ## 2. The term rule -/

theorem Armed.lowered (h : Armed me s) (T : ℕ) : Armed me (lowered K s T) := by
  rw [lowered_eq]
  by_cases hr : s.role = .leader
  · refine armed_follower rfl ?_ (if_pos hr)
    rw [if_pos hr]
    exact Option.some_ne_none _
  · refine armed_follower rfl ?_ ((if_neg hr).trans (h.heartbeat_none hr))
    rw [if_neg hr]
    exact h.election_ne hr

theorem Armed.seen (h : Armed me s) (i : Input) : Armed me (seen K s i) := by
  obtain hs | ⟨T, -, hs⟩ := seen_cases K s i
  · rw [hs]
    exact h
  · rw [hs]
    exact (h.lowered T).congr rfl rfl rfl rfl

/-- What the term rule leaves of a core that does not lead. -/
structure Seen (s t : RaftCore) : Prop where
  term : s.currentTerm ≤ t.currentTerm
  out : ∃ o, t.out = s.out ++ o
  timer : s.role ≠ .leader → t.electionDeadline = s.electionDeadline ∧ t.role ≠ .leader

theorem seen_seen (s : RaftCore) (i : Input) : Seen s (seen K s i) := by
  obtain hs | ⟨T, -, hs⟩ := seen_cases K s i
  · rw [hs]
    exact ⟨Nat.le_refl _, ⟨[], (List.append_nil _).symm⟩, fun hr => ⟨rfl, hr⟩⟩
  · rw [hs, lowered_eq]
    exact ⟨Nat.le_max_left _ _, ⟨_, rfl⟩, fun hr => ⟨if_neg hr, fun h => Role.noConfusion h⟩⟩

/-! ## 3. One call -/

/-- The input is not `start` and does not name the core itself as a candidate. -/
structure Fair (me : NodeId) (i : Input) : Prop where
  started : i ≠ .start
  candidate : ∀ p rv, i = .handle p (.requestVote rv) → rv.candidateId ≠ me

/-- A vote is granted by followers only: who asks for votes or leads has given its own away. -/
theorem Armed.follower_of_grant (h : Armed me s) {rv : RequestVote} (hc : rv.candidateId ≠ me)
    (hv : s.votedFor = none ∨ s.votedFor = some rv.candidateId) : s.role = .follower := by
  by_contra hr
  have hself := h.vote hr
  rcases hv with hv | hv
  · rw [hself] at hv
    exact Option.some_ne_none _ hv
  · rw [hself] at hv
    exact hc (Option.some.inj hv).symm

/-- **One call keeps the invariant.** -/
theorem Effect.armed (he : Effect K s i t) (h : Armed me s) (hself : K.self = me) (hi : Fair me i) :
    Armed me t := by
  cases he with
  | started => exact absurd rfl hi.started
  | noted i V ν m k o => exact h.congr rfl rfl rfl rfl
  | beat o hr => exact armed_leader hr (h.election.mpr hr) (Option.some_ne_none _) (h.vote (by rw [hr]; decide))
  | campaigned o hr =>
      split_ifs
      · exact armed_leader rfl rfl (Option.some_ne_none _) (congrArg some hself)
      · refine ⟨⟨fun h => absurd h (Option.some_ne_none _), fun h => Role.noConfusion h⟩,
          ⟨fun h => absurd rfl h, fun h => Role.noConfusion h⟩, fun _ => congrArg some hself⟩
  | proposed i es m k o hr hT =>
      exact armed_leader hr (h.election.mpr hr) (Option.some_ne_none _) (h.vote (by rw [hr]; decide))
  | granted p rv hv =>
      have hr := h.follower_of_grant (hi.candidate p rv rfl) hv
      have hr' : s.role ≠ .leader := by rw [hr]; decide
      exact armed_follower hr (Option.some_ne_none _) (h.heartbeat_none hr')
  | won p r V o hr => exact armed_leader rfl rfl (Option.some_ne_none _) (h.vote (by rw [hr]; decide))
  | followed p ae t hT hr ht =>
      exact armed_follower ht.role ht.timer (ht.beat.trans (h.heartbeat_none hr))
  | acked p r μ ν m k o hr => exact h.congr rfl rfl rfl rfl

/-- **What may move the election timer** of a core that does not lead: an AppendEntries of its term or
    a later one, a vote that is granted, an election that is started. -/
inductive Resets (s : RaftCore) : Input → RaftCore → Prop where
  | leaderTraffic (p : NodeId) (ae : AppendEntries) (t : RaftCore) (hT : s.currentTerm ≤ ae.term) :
      Resets s (.handle p (.appendEntries ae)) t
  | voteGranted (p : NodeId) (rv : RequestVote) (t : RaftCore) (o : List Output)
      (hv : t.votedFor = some rv.candidateId) (ho : t.out = s.out ++ o)
      (hs : Output.send p (.requestVoteReply ⟨t.currentTerm, true⟩) ∈ o) :
      Resets s (.handle p (.requestVote rv)) t
  | electionStarted (t : RaftCore) (o : List Output) (hr : t.role = .candidate)
      (hT : t.currentTerm = s.currentTerm + 1) (ho : t.out = s.out ++ o)
      (hl : Output.transition t.currentTerm .candidate .electionStarted s.log ∈ o) : Resets s .tick t

/-- **One call moves the timer for these reasons only.** -/
theorem Effect.resets (he : Effect K (seen K s i) i t) (hi : Fair me i) (hr : s.role ≠ .leader)
    (hr' : t.role ≠ .leader) (hne : t.electionDeadline ≠ s.electionDeadline) : Resets s i t := by
  have hseen := seen_seen (K := K) s i
  obtain ⟨htimer, hrole⟩ := hseen.timer hr
  obtain ⟨o₀, ho₀⟩ := hseen.out
  cases he with
  | started => exact absurd rfl hi.started
  | noted i V ν m k o => exact absurd htimer hne
  | beat o hl => exact absurd hl hrole
  | campaigned o hl =>
      split_ifs at hr' ⊢
      · exact absurd rfl hr'
      · exact .electionStarted _ _ rfl rfl rfl List.mem_cons_self
  | proposed i es m k o hl hT => exact absurd hl hrole
  | granted p rv hv =>
      refine .voteGranted p rv _ (o₀ ++ [.send p (.requestVoteReply
        ⟨(seen K s (.handle p (.requestVote rv))).currentTerm, true⟩)]) rfl ?_ ?_
      · rw [← List.append_assoc, ← ho₀]
      · exact List.mem_append_right o₀ List.mem_cons_self
  | won p r V o hl => exact absurd rfl hr'
  | followed p ae t hT hl ht => exact .leaderTraffic p ae t (hseen.term.trans hT)
  | acked p r μ ν m k o hl => exact absurd hl hrole

/-! ## 4. Every run -/

/-- A call: its input, and the clock and the other surroundings it finds. -/
structure Call where
  ctx : Ctx
  input : Input

/-- The core after a call. -/
def Call.perform (s : RaftCore) (c : Call) : RaftCore := (step c.ctx c.input).final s

/-- The call is made on the core `me`, and its input is fair. -/
structure Call.Fair (me : NodeId) (c : Call) : Prop where
  node : c.ctx.self = me
  input : Rsm.Raft.Fair me c.input

theorem Call.effect (s : RaftCore) (c : Call) : Effect c.ctx (seen c.ctx s c.input) c.input (c.perform s) :=
  ends_final (ends_step c.input)

theorem Call.armed {c : Call} (hc : c.Fair me) (h : Armed me s) : Armed me (c.perform s) :=
  (c.effect s).armed (h.seen c.input) hc.node hc.input

theorem armed_after : ∀ {cs : List Call} {s : RaftCore}, Armed me s → (∀ c ∈ cs, c.Fair me) →
    Armed me (cs.foldl Call.perform s)
  | [], _, h, _ => h
  | c :: cs, s, h, hcs => by
      show Armed me (cs.foldl Call.perform (c.perform s))
      exact armed_after (Call.armed (hcs c List.mem_cons_self) h) fun x hx => hcs x (List.mem_cons_of_mem c hx)

/-- **The timers and the role.** A core is built over any persistent state and any log, started once, and
    then any calls are made on it, with any messages but RequestVotes that name it as the candidate, and
    at any times. After all of them: it has no election timer iff it leads, and a heartbeat iff it leads,
    so `nextDeadline` is never unset; as a candidate or a leader it has voted for itself in its term. And
    whatever call comes next, on a core that leads neither before nor after it the election timer moves
    only if the call has handled an AppendEntries of its term or a later one, granted a vote or started
    an election. -/
theorem timers_and_role (K : Ctx) (s₀ : RaftCore) (rng : ℕ → ℕ) (cs : List Call) (hcs : ∀ c ∈ cs, c.Fair me) :
    let s := cs.foldl Call.perform ((step K .start).final (s₀.restart rng))
    (s.electionDeadline = none ↔ s.role = .leader) ∧
    (s.heartbeatDeadline ≠ none ↔ s.role = .leader) ∧
    (nextDeadline s).isSome ∧
    (s.role = .candidate ∨ s.role = .leader → s.votedFor = some me) ∧
    ∀ c : Call, c.Fair me → s.role ≠ .leader → (c.perform s).role ≠ .leader →
      (c.perform s).electionDeadline ≠ s.electionDeadline → Resets s c.input (c.perform s) := by
  intro s
  have h : Armed me s := armed_after (armed_start s₀ rng) hcs
  refine ⟨h.election, h.heartbeat, h.nextDeadline, fun hr => h.vote ?_, fun c hc hr hr' hne => ?_⟩
  · rcases hr with hr | hr <;> rw [hr] <;> decide
  · exact (c.effect s).resets hc.input hr hr' hne

/-- Node 1 of three is elected and then deposed: a leader's vote is its own, and its next call that
    moves the timer has a reason. -/
def deposed : List Call :=
  [⟨{ self := 1, peers := [2, 3], now := 1000 }, .tick⟩,
   ⟨{ self := 1, peers := [2, 3], now := 1000 }, .handle 2 (.requestVoteReply ⟨1, true⟩)⟩,
   ⟨{ self := 1, peers := [2, 3], now := 1500 }, .handle 3 (.requestVote ⟨2, 3, 0, 0⟩)⟩]

theorem deposed_fair : ∀ c ∈ deposed, c.Fair 1 := by
  rw [deposed, List.forall_mem_cons, List.forall_mem_cons, List.forall_mem_singleton]
  refine ⟨⟨rfl, by decide, fun p rv h => by cases h⟩, ⟨rfl, by decide, fun p rv h => by cases h⟩, rfl,
    by decide, fun p rv h => ?_⟩
  cases h
  decide

theorem timers_and_role_deposed :
    let s := (deposed.take 2).foldl Call.perform ((step firstOfThree .start).final ({} : RaftCore))
    s.role = .leader ∧ s.votedFor = some 1 ∧ (nextDeadline s).isSome ∧
      (nextDeadline (deposed.foldl Call.perform ((step firstOfThree .start).final ({} : RaftCore)))).isSome := by
  intro s
  have hrole : s.role = .leader := by decide +kernel
  have htwo := timers_and_role firstOfThree {} (fun _ => 0) (deposed.take 2)
    fun c hc => deposed_fair c (List.mem_of_mem_take hc)
  have hall := timers_and_role firstOfThree {} (fun _ => 0) deposed deposed_fair
  exact ⟨hrole, htwo.2.2.2.1 (.inr hrole), htwo.2.2.1, hall.2.2.1⟩

end Rsm.Raft
