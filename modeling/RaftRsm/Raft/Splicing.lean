/-
  File:      RaftRsm/Raft/Splicing.lean
  Subject:   WHAT AN APPENDENTRIES DOES TO A FOLLOWER'S LOG (`RaftCore::onAppendEntries`), from any state
             and for any message.

  * `ends_resolveConflicts_splice` -- the walk over the entries, the cut and the append are a splice;
  * `Passes`, `Taken` -- the checks, and the core after a message that passes them;
  * `ends_handle_passes`, `ends_handle_refused` -- handling a message that does, and one that does not;
  * `Window`, `closer_deliver` -- messages with parts of one log, in any order and any number of times;
  * `append_entries_effect` -- the whole of it.
-/
import RaftRsm.Raft.Batching
import RaftRsm.Raft.Turning
import RaftRsm.Replication.Splice

namespace Rsm.Raft

open Rsm.Rpc Rsm.Storage Process Replication

variable {K : Ctx} {s t u : RaftCore} {p : NodeId} {ae : AppendEntries}

/-! ## 1. The walk over the entries -/

/-- The log is `l` now, and only lines that are no messages have been added to the history. -/
def Rewritten (s t : RaftCore) (l : InMemoryLog) : Prop :=
  ∃ o, sends o = [] ∧ t = { s with log := l, out := s.out ++ o }

theorem Noted.rewritten (h : Noted s t) : Rewritten s t s.log := h

theorem Rewritten.trans {l l' : InMemoryLog} (h : Rewritten s t l) (k : Rewritten t u l') :
    Rewritten s u l' := by
  obtain ⟨o, ho, rfl⟩ := h
  obtain ⟨o', ho', rfl⟩ := k
  refine ⟨o ++ o', by rw [sends_append, ho, ho']; rfl, ?_⟩
  rw [← List.append_assoc]

theorem ends_truncateSuffixFrom (i : ℕ) : Ends s (truncateSuffixFrom (i + 1)) (fun _ t =>
    Rewritten s t (s.log.take i)) :=
  ends_write ⟨[], rfl, by rw [InMemoryLog.truncateSuffixFrom_succ, List.append_nil]⟩

/-- **The walk, and the entries that are left**: what the log is cut to, with them behind it. -/
theorem ends_resolveConflicts_splice : ∀ {es : List LogEntry} {i : ℕ} {s : RaftCore},
    Ends s (resolveConflicts (i + 1) es) (fun rest t =>
      ∃ l, Rewritten s t l ∧ l ++ rest = splice LogEntry.term s.log i es)
  | [], i, s => meets_pure ⟨s.log, (noted_refl s).rewritten, List.append_nil _⟩
  | e :: es, i, s => by
      unfold splice
      refine meets_read_bind (meets_ite (fun hi => ?_) fun hi => ?_)
      · rw [List.getElem?_eq_none (Nat.lt_succ_iff.mp hi)]
        exact meets_pure ⟨s.log, (noted_refl s).rewritten, rfl⟩
      · have hlt : i < s.log.length := Nat.not_lt.mp hi
        have hf : s.log[i]? = some s.log[i] := List.getElem?_eq_getElem hlt
        refine meets_bind (meets_mono (ends_termAt _) fun v _ t ht => ?_)
        obtain ⟨rfl, ht⟩ := ht
        rw [InMemoryLog.termAt_succ hf, hf]
        dsimp only
        refine meets_ite (fun hne => ?_) fun heq => ?_
        · rw [if_neg hne]
          -- whether it is a committed index or not, the log is cut there
          have hcut : ∀ {u : RaftCore}, Noted s u → Ends u (do truncateSuffixFrom (i + 1); pure (e :: es))
              (fun rest t => ∃ l, Rewritten s t l ∧ l ++ rest = s.log.take i ++ e :: es) := by
            intro u hu
            refine meets_bind (meets_mono (ends_truncateSuffixFrom i) fun _ _ v hv => ?_)
            rw [hu.log] at hv
            exact meets_pure ⟨_, hu.rewritten.trans hv, rfl⟩
          refine meets_bind (meets_when (fun _ => ?_) fun _ => hcut ht)
          exact meets_mono (ends_emit rfl) fun _ _ u hu => hcut (ht.trans hu)
        · rw [not_not] at heq
          rw [if_pos heq]
          refine meets_mono ends_resolveConflicts_splice fun rest _ u hu => ?_
          obtain ⟨l, hl, heq⟩ := hu
          rw [ht.log] at heq
          exact ⟨l, ht.rewritten.trans hl, heq⟩

/-! ## 2. A message that passes -/

/-- The last index that the message vouches for. -/
def confirmedThrough (ae : AppendEntries) : ℕ := ae.prevLogIndex + ae.entries.length

/-- The commit index after the message. -/
def followerCommit (c : ℕ) (ae : AppendEntries) : ℕ :=
  if c < ae.leaderCommit then min ae.leaderCommit (confirmedThrough ae) else c

/-- What is due is applied, and where this is done inline nothing is due any more. -/
structure Applies (K : Ctx) (s t : RaftCore) : Prop where
  idle : s.commitIndex ≤ s.lastApplied → t.lastApplied = s.lastApplied ∧ t.sm = s.sm
  inline : K.applySink = none → s.commitIndex ≤ t.lastApplied

theorem ends_applyCommitted_applies (hc : s.commitIndex ≤ s.log.length) :
    Ends s (applyCommitted K) (fun _ t => Fed s t ∧ Applies K s t) := by
  by_cases hdue : s.commitIndex ≤ s.lastApplied
  · refine meets_read_bind ?_
    rw [Nat.sub_eq_zero_of_le hdue]
    exact meets_pure ⟨(noted_refl s).fed, fun _ => ⟨rfl, rfl⟩, fun _ => hdue⟩
  · cases hsink : K.applySink with
    | none =>
        refine meets_mono (ends_applyCommitted_inline hsink hc) fun _ _ t ht => ?_
        obtain ⟨o, ho, -, rfl⟩ := ht
        exact ⟨⟨_, _, o, ho, rfl⟩, fun h => absurd h hdue, fun _ => Nat.le_max_right _ _⟩
    | some sink =>
        refine meets_mono ends_applyCommitted fun _ _ t ht => ⟨ht, fun h => absurd h hdue, fun h => ?_⟩
        rw [hsink] at h
        cases h

/-- **The core after a message that has passed the consistency check.** -/
structure Spliced (K : Ctx) (p : NodeId) (ae : AppendEntries) (s t : RaftCore) : Prop where
  log : t.log = splice LogEntry.term s.log ae.prevLogIndex ae.entries
  term : t.currentTerm = s.currentTerm
  vote : t.votedFor = s.votedFor
  role : t.role = s.role
  leader : t.leaderId = s.leaderId
  commit : t.commitIndex = followerCommit s.commitIndex ae
  idle : (s.commitIndex < ae.leaderCommit → t.commitIndex ≤ s.lastApplied) →
    t.lastApplied = s.lastApplied ∧ t.sm = s.sm
  inline : K.applySink = none → s.commitIndex < ae.leaderCommit → t.commitIndex ≤ t.lastApplied
  reply : Emits s t [(p, .appendEntriesReply ⟨s.currentTerm, true, confirmedThrough ae, 0⟩)]

theorem ends_acceptEntries_spliced (hlen : ae.prevLogIndex ≤ s.log.length) :
    Ends s (acceptEntries K p ae s.currentTerm) (fun _ t => Spliced K p ae s t) := by
  refine meets_bind (meets_mono ends_resolveConflicts_splice fun rest _ t ht => ?_)
  obtain ⟨l, ⟨o, ho, rfl⟩, hl⟩ := ht
  refine meets_bind (meets_mono ends_append_eq fun _ _ t ht => ?_)
  subst ht
  have hsend : ∀ {u : RaftCore} {c : ℕ}, Fed { s with log := l ++ rest, commitIndex := c, out := s.out ++ o } u →
      c = followerCommit s.commitIndex ae →
      ((s.commitIndex < ae.leaderCommit → c ≤ s.lastApplied) → u.lastApplied = s.lastApplied ∧ u.sm = s.sm) →
      (K.applySink = none → s.commitIndex < ae.leaderCommit → c ≤ u.lastApplied) →
      Ends u (send p (.appendEntriesReply ⟨s.currentTerm, true, confirmedThrough ae, 0⟩))
        (fun _ t => Spliced K p ae s t) := by
    intro u c hu hc hidle hinline
    obtain ⟨m, k, o', ho', rfl⟩ := hu
    refine ends_write ⟨hl, rfl, rfl, rfl, rfl, hc, hidle, hinline, o ++ o' ++ [.send p (.appendEntriesReply
      ⟨s.currentTerm, true, confirmedThrough ae, 0⟩)], ?_, ?_⟩
    · simp only [List.append_assoc]
    · rw [sends_append, sends_append, ho, ho']
      rfl
  refine meets_read_bind (meets_bind (meets_when (fun hc => ?_) fun hc => ?_))
  · refine meets_bind (meets_mono (ends_write (Q := fun _ u => u = { s with
      log := l ++ rest, commitIndex := min ae.leaderCommit (confirmedThrough ae), out := s.out ++ o }) rfl)
      fun _ _ u hu => ?_)
    subst hu
    have hin : min ae.leaderCommit (confirmedThrough ae) ≤ (l ++ rest).length := by
      rw [hl]
      exact (Nat.min_le_right _ _).trans (fits_splice LogEntry.term hlen ae.entries).1
    refine meets_mono (ends_applyCommitted_applies hin) fun _ _ u hu => ?_
    refine hsend hu.1 ?_ (fun h => hu.2.idle (h hc)) fun hsink _ => hu.2.inline hsink
    rw [followerCommit, if_pos hc]
  · refine hsend (c := s.commitIndex) (noted_refl _).fed ?_ (fun _ => ⟨rfl, rfl⟩) fun _ h => absurd h hc
    rw [followerCommit, if_neg hc]

/-- **The message passes the checks.** -/
structure Passes (s : RaftCore) (ae : AppendEntries) : Prop where
  term : s.currentTerm ≤ ae.term
  /-- A leader of the same term takes it for a violation. -/
  role : s.role = .leader → s.currentTerm < ae.term
  length : ae.prevLogIndex ≤ s.log.length
  prevTerm : s.log.termAt ae.prevLogIndex = ae.prevLogTerm

/-- The core in which the consistency check is made. -/
structure Ready (ae : AppendEntries) (s t : RaftCore) : Prop where
  log : t.log = s.log
  term : t.currentTerm = s.currentTerm
  vote : t.votedFor = s.votedFor
  role : t.role = .follower
  leader : t.leaderId = some ae.leaderId
  commit : t.commitIndex = s.commitIndex
  lastApplied : t.lastApplied = s.lastApplied
  sm : t.sm = s.sm
  timer : t.electionDeadline ≠ none
  beat : t.heartbeatDeadline = s.heartbeatDeadline
  emits : Emits s t []

/-- What a core that does not lead does first with a message of its term. -/
theorem ends_onAppendEntries_ready {Q : Unit → RaftCore → Prop} (hT : s.currentTerm ≤ ae.term)
    (hr : s.role ≠ .leader) (h : ∀ t, Ready ae s t → Ends t (checkEntries K p ae t.currentTerm) Q) :
    Ends s (onAppendEntries K p ae) Q := by
  have hgo : ∀ {t : RaftCore}, Ready ae s (timed K t) →
      Ends t (do resetElectionTimer K; checkEntries K p ae s.currentTerm) Q := by
    intro t ht
    refine meets_bind (meets_mono ends_resetElectionTimer fun _ _ u hu => ?_)
    subst hu
    rw [← ht.term]
    exact h _ ht
  refine meets_read_bind (meets_ite (fun hlt => absurd hT (Nat.not_le.mpr hlt)) fun _ =>
    meets_ite (fun hl => absurd hl hr) fun _ => ends_write_bind ?_)
  refine meets_bind (meets_when (fun hc => ?_) fun hc => hgo ?_)
  · refine meets_mono (ends_becomeFollower _ _) fun _ _ t ht => hgo ?_
    subst ht
    rw [lowered_eq]
    refine ⟨rfl, ?_, ?_, rfl, ?_, rfl, rfl, rfl, Option.some_ne_none _, if_neg hr, [_], rfl, rfl⟩
    · exact Nat.max_self _
    · exact if_neg (Nat.lt_irrefl _)
    · exact if_neg (Nat.lt_irrefl _)
  · refine ⟨rfl, rfl, rfl, ?_, rfl, rfl, rfl, rfl, Option.some_ne_none _, rfl, emits_of_out rfl⟩
    cases hrole : s.role with
    | follower => rfl
    | candidate => exact absurd hrole hc
    | leader => exact absurd hrole hr

theorem Noted.spliced (h : Noted s t) (k : Spliced K p ae t u) : Spliced K p ae s u := by
  have hemits := h.emits
  obtain ⟨o, ho, rfl⟩ := h
  exact ⟨k.log, k.term, k.vote, k.role, k.leader, k.commit, k.idle, k.inline, hemits.trans k.reply⟩

theorem ends_checkEntries_passes (hlen : ae.prevLogIndex ≤ s.log.length)
    (hterm : s.log.termAt ae.prevLogIndex = ae.prevLogTerm) :
    Ends s (checkEntries K p ae s.currentTerm) (fun _ t => Spliced K p ae s t) := by
  refine meets_read_bind (meets_ite (fun hlt => absurd hlen (Nat.not_le.mpr hlt)) fun _ => ?_)
  refine meets_bind (meets_mono (ends_termAt _) fun v _ t ht => ?_)
  obtain ⟨rfl, ht⟩ := ht
  refine meets_ite (fun hne => absurd hterm hne) fun _ => ?_
  have hcur : t.currentTerm = s.currentTerm := ht.counted.silent.term
  rw [← hcur]
  rw [← ht.log] at hlen
  exact meets_mono (ends_acceptEntries_spliced hlen) fun _ _ u hu => ht.spliced hu

theorem ends_checkEntries_refused
    (h : ¬ (ae.prevLogIndex ≤ s.log.length ∧ s.log.termAt ae.prevLogIndex = ae.prevLogTerm)) (cur : ℕ) :
    Ends s (checkEntries K p ae cur) (fun _ t => t.log = s.log) := by
  refine meets_read_bind (meets_ite (fun _ => ends_write rfl) fun hlen => ?_)
  refine meets_bind (meets_mono (ends_termAt _) fun v _ t ht => ?_)
  obtain ⟨rfl, ht⟩ := ht
  refine meets_ite (fun _ => ?_) fun heq => absurd ⟨Nat.not_lt.mp hlen, not_not.mp heq⟩ h
  refine meets_bind (meets_mono ends_firstOfTerm fun w _ u hu => ?_)
  exact ends_write (hu.2.log.trans ht.log)

/-- **The core after a message that it has taken.** -/
structure Taken (K : Ctx) (p : NodeId) (ae : AppendEntries) (s t : RaftCore) : Prop where
  log : t.log = splice LogEntry.term s.log ae.prevLogIndex ae.entries
  term : t.currentTerm = ae.term
  vote : t.votedFor = if s.currentTerm < ae.term then none else s.votedFor
  role : t.role = .follower
  leader : t.leaderId = some ae.leaderId
  commit : t.commitIndex = followerCommit s.commitIndex ae
  idle : (s.commitIndex < ae.leaderCommit → t.commitIndex ≤ s.lastApplied) →
    t.lastApplied = s.lastApplied ∧ t.sm = s.sm
  inline : K.applySink = none → s.commitIndex < ae.leaderCommit → t.commitIndex ≤ t.lastApplied
  reply : Emits s t [(p, .appendEntriesReply ⟨ae.term, true, confirmedThrough ae, 0⟩)]

/-- The term rule for an AppendEntries. -/
theorem lifted_appendEntries (ae : AppendEntries) : lifted K s (.appendEntries ae) =
    if ae.term > s.currentTerm then
      { lowered K s ae.term with out := s.out ++ [.transition ae.term .follower .higherTermSeen s.log] }
    else s := rfl

section Lifted

variable (K s)

/-- The term rule touches neither the log nor what is committed and applied. -/
theorem lifted_keeps (m : Message) : (lifted K s m).log = s.log ∧
    (lifted K s m).commitIndex = s.commitIndex ∧ (lifted K s m).lastApplied = s.lastApplied ∧
    (lifted K s m).sm = s.sm := by
  obtain hs | ⟨T, -, hs⟩ := lifted_cases K s m
  · rw [hs]
    exact ⟨rfl, rfl, rfl, rfl⟩
  · rw [hs, lowered_eq]
    exact ⟨rfl, rfl, rfl, rfl⟩

theorem emits_lifted (m : Message) : Emits s (lifted K s m) [] := by
  obtain hs | ⟨T, -, hs⟩ := lifted_cases K s m
  · exact emits_of_out (by rw [hs])
  · exact ⟨[.transition T .follower .higherTermSeen s.log], by rw [hs], rfl⟩

theorem currentTerm_lifted (ae : AppendEntries) :
    (lifted K s (.appendEntries ae)).currentTerm = max s.currentTerm ae.term := by
  rw [lifted_appendEntries]
  by_cases h : ae.term > s.currentTerm
  · rw [if_pos h, lowered_eq]
  · rw [if_neg h, Nat.max_eq_left (Nat.not_lt.mp h)]

end Lifted

/-- **A message that passes is taken.** -/
theorem ends_handle_passes (h : Passes s ae) :
    Ends s (handle K p (.appendEntries ae)) (fun _ t => Taken K p ae s t) := by
  refine meets_bind (meets_mono (ends_liftTerm_eq _) fun _ _ t ht => ?_)
  obtain ⟨hlog, hcommit, hlast, hsm⟩ := lifted_keeps K s (.appendEntries ae)
  rw [← ht] at hlog hcommit hlast hsm
  have hemits : Emits s t [] := ht ▸ emits_lifted K s _
  have hterm : t.currentTerm = ae.term := by
    rw [ht, currentTerm_lifted, Nat.max_eq_right h.term]
  have hvote : t.votedFor = if s.currentTerm < ae.term then none else s.votedFor := by
    rw [ht, lifted_appendEntries, lowered_eq]
    split_ifs <;> rfl
  have hrole : t.role ≠ .leader := by
    rw [ht, lifted_appendEntries]
    split_ifs with hT
    · exact fun hr => Role.noConfusion hr
    · exact fun hr => hT (h.role hr)
  refine ends_onAppendEntries_ready (Nat.le_of_eq hterm) hrole fun u hu => ?_
  have hlen : ae.prevLogIndex ≤ u.log.length := by rw [hu.log, hlog]; exact h.length
  have hprev : u.log.termAt ae.prevLogIndex = ae.prevLogTerm := by rw [hu.log, hlog]; exact h.prevTerm
  refine meets_mono (ends_checkEntries_passes hlen hprev) fun _ _ v hv => ?_
  have hidle := hv.idle
  have hinline := hv.inline
  rw [hu.commit, hcommit, hu.lastApplied, hlast, hu.sm, hsm] at hidle
  rw [hu.commit, hcommit] at hinline
  refine ⟨?_, ?_, ?_, ?_, ?_, ?_, hidle, hinline, ?_⟩
  · rw [hv.log, hu.log, hlog]
  · rw [hv.term, hu.term, hterm]
  · rw [hv.vote, hu.vote, hvote]
  · rw [hv.role, hu.role]
  · rw [hv.leader, hu.leader]
  · rw [hv.commit, hu.commit, hcommit]
  · have hreply := (hemits.trans hu.emits).trans hv.reply
    rwa [hu.term, hterm] at hreply

/-- **A message that does not pass leaves the log.** -/
theorem ends_handle_refused (h : ¬ Passes s ae) :
    Ends s (handle K p (.appendEntries ae)) (fun _ t => t.log = s.log) := by
  refine meets_bind (meets_mono (ends_liftTerm_eq _) fun _ _ t ht => ?_)
  have hlog : t.log = s.log := ht ▸ (lifted_keeps K s _).1
  have hterm : t.currentTerm = max s.currentTerm ae.term := ht ▸ currentTerm_lifted K s ae
  by_cases hT : t.currentTerm ≤ ae.term
  · by_cases hr : t.role = .leader
    · refine meets_read_bind (meets_ite (fun hlt => absurd hT (Nat.not_le.mpr hlt)) fun _ =>
        meets_ite (fun _ => ends_write hlog) fun hnl => absurd hr hnl)
    · refine ends_onAppendEntries_ready hT hr fun u hu => ?_
      have hsame : u.log = s.log := hu.log.trans hlog
      refine meets_mono (ends_checkEntries_refused (fun hc => h ?_) _) fun _ _ v hv => hv.trans hsame
      rw [hsame] at hc
      refine ⟨by omega, fun hl => ?_, hc.1, hc.2⟩
      -- a leader that is none after the term rule has seen a higher term
      by_contra hge
      rw [ht, lifted_appendEntries, if_neg hge] at hr
      exact hr hl
  · refine meets_read_bind (meets_ite (fun _ => ends_write hlog) fun hge => absurd (Nat.not_lt.mp hge) hT)

/-! ## 3. Parts of one log -/

/-- **The message carries a part of the log `L`.** -/
structure Window (L : InMemoryLog) (ae : AppendEntries) : Prop where
  length : ae.prevLogIndex ≤ L.length
  prevTerm : ae.prevLogTerm = L.termAt ae.prevLogIndex
  entries : ∃ n, ae.entries = (L.drop ae.prevLogIndex).take n

/-- A message that is delivered: when, on which node, from whom. -/
structure Delivery where
  ctx : Ctx
  sender : NodeId
  ae : AppendEntries

/-- The core when it has handled it. -/
def deliver (s : RaftCore) (d : Delivery) : RaftCore :=
  (handle d.ctx d.sender (.appendEntries d.ae)).final s

variable {L : InMemoryLog}

/-- The check makes sure of all that lies below. -/
theorem Passes.take_eq (h : Passes s ae) (hw : Window L ae) (hM : Matching LogEntry.term s.log L) :
    s.log.take ae.prevLogIndex = L.take ae.prevLogIndex := by
  have hterm := h.prevTerm.trans hw.prevTerm
  have hlen := h.length
  have hL := hw.length
  cases hi : ae.prevLogIndex with
  | zero => rfl
  | succ i =>
      rw [hi] at hterm hlen hL
      have he : s.log[i]? = some s.log[i] := List.getElem?_eq_getElem hlen
      have hf : L[i]? = some L[i] := List.getElem?_eq_getElem hL
      rw [InMemoryLog.termAt_succ he, InMemoryLog.termAt_succ hf] at hterm
      exact hM i _ _ he hf hterm

/-- Step: one delivery. -/
theorem closer_deliver {d : Delivery} (hw : Window L d.ae) (hM : Matching LogEntry.term s.log L) :
    Closer LogEntry.term L s.log (deliver s d).log := by
  by_cases h : Passes s d.ae
  · have ht := ends_final (ends_handle_passes (K := d.ctx) (p := d.sender) h)
    obtain ⟨n, hn⟩ := hw.entries
    rw [deliver, ht.log, hn]
    exact closer_splice hM (h.take_eq hw hM) h.length hw.length
  · have ht := ends_final (ends_handle_refused (K := d.ctx) (p := d.sender) h)
    rw [deliver, ht]
    exact Closer.refl L s.log

/-- Run: any deliveries, in any order. -/
theorem closer_deliveries : ∀ {ds : List Delivery} {s : RaftCore}, (∀ d ∈ ds, Window L d.ae) →
    Matching LogEntry.term s.log L → Closer LogEntry.term L s.log (ds.foldl deliver s).log
  | [], s, _, _ => Closer.refl L s.log
  | d :: ds, s, hw, hM => by
      have hd := closer_deliver (hw d List.mem_cons_self) hM
      have hds := closer_deliveries (fun x hx => hw x (List.mem_cons_of_mem d hx)) (hd.matching hM)
      exact hd.trans hds

/-! ## 4. The effect of a message -/

/-- A message that was taken passes again, and finds everything done. -/
theorem Taken.passes (h : Passes s ae) (ht : Taken K p ae s t) : Passes t ae := by
  have hlen : ae.prevLogIndex ≤ t.log.length := by
    rw [ht.log]
    have := (fits_splice LogEntry.term h.length ae.entries).1
    omega
  refine ⟨Nat.le_of_eq ht.term, fun hr => ?_, hlen, ?_⟩
  · rw [ht.role] at hr
    exact Role.noConfusion hr
  · rw [← h.prevTerm]
    have htake : t.log.take ae.prevLogIndex = s.log.take ae.prevLogIndex := by
      rw [ht.log, take_splice h.length]
    cases hi : ae.prevLogIndex with
    | zero => rfl
    | succ i =>
        rw [hi] at htake
        have hget : t.log[i]? = s.log[i]? := by
          rw [← List.getElem?_take_of_lt (Nat.lt_succ_self i), htake,
            List.getElem?_take_of_lt (Nat.lt_succ_self i)]
        rw [InMemoryLog.termAt, InMemoryLog.termAt, Nat.add_sub_cancel, hget]

theorem followerCommit_again (c : ℕ) (ae : AppendEntries) :
    followerCommit (followerCommit c ae) ae = followerCommit c ae := by
  unfold followerCommit
  by_cases h : c < ae.leaderCommit
  · rw [if_pos h]
    split_ifs <;> rfl
  · rw [if_neg h, if_neg h]

/-- What was due has been applied inline the first time. -/
theorem Taken.again {K' : Ctx} {p' : NodeId} (hst : Taken K p ae s t) (hsink : K.applySink = none)
    (htu : Taken K' p' ae t u) : u.lastApplied = t.lastApplied ∧ u.sm = t.sm := by
  refine htu.idle fun hlt => ?_
  have hraised : s.commitIndex < ae.leaderCommit := by
    by_contra hge
    rw [hst.commit, followerCommit, if_neg hge] at hlt
    exact hge hlt
  rw [htu.commit, hst.commit, followerCommit_again, ← hst.commit]
  exact hst.inline hsink hraised

/-- **The effect of an AppendEntries on a follower's log.** For every core, every message that passes the
    checks and every context: what lies up to `prevLogIndex` is left; if no entry of another term is met,
    the log is a beginning of the new one and only what is missing is appended; otherwise the log is cut
    at the first such entry and the rest of the message follows; the one answer acks
    `prevLogIndex + entries.size()`. Handled once more, from whomever and whenever, the message changes
    nothing, and the answer is the same; where entries are applied inline, none is applied again. And
    messages with parts of one log `L` that the core's log matches, whichever of them are delivered, in
    any order and any number of times, never shorten what the two logs have in common, and remove no
    entry of `L`. -/
theorem append_entries_effect :
    (∀ (K K' : Ctx) (p p' : NodeId) (ae : AppendEntries) (s t u : RaftCore), Passes s ae →
      t = (handle K p (.appendEntries ae)).final s → u = (handle K' p' (.appendEntries ae)).final t →
      t.log.take ae.prevLogIndex = s.log.take ae.prevLogIndex ∧
      (FitsFor LogEntry.term s.log ae.prevLogIndex ae.entries ae.entries.length →
        s.log <+: t.log ∧ t.log.length = max s.log.length (ae.prevLogIndex + ae.entries.length) ∧
        t.log = s.log ++ ae.entries.drop (s.log.length - ae.prevLogIndex)) ∧
      (∀ (j : ℕ) (e f : LogEntry), ae.entries[j]? = some e → s.log[ae.prevLogIndex + j]? = some f →
        f.term ≠ e.term → FitsFor LogEntry.term s.log ae.prevLogIndex ae.entries j →
        t.log = s.log.take (ae.prevLogIndex + j) ++ ae.entries.drop j) ∧
      Emits s t [(p, .appendEntriesReply ⟨ae.term, true, ae.prevLogIndex + ae.entries.length, 0⟩)] ∧
      (u.log = t.log ∧ u.currentTerm = t.currentTerm ∧ u.votedFor = t.votedFor ∧ u.role = t.role ∧
        u.leaderId = t.leaderId ∧ u.commitIndex = t.commitIndex ∧
        (K.applySink = none → u.lastApplied = t.lastApplied ∧ u.sm = t.sm) ∧
        Emits t u [(p', .appendEntriesReply ⟨ae.term, true, ae.prevLogIndex + ae.entries.length, 0⟩)])) ∧
    (∀ (L : InMemoryLog) (s : RaftCore) (ds : List Delivery), Matching LogEntry.term s.log L →
      (∀ d ∈ ds, Window L d.ae) →
      commonLength s.log L ≤ commonLength (ds.foldl deliver s).log L ∧
      ∀ (i : ℕ) (e : LogEntry), s.log[i]? = some e → L[i]? = some e →
        (ds.foldl deliver s).log[i]? = some e) := by
  refine ⟨fun K K' p p' ae s t u h ht hu => ?_, fun L s ds hM hw => ?_⟩
  · have hst : Taken K p ae s t := ht ▸ ends_final (ends_handle_passes h)
    have htu : Taken K' p' ae t u := hu ▸ ends_final (ends_handle_passes (hst.passes h))
    refine ⟨?_, fun hfit => ?_, fun j e f he hf hne hfit => ?_, hst.reply, ?_⟩
    · rw [hst.log, take_splice h.length]
    · have hR : t.log = s.log ++ ae.entries.drop (s.log.length - ae.prevLogIndex) := by
        rw [hst.log, splice_fits h.length hfit]
      refine ⟨⟨_, hR.symm⟩, ?_, hR⟩
      have hlen := h.length
      rw [hR, List.length_append, List.length_drop]
      omega
    · rw [hst.log, splice_conflict he hf hne hfit]
    · refine ⟨?_, ?_, ?_, ?_, ?_, ?_, fun hsink => hst.again hsink htu, htu.reply⟩
      · rw [htu.log, hst.log, splice_again h.length]
      · rw [htu.term, hst.term]
      · rw [htu.vote, if_neg (by rw [hst.term]; exact Nat.lt_irrefl _)]
      · rw [htu.role, hst.role]
      · rw [htu.leader, hst.leader]
      · rw [htu.commit, hst.commit, followerCommit_again]
  · have hcloser := closer_deliveries hw hM
    exact ⟨hcloser.common, hcloser.kept⟩

/-- A follower with three entries, and a message that replaces the last two of them. -/
def threeEntries : RaftCore := { currentTerm := 2, log := [⟨1, []⟩, ⟨1, [1]⟩, ⟨2, [2]⟩] }

def firstOfThree : Ctx := { self := 1, peers := [2, 3] }

def replacing : AppendEntries := ⟨3, 2, 1, 1, 0, [⟨1, [1]⟩, ⟨3, [3]⟩]⟩

/-- The second entry is skipped, the third is replaced; and the parts of the leader's log do not harm. -/
theorem append_entries_effect_replacing : Passes threeEntries replacing ∧
    ((handle firstOfThree 2 (.appendEntries replacing)).final threeEntries).log =
      [⟨1, []⟩, ⟨1, [1]⟩, ⟨3, [3]⟩] ∧
    commonLength threeEntries.log [⟨1, []⟩, ⟨1, [1]⟩, ⟨3, [3]⟩] ≤
      commonLength ([⟨firstOfThree, 2, replacing⟩].foldl deliver threeEntries).log
        [⟨1, []⟩, ⟨1, [1]⟩, ⟨3, [3]⟩] := by
  have hpass : Passes threeEntries replacing := ⟨by decide, by decide, by decide, by decide⟩
  refine ⟨hpass, ?_, ?_⟩
  · have heffect := append_entries_effect.1 firstOfThree firstOfThree 2 2 replacing threeEntries _ _ hpass rfl rfl
    refine heffect.2.2.1 1 ⟨3, [3]⟩ ⟨2, [2]⟩ rfl rfl (by decide) ?_
    intro j hj e f he hf
    obtain rfl : j = 0 := by omega
    cases he
    cases hf
    rfl
  · refine (append_entries_effect.2 _ _ _ ?_ ?_).1
    · intro i e f he hf hterm
      match i with
      | 0 => cases he; cases hf; rfl
      | 1 => cases he; cases hf; rfl
      | 2 => cases he; cases hf; exact absurd hterm (by decide)
      | i + 3 => cases he
    · intro d hd
      obtain rfl := List.mem_singleton.mp hd
      exact ⟨by decide, by decide, 2, rfl⟩

end Rsm.Raft
