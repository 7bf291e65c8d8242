/-
  File:      RaftRsm/Raft/Reading.lean
  Subject:   HOW A CORE READS in the abstract replicated log: what each message, each line of the
             history and each member of the state says about it.

  The abstract state (`Replication.State`) has no messages. A message of the cluster is a FACT
  about the abstract history, which only grows, so a fact that held when the message was sent
  holds whenever it is delivered, however late and however often.

  * `Covered` -- a commit index is covered: some leader's committed prefix reaches it;
  * `MsgOk`, `OutputOk` -- what a message sent, and what any line of the history says. The error
    lines say `False`;
  * `Mid` -- how a core reads at EVERY moment; `Rest` -- what holds in addition between two calls;
  * `contract` -- the terms on which the cores share the abstract state.
-/
import RaftRsm.Raft.Cluster
import RaftRsm.Replication.Completeness
import Mathlib.Data.Finset.Lattice.Fold

namespace Rsm.Raft

open Rsm.Rpc Rsm.Storage Process Replication

/-- The abstract state of a cluster. -/
abbrev Abs := Replication.State NodeId LogEntry

/-- The term whose win a line announces. -/
def Output.won : Output → Option ℕ
  | .transition T .leader _ _ => some T
  | _ => none

namespace Cluster

variable (C : Cluster)

/-- Quorums are the majorities of the members. -/
def setting : Setting NodeId LogEntry where
  stamp e := e.term
  Quorum Q := Q ⊆ C.ids ∧ C.ids.card / 2 + 1 ≤ Q.card
  meet := by
    intro Q R hQ hR
    have hlt : C.ids.card < Q.card + R.card := by omega
    obtain ⟨v, hv⟩ := Finset.inter_nonempty_of_card_lt_card_add_card hQ.1 hR.1 hlt
    exact ⟨v, Finset.mem_inter.mp hv⟩

/-! ## 1. Covered commit indices -/

/-- **The first `c` entries of `L` are covered**: committed by a leader of a term up to `T`. -/
def Covered (a : Abs) (T : ℕ) (L : InMemoryLog) (c : ℕ) : Prop :=
  c ≤ L.length ∧ (c = 0 ∨ ∃ U k, U ≤ T ∧ c ≤ k ∧ Committed C.setting a U k ∧ L.take c <+: a.llog U)

variable {C} {a b : Abs} {T U : ℕ} {L M : InMemoryLog} {c : ℕ}

theorem covered_zero : C.Covered a T L 0 := ⟨Nat.zero_le _, .inl rfl⟩

theorem Covered.mono (hA : AckInv C.setting a) (h : C.Covered a T L c) (hab : Le a b)
    (hTU : T ≤ U) : C.Covered b U L c := by
  obtain ⟨hlen, hc | ⟨V, k, hV, hk, hcom, hp⟩⟩ := h
  · exact ⟨hlen, .inl hc⟩
  · obtain ⟨⟨l, hl⟩, -⟩ := hcom.led hA
    exact ⟨hlen, .inr ⟨V, k, hV.trans hTU, hk, hcom.mono hA hab, hp.trans (hab.llog hl)⟩⟩

theorem Covered.congr (h : C.Covered a T L c) (hlen : c ≤ M.length)
    (he : M.take c = L.take c) : C.Covered a T M c := by
  obtain ⟨-, hc | ⟨V, k, hV, hk, hcom, hp⟩⟩ := h
  · exact ⟨hlen, .inl hc⟩
  · exact ⟨hlen, .inr ⟨V, k, hV, hk, hcom, by rw [he]; exact hp⟩⟩

/-- A covered prefix is in the log of the leader of the term. -/
theorem Covered.llog (hI : Inv C.setting a) (h : C.Covered a T L c) {l : NodeId}
    (hl : a.leader T = some l) : L.take c <+: a.llog T := by
  obtain ⟨hlen, rfl | ⟨V, k, hV, hk, hcom, hp⟩⟩ := h
  · exact List.nil_prefix
  · refine List.IsPrefix.trans ?_ (committed_llog hI hcom hV hl)
    refine List.prefix_of_prefix_length_le hp ( List.take_prefix _ _) ?_
    have := (hcom.led hI.ack).2
    rw [List.length_take, List.length_take]
    omega

/-- An entry of a covered prefix is chosen. -/
theorem Covered.chosen (h : C.Covered a T L c) {i : ℕ} {e : LogEntry} (hi : i < c)
    (he : L[i]? = some e) : Chosen C.setting a i e := by
  obtain ⟨hlen, rfl | ⟨V, k, hV, hk, hcom, hp⟩⟩ := h
  · omega
  · refine ⟨V, k, hcom, by omega, getElem_of_pre hp ?_⟩
    rw [List.getElem?_take_of_lt hi]
    exact he

/-! ## 2. Messages and the history -/

variable (C)

/-- What an AppendEntries of `n` says: a piece of the log of the term's leader, up to the end it
    had, and a covered commit index inside it. -/
structure AeOk (a : Abs) (n : NodeId) (ae : AppendEntries) : Prop where
  led : a.leader ae.term = some n
  leaderId : ae.leaderId = n
  len : ae.prevLogIndex + ae.entries.length ≤ (a.llog ae.term).length
  prev : ae.prevLogTerm = InMemoryLog.termAt (a.llog ae.term) ae.prevLogIndex
  entries : ae.entries <+: (a.llog ae.term).drop ae.prevLogIndex
  commit_le : ae.leaderCommit ≤ ae.prevLogIndex + ae.entries.length
  commit : C.Covered a ae.term (a.llog ae.term) ae.leaderCommit

/-- **What a message says** that `n` has sent to `p`. -/
def MsgOk (a : Abs) (n p : NodeId) : Message → Prop
  | .requestVote rv => rv.candidateId = n ∧
      ∃ L, a.cand n rv.term L ∧ L.length = rv.lastLogIndex ∧ InMemoryLog.lastTerm L = rv.lastLogTerm
  | .requestVoteReply r => r.voteGranted = true → ∃ L, a.voted n r.term p L
  | .appendEntries ae => C.AeOk a n ae
  | .appendEntriesReply r => r.success = true → a.acked n r.term r.conflictIndex
  | .clientRequest _ => True
  | .clientReply _ => True

/-- **What a line of the history of `n` says.** -/
def OutputOk (a : Abs) (n : NodeId) : Output → Prop
  | .send p m => p ≠ n ∧ C.MsgOk a n p m
  | .transition T role _ L => role = .leader → a.leader T = some n ∧ a.elog T = L
  | .clientRequest _ _ => True
  | .apply i e => 1 ≤ i ∧ Chosen C.setting a (i - 1) e
  | .electionSafetyViolation _ _ => False
  | .logMatchingViolation _ => False
  | .ackedBeyondLog _ _ => False
  | .termAtOutOfRange _ => False
  | .entryAtOutOfRange _ => False

variable {C} {n p : NodeId}

theorem AeOk.mono (hA : AckInv C.setting a) {ae : AppendEntries} (h : C.AeOk a n ae)
    (hab : Le a b) : C.AeOk b n ae := by
  have hp := hab.llog h.led
  have hlen := h.len
  have htake := hab.take_llog h.led (k := ae.prevLogIndex) (by omega)
  refine ⟨hab.leader h.led, h.leaderId, h.len.trans hp.length_le, ?_, ?_, h.commit_le, ?_⟩
  · rw [h.prev, InMemoryLog.termAt_of_take htake]
  · exact h.entries.trans (hp.drop _)
  · refine (h.commit.mono hA hab (Nat.le_refl _)).congr (h.commit.1.trans hp.length_le) ?_
    exact hab.take_llog h.led h.commit.1

theorem MsgOk.mono (hA : AckInv C.setting a) {m : Message} (h : C.MsgOk a n p m)
    (hab : Le a b) : C.MsgOk b n p m := by
  cases m with
  | requestVote rv =>
      obtain ⟨hid, L, hc, hL⟩ := h
      exact ⟨hid, L, hab.cand hc, hL⟩
  | requestVoteReply r =>
      intro hg
      obtain ⟨L, hv⟩ := h hg
      exact ⟨L, hab.voted hv⟩
  | appendEntries ae => exact AeOk.mono hA h hab
  | appendEntriesReply r => exact fun hs => hab.acked (h hs)
  | clientRequest req => trivial
  | clientReply rep => trivial

theorem OutputOk.mono (hA : AckInv C.setting a) {o : Output} (h : C.OutputOk a n o)
    (hab : Le a b) : C.OutputOk b n o := by
  cases o with
  | send p m => exact ⟨h.1, h.2.mono hA hab⟩
  | transition T role ev L =>
      intro hr
      obtain ⟨h1, h2⟩ := h hr
      exact ⟨hab.leader h1, (hab.elog h1).trans h2⟩
  | apply i e => exact ⟨h.1, h.2.mono hA hab⟩
  | _ => exact h

/-! ## 3. How a core reads -/

variable (C)

/-- The window a leader keeps for every peer. -/
def Window (n : NodeId) (s : RaftCore) : Prop :=
  s.role = .leader → ∀ p ∈ C.peers n, s.matchIndex.getD p 0 < s.nextIndex.getD p 0 ∧
    s.nextIndex.getD p 0 ≤ s.log.length + 1

/-- **How the core of `n` reads at every moment.** -/
structure Mid (a : Abs) (n : NodeId) (s : RaftCore) : Prop where
  inv : Inv C.setting a
  term : a.term n = s.currentTerm
  vote : a.vote n = s.votedFor
  log : a.log n = s.log
  out : ∀ o ∈ s.out, C.OutputOk a n o
  won : ∀ {T}, a.leader T = some n → ∃ L, Output.transition T .leader .wonElection L ∈ s.out
  once : (s.out.filterMap Output.won).Nodup
  commit : C.Covered a s.currentTerm s.log s.commitIndex
  applied : s.lastApplied ≤ s.commitIndex
  sm : s.sm <+: s.log.take s.commitIndex
  window : C.Window n s

/-- What a candidate has: its candidacy, no win yet, and the votes it counts. -/
structure Cand (a : Abs) (n : NodeId) (s : RaftCore) : Prop where
  cand : a.cand n s.currentTerm s.log
  fresh : a.leader s.currentTerm ≠ some n
  votes : ∀ v ∈ s.votesFrom, v ∈ C.ids ∧ ∃ L, a.voted v s.currentTerm n L

/-- What a leader has: its win, and an acknowledgement behind every match index. -/
structure Lead (a : Abs) (n : NodeId) (s : RaftCore) : Prop where
  won : a.leader s.currentTerm = some n
  keys : ∀ p ∈ s.matchIndex, p ∈ C.peers n
  acked : ∀ p, s.matchIndex.getD p 0 = 0 ∨ a.acked p s.currentTerm (s.matchIndex.getD p 0)

/-- **What holds in addition between two calls.** -/
structure Rest (a : Abs) (n : NodeId) (s : RaftCore) : Prop where
  cand : s.role = .candidate → C.Cand a n s
  lead : s.role = .leader → C.Lead a n s
  led : ∀ {l}, s.leaderId = some l → a.leader s.currentTerm = some l
  sm : s.sm = s.log.take s.lastApplied

/-- **What one write may do to a core**: the commit and apply indices do not go back, committed
    entries stay, the history grows. -/
structure Moved (s t : RaftCore) : Prop where
  commit : s.commitIndex ≤ t.commitIndex
  applied : s.lastApplied ≤ t.lastApplied
  kept : t.log.take s.commitIndex = s.log.take s.commitIndex
  out : s.out <+: t.out

/-- **The contract of `n`.** -/
def contract (n : NodeId) : Contract Abs RaftCore where
  rely a b := Frame n a b ∧ (Inv C.setting a → Inv C.setting b)
  guar a b := a = b ∨ Step C.setting n a b
  mid a s := C.Mid a n s
  move := Moved

variable {C} {s t : RaftCore}

theorem Mid.frame (h : C.Mid a n s) (hab : Frame n a b) (hb : Inv C.setting b) : C.Mid b n s where
  inv := hb
  term := hab.own_term.trans h.term
  vote := hab.own_vote.trans h.vote
  log := hab.own_log.trans h.log
  out o ho := (h.out o ho).mono h.inv.ack hab.toLe
  won hl := h.won (hab.own_win hl)
  once := h.once
  commit := h.commit.mono h.inv.ack hab.toLe (Nat.le_refl _)
  applied := h.applied
  sm := h.sm
  window := h.window

/-- **The core's own step on its disk**: the new term, vote and log read correctly if the step
    writes them, wins nothing and leaves the committed entries. -/
theorem Mid.disk (h : C.Mid a n s) (hab : Step C.setting n a b) {T : ℕ} {v : Option NodeId}
    {L : InMemoryLog} (hT : b.term n = T) (hv : b.vote n = v) (hL : b.log n = L)
    (hwon : ∀ {U}, b.leader U = some n → a.leader U = some n)
    (hc : L.take s.commitIndex = s.log.take s.commitIndex)
    (hw : C.Window n { s with currentTerm := T, votedFor := v, log := L }) :
    C.Mid b n { s with currentTerm := T, votedFor := v, log := L } where
  inv := inv_step h.inv hab
  term := hT
  vote := hv
  log := hL
  out o ho := (h.out o ho).mono h.inv.ack (le_of_step hab)
  won hl := h.won (hwon hl)
  once := h.once
  commit := by
    have hle : s.currentTerm ≤ T := by
      rw [← h.term, ← hT]
      exact (le_of_step hab).term n
    have hlen : s.commitIndex ≤ L.length := by
      have h1 := congrArg List.length hc
      have h2 := h.commit.1
      rw [List.length_take, List.length_take] at h1
      omega
    exact (h.commit.mono h.inv.ack (le_of_step hab) hle).congr hlen hc
  applied := h.applied
  sm := by
    show s.sm <+: L.take s.commitIndex
    rw [hc]
    exact h.sm
  window := hw

/-- A win that has been announced is one. -/
theorem Mid.led_of_won (h : C.Mid a n s) {T : ℕ} (hT : T ∈ s.out.filterMap Output.won) :
    a.leader T = some n := by
  obtain ⟨o, ho, hw⟩ := List.mem_filterMap.mp hT
  have hok := h.out o ho
  unfold Output.won at hw
  split at hw
  · cases hw
    exact (hok rfl).1
  · cases hw

theorem Cand.later (h : C.Cand a n s) (hab : Le a b)
    (hwon : ∀ {T}, b.leader T = some n → a.leader T = some n) : C.Cand b n s where
  cand := hab.cand h.cand
  fresh hl := h.fresh (hwon hl)
  votes v hv := by
    obtain ⟨hid, L, hL⟩ := h.votes v hv
    exact ⟨hid, L, hab.voted hL⟩

theorem Lead.mono (h : C.Lead a n s) (hab : Le a b) : C.Lead b n s where
  won := hab.leader h.won
  keys := h.keys
  acked p := (h.acked p).imp id hab.acked

theorem Cand.congr (h : C.Cand a n s) (hT : t.currentTerm = s.currentTerm) (hlog : t.log = s.log)
    (hv : t.votesFrom = s.votesFrom) : C.Cand a n t := by
  refine ⟨?_, ?_, ?_⟩
  · rw [hT, hlog]; exact h.cand
  · rw [hT]; exact h.fresh
  · rw [hT, hv]; exact h.votes

theorem Lead.congr (h : C.Lead a n s) (hT : t.currentTerm = s.currentTerm)
    (hm : t.matchIndex = s.matchIndex) : C.Lead a n t := by
  refine ⟨?_, ?_, ?_⟩
  · rw [hT]; exact h.won
  · rw [hm]; exact h.keys
  · rw [hT, hm]; exact h.acked

theorem Rest.later (h : C.Rest a n s) (hab : Le a b)
    (hwon : ∀ {T}, b.leader T = some n → a.leader T = some n) : C.Rest b n s where
  cand hr := (h.cand hr).later hab hwon
  lead hr := (h.lead hr).mono hab
  led hl := hab.leader (h.led hl)
  sm := h.sm

theorem Rest.frame (h : C.Rest a n s) (hab : Frame n a b) : C.Rest b n s :=
  h.later hab.toLe hab.own_win

/-- The leader's log is the log of its term. -/
theorem Lead.log (h : C.Lead a n s) (hm : C.Mid a n s) : a.llog s.currentTerm = s.log := by
  rw [← hm.inv.log.own h.won hm.term, hm.log]

theorem moved_refl (s : RaftCore) : Moved s s :=
  ⟨Nat.le_refl _, Nat.le_refl _, rfl, List.prefix_refl _⟩

theorem Moved.trans {u : RaftCore} (h : Moved s t) (k : Moved t u) : Moved s u where
  commit := h.commit.trans k.commit
  applied := h.applied.trans k.applied
  out := h.out.trans k.out
  kept := by
    have h1 : u.log.take s.commitIndex = t.log.take s.commitIndex := by
      have hk := congrArg (List.take s.commitIndex) k.kept
      rwa [List.take_take, List.take_take, Nat.min_eq_left h.commit] at hk
    rw [h1, h.kept]

/-! ## 4. The rules for one write -/

/-- The members that decide how a core reads, apart from the window. -/
structure Same (s t : RaftCore) : Prop where
  currentTerm : t.currentTerm = s.currentTerm
  votedFor : t.votedFor = s.votedFor
  log : t.log = s.log
  commitIndex : t.commitIndex = s.commitIndex
  lastApplied : t.lastApplied = s.lastApplied
  sm : t.sm = s.sm
  out : t.out = s.out

theorem Mid.same (h : C.Mid a n s) (hs : Same s t) (hw : C.Window n t) : C.Mid a n t := by
  obtain ⟨h1, h2, h3, h4, h5, h6, h7⟩ := hs
  refine ⟨h.inv, ?_, ?_, ?_, ?_, ?_, ?_, ?_, ?_, ?_, hw⟩
  · rw [h1]; exact h.term
  · rw [h2]; exact h.vote
  · rw [h3]; exact h.log
  · rw [h7]; exact h.out
  · rw [h7]; exact h.won
  · rw [h7]; exact h.once
  · rw [h1, h3, h4]; exact h.commit
  · rw [h4, h5]; exact h.applied
  · rw [h3, h4, h6]; exact h.sm

theorem Same.moved (hs : Same s t) : Moved s t := by
  obtain ⟨-, -, h3, h4, h5, -, h7⟩ := hs
  exact ⟨h4.ge, h5.ge, by rw [h3], by rw [h7]⟩

/-- **A write with a step of the abstract state.** -/
theorem meets_act {f : RaftCore → RaftCore} {Q : Unit → Abs → RaftCore → Prop}
    (hm : C.Mid a n s) (hmv : Moved s (f s))
    (h : ∀ b, Frame n a b → C.Mid b n s →
      ∃ c, (b = c ∨ Step C.setting n b c) ∧ C.Mid c n (f s) ∧ Q () c (f s)) :
    Meets (C.contract n) a s (Prog.write f) Q := by
  refine meets_write hmv fun b hb => ?_
  obtain ⟨hfr, hinv⟩ := hb
  exact h b hfr (hm.frame hfr (hinv hm.inv))

/-- **A write that the reading does not see.** -/
theorem meets_quiet {f : RaftCore → RaftCore} {Q : Unit → Abs → RaftCore → Prop}
    (hm : C.Mid a n s) (hs : Same s (f s)) (hw : C.Window n (f s))
    (h : ∀ b, Frame n a b → C.Mid b n (f s) → Q () b (f s)) :
    Meets (C.contract n) a s (Prog.write f) Q := by
  refine meets_act hm hs.moved fun b hab hb => ?_
  have hb' := hb.same hs hw
  exact ⟨b, .inl rfl, hb', h b hab hb'⟩

/-- The history grows by a line that is true and announces no win. -/
theorem Mid.emit (h : C.Mid a n s) {o : Output} (hw : o.won = none) (ho : C.OutputOk a n o) :
    C.Mid a n { s with out := s.out ++ [o] } where
  inv := h.inv
  term := h.term
  vote := h.vote
  log := h.log
  out o' ho' := by
    rcases List.mem_append.mp ho' with ho' | ho'
    · exact h.out o' ho'
    · rw [List.mem_singleton.mp ho']
      exact ho
  won hl := by
    obtain ⟨L, hL⟩ := h.won hl
    exact ⟨L, List.mem_append_left _ hL⟩
  once := by
    rw [List.filterMap_append, List.filterMap_cons_none hw, List.filterMap_nil, List.append_nil]
    exact h.once
  commit := h.commit
  applied := h.applied
  sm := h.sm
  window := h.window

theorem moved_emit (s : RaftCore) (o : Output) : Moved s { s with out := s.out ++ [o] } :=
  ⟨Nat.le_refl _, Nat.le_refl _, rfl, List.prefix_append _ _⟩

/-- **A line of the history.** -/
theorem meets_emit {o : Output} {Q : Unit → Abs → RaftCore → Prop} (hm : C.Mid a n s)
    (hw : o.won = none) (ho : C.OutputOk a n o)
    (h : ∀ b, Frame n a b → C.Mid b n { s with out := s.out ++ [o] } →
      Q () b { s with out := s.out ++ [o] }) :
    Meets (C.contract n) a s (emit o) Q := by
  refine meets_act hm (moved_emit s o) fun b hab hb => ?_
  have hb' := hb.emit hw (ho.mono hm.inv.ack hab.toLe)
  exact ⟨b, .inl rfl, hb', h b hab hb'⟩

/-- A term read in range leaves no line. -/
theorem meets_termAt {i : ℕ} {Q : ℕ → Abs → RaftCore → Prop} (hi : i ≤ s.log.length)
    (h : Q (s.log.termAt i) a s) : Meets (C.contract n) a s (termAt i) Q := by
  refine meets_read_bind (meets_bind (meets_when (fun hn => absurd hi hn) fun _ => ?_))
  exact meets_pure h

/-- An entry read in range leaves no line. -/
theorem meets_entryAt {i : ℕ} {Q : LogEntry → Abs → RaftCore → Prop}
    (hi : 1 ≤ i ∧ i ≤ s.log.length) (h : Q (s.log.entryAt i) a s) :
    Meets (C.contract n) a s (entryAt i) Q := by
  refine meets_read_bind (meets_bind (meets_when (fun hn => absurd hi hn) fun _ => ?_))
  exact meets_pure h

end Cluster

end Rsm.Raft
