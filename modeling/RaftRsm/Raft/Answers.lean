/-
  File:      RaftRsm/Raft/Answers.lean
  Subject:   What a core sends when it handles an AppendEntries or a reply to one, on its own and
             from any state.

  * `AeAnswer`, `ends_handle_appendEntries` -- the five ways in which an AppendEntries is answered;
  * `ReplyAnswer`, `ends_handle_appendEntriesReply` -- the four ways in which a reply is.

  Nothing here speaks of a cluster: these are the handlers of one core, run to their end.
-/
import RaftRsm.Raft.TermRule

namespace Rsm.Raft

open Rsm.Rpc Rsm.Storage Process

variable {K : Ctx} {s t u : RaftCore} {p : NodeId}

/-! ## 1. What is sent -/

/-- The messages among the lines of a history. -/
def sends : List Output → List (NodeId × Message)
  | [] => []
  | .send dest m :: o => (dest, m) :: sends o
  | _ :: o => sends o

theorem sends_append : ∀ o o' : List Output, sends (o ++ o') = sends o ++ sends o'
  | [], _ => rfl
  | x :: o, o' => by
      have ih := sends_append o o'
      cases x <;> simp only [List.cons_append, sends, ih]

theorem mem_of_mem_sends {dest : NodeId} {m : Message} : ∀ {o : List Output},
    (dest, m) ∈ sends o → Output.send dest m ∈ o
  | x :: o, h => by
      have ih := @mem_of_mem_sends dest m o
      cases x with
      | send d k =>
          rcases List.mem_cons.mp h with h | h
          · obtain ⟨rfl, rfl⟩ := Prod.mk.inj h
            exact List.mem_cons_self
          · exact List.mem_cons_of_mem _ (ih h)
      | _ => exact List.mem_cons_of_mem _ (ih h)

/-- Only lines that are no messages have been added to the history. -/
def Noted (s t : RaftCore) : Prop := ∃ o, sends o = [] ∧ t = { s with out := s.out ++ o }

theorem noted_refl (s : RaftCore) : Noted s s := ⟨[], rfl, by rw [List.append_nil]⟩

theorem Noted.trans (h : Noted s t) (k : Noted t u) : Noted s u := by
  obtain ⟨o, ho, rfl⟩ := h
  obtain ⟨o', ho', rfl⟩ := k
  refine ⟨o ++ o', by rw [sends_append, ho, ho']; rfl, ?_⟩
  rw [← List.append_assoc]

theorem Noted.log (h : Noted s t) : t.log = s.log := by
  obtain ⟨o, -, rfl⟩ := h
  rfl

/-- The messages added to the history are `ms`. -/
def Emits (s t : RaftCore) (ms : List (NodeId × Message)) : Prop :=
  ∃ o, t.out = s.out ++ o ∧ sends o = ms

theorem Emits.trans {ms ms' : List (NodeId × Message)} (h : Emits s t ms) (k : Emits t u ms') :
    Emits s u (ms ++ ms') := by
  obtain ⟨o, ho, hms⟩ := h
  obtain ⟨o', ho', hms'⟩ := k
  exact ⟨o ++ o', by rw [ho', ho, List.append_assoc], by rw [sends_append, hms, hms']⟩

theorem emits_of_out (h : t.out = s.out) : Emits s t [] := ⟨[], by rw [h, List.append_nil], rfl⟩

theorem Noted.emits (h : Noted s t) : Emits s t [] := by
  obtain ⟨o, ho, rfl⟩ := h
  exact ⟨o, rfl, ho⟩

theorem ends_emit {o : Output} (h : sends [o] = []) : Ends s (emit o) (fun _ => Noted s) :=
  ends_write ⟨[o], h, rfl⟩

theorem emits_send (p : NodeId) (m : Message) :
    Emits s { s with out := s.out ++ [.send p m] } [(p, m)] := ⟨[.send p m], rfl, rfl⟩

/-! ## 2. Reading the log -/

theorem ends_termAt (i : ℕ) : Ends s (termAt i) (fun v t => v = s.log.termAt i ∧ Noted s t) := by
  refine meets_read_bind (meets_bind (meets_when (fun _ => ?_) fun _ => ?_))
  · exact meets_mono (ends_emit rfl) fun _ _ t ht => meets_pure ⟨rfl, ht⟩
  · exact meets_pure ⟨rfl, noted_refl s⟩

theorem ends_entryAt (i : ℕ) : Ends s (entryAt i) (fun _ t => Noted s t) := by
  refine meets_read_bind (meets_bind (meets_when (fun _ => ?_) fun _ => ?_))
  · exact meets_mono (ends_emit rfl) fun _ _ t ht => meets_pure ht
  · exact meets_pure (noted_refl s)

/-- The walk down to the first index of a term does not go up. -/
theorem ends_firstOfTerm {c : ℕ} : ∀ {i : ℕ} {s : RaftCore},
    Ends s (firstOfTerm c i) (fun v t => v ≤ i ∧ Noted s t)
  | 0, s => meets_pure ⟨Nat.le_refl _, noted_refl s⟩
  | 1, s => meets_pure ⟨Nat.le_refl _, noted_refl s⟩
  | i + 2, s => by
      refine meets_bind (meets_mono (ends_termAt _) fun v _ t ht => ?_)
      refine meets_ite (fun _ => ?_) fun _ => meets_pure ⟨Nat.le_refl _, ht.2⟩
      refine meets_mono ends_firstOfTerm fun w _ u hu => ⟨?_, ht.2.trans hu.2⟩
      exact hu.1.trans (Nat.le_succ _)

/-- The last index up to `i` at which a log has the term `c`; 0 if there is none. -/
def lastIndexOf (l : InMemoryLog) (c : ℕ) : ℕ → ℕ
  | 0 => 0
  | i + 1 => if l.termAt (i + 1) = c then i + 1 else lastIndexOf l c i

theorem ends_lastOfTerm {c : ℕ} : ∀ {i : ℕ} {s : RaftCore},
    Ends s (lastOfTerm c i) (fun v t => v = lastIndexOf s.log c i ∧ Noted s t)
  | 0, s => meets_pure ⟨rfl, noted_refl s⟩
  | i + 1, s => by
      refine meets_bind (meets_mono (ends_termAt _) fun v _ t ht => ?_)
      obtain ⟨rfl, ht⟩ := ht
      unfold lastIndexOf
      refine meets_ite (fun hc => ?_) fun hc => ?_
      · rw [if_pos hc]
        exact meets_pure ⟨rfl, ht⟩
      · rw [if_neg hc]
        refine meets_mono ends_lastOfTerm fun w _ u hu => ⟨?_, ht.trans hu.2⟩
        rw [hu.1, ht.log]

/-- The next index a reply's hint asks for, on the leader's log. -/
def hintNext (l : InMemoryLog) (r : AppendEntriesReply) : ℕ :=
  if r.conflictTerm = 0 then r.conflictIndex
  else if lastIndexOf l r.conflictTerm l.lastIndex ≠ 0 then
    lastIndexOf l r.conflictTerm l.lastIndex + 1
  else r.conflictIndex

theorem ends_hintedNext (r : AppendEntriesReply) :
    Ends s (hintedNext r) (fun v t => v = hintNext s.log r ∧ Noted s t) := by
  unfold hintNext
  refine meets_ite (fun hc => ?_) fun hc => ?_
  · rw [if_pos hc]
    exact meets_pure ⟨rfl, noted_refl s⟩
  · rw [if_neg hc]
    refine meets_read_bind (meets_bind (meets_mono ends_lastOfTerm fun v _ t ht => ?_))
    obtain ⟨rfl, ht⟩ := ht
    exact meets_pure ⟨rfl, ht⟩

/-! ## 3. Committing and taking over entries -/

/-- Only the apply bookkeeping has changed, and nothing was sent. -/
def Fed (s t : RaftCore) : Prop :=
  ∃ m k o, sends o = [] ∧ t = { s with sm := m, lastApplied := k, out := s.out ++ o }

theorem Noted.fed (h : Noted s t) : Fed s t := by
  obtain ⟨o, ho, rfl⟩ := h
  exact ⟨s.sm, s.lastApplied, o, ho, rfl⟩

theorem Fed.trans (h : Fed s t) (k : Fed t u) : Fed s u := by
  obtain ⟨_, _, o, ho, rfl⟩ := h
  obtain ⟨m, k, o', ho', rfl⟩ := k
  refine ⟨m, k, o ++ o', by rw [sends_append, ho, ho']; rfl, ?_⟩
  rw [← List.append_assoc]

theorem ends_handOver (i : ℕ) (e : LogEntry) : Ends s (handOver i e) (fun _ => Fed s) :=
  ends_write ⟨s.sm ++ [e], s.lastApplied, [.apply i e], rfl, rfl⟩

theorem ends_lastApplied (i : ℕ) :
    Ends s (Prog.write fun s => { s with lastApplied := i }) (fun _ => Fed s) :=
  ends_write ⟨s.sm, i, [], rfl, by rw [List.append_nil]⟩

theorem ends_applyLoop : ∀ {k : ℕ} {s : RaftCore}, Ends s (applyLoop K k) (fun _ => Fed s)
  | 0, s => meets_pure (noted_refl s).fed
  | k + 1, s => by
      refine meets_read_bind (meets_ite (fun _ => ?_) fun _ => meets_pure (noted_refl s).fed)
      refine meets_bind (meets_mono (ends_entryAt _) fun e _ t ht => ?_)
      have h0 := ht.fed
      cases K.applySink with
      | some sink =>
          refine meets_ite (fun _ => ?_) fun _ => meets_pure h0
          refine meets_bind (meets_mono (ends_handOver _ _) fun _ _ u h1 => ?_)
          refine meets_bind (meets_mono (ends_lastApplied _) fun _ _ v h2 => ?_)
          exact meets_mono ends_applyLoop fun _ _ w h3 => ((h0.trans h1).trans h2).trans h3
      | none =>
          refine meets_bind (meets_mono (ends_lastApplied _) fun _ _ u h1 => ?_)
          refine meets_bind (meets_mono (ends_handOver _ _) fun _ _ v h2 => ?_)
          exact meets_mono ends_applyLoop fun _ _ w h3 => ((h0.trans h1).trans h2).trans h3

theorem ends_applyCommitted : Ends s (applyCommitted K) (fun _ => Fed s) :=
  meets_read_bind ends_applyLoop

/-- Only the commit and apply bookkeeping has changed, and nothing was sent. -/
def Counted (s t : RaftCore) : Prop :=
  ∃ c m k o, sends o = [] ∧
    t = { s with commitIndex := c, sm := m, lastApplied := k, out := s.out ++ o }

theorem Fed.counted (h : Fed s t) : Counted s t := by
  obtain ⟨m, k, o, ho, rfl⟩ := h
  exact ⟨s.commitIndex, m, k, o, ho, rfl⟩

theorem Noted.counted (h : Noted s t) : Counted s t := h.fed.counted

theorem Counted.trans (h : Counted s t) (k : Counted t u) : Counted s u := by
  obtain ⟨_, _, _, o, ho, rfl⟩ := h
  obtain ⟨c, m, k, o', ho', rfl⟩ := k
  refine ⟨c, m, k, o ++ o', by rw [sends_append, ho, ho']; rfl, ?_⟩
  rw [← List.append_assoc]

theorem ends_commitIndex (i : ℕ) :
    Ends s (Prog.write fun s => { s with commitIndex := i }) (fun _ => Counted s) :=
  ends_write ⟨i, s.sm, s.lastApplied, [], rfl, by rw [List.append_nil]⟩

theorem ends_commitScan : ∀ {i : ℕ} {s : RaftCore}, Ends s (commitScan K i) (fun _ => Counted s)
  | 0, s => meets_pure (noted_refl s).counted
  | i + 1, s => by
      refine meets_read_bind (meets_ite (fun _ => ?_) fun _ => meets_pure (noted_refl s).counted)
      refine meets_bind (meets_mono (ends_termAt _) fun v _ t ht => ?_)
      have h0 := ht.2.counted
      refine meets_ite (fun _ => meets_pure h0) fun _ => meets_ite (fun _ => ?_) fun _ => ?_
      · refine meets_bind (meets_mono (ends_commitIndex _) fun _ _ u h1 => ?_)
        exact meets_mono ends_applyCommitted fun _ _ v h2 => (h0.trans h1).trans h2.counted
      · exact meets_mono ends_commitScan fun _ _ u h1 => h0.trans h1

theorem ends_advanceCommit : Ends s (advanceCommit K) (fun _ => Counted s) :=
  meets_read_bind ends_commitScan

/-- The term is the same, and nothing was sent. -/
structure Silent (s t : RaftCore) : Prop where
  term : t.currentTerm = s.currentTerm
  emits : Emits s t []

theorem silent_refl (s : RaftCore) : Silent s s := ⟨rfl, emits_of_out rfl⟩

theorem Silent.trans (h : Silent s t) (k : Silent t u) : Silent s u :=
  ⟨k.term.trans h.term, h.emits.trans k.emits⟩

theorem Counted.silent (h : Counted s t) : Silent s t := by
  obtain ⟨c, m, k, o, ho, rfl⟩ := h
  exact ⟨rfl, o, rfl, ho⟩

theorem ends_resolveConflicts : ∀ {es : List LogEntry} {i : ℕ} {s : RaftCore},
    Ends s (resolveConflicts i es) (fun _ => Silent s)
  | [], _, s => meets_pure (silent_refl s)
  | e :: es, i, s => by
      refine meets_read_bind (meets_ite (fun _ => meets_pure (silent_refl s)) fun _ => ?_)
      refine meets_bind (meets_mono (ends_termAt _) fun v _ t ht => ?_)
      have h0 := ht.2.counted.silent
      refine meets_ite (fun _ => ?_) fun _ => ?_
      · have hcut : ∀ {u : RaftCore}, Silent s u → Ends u (do truncateSuffixFrom i; pure (e :: es))
            (fun _ => Silent s) := by
          intro u hu
          refine meets_bind (meets_mono (ends_write (Q := fun _ => Silent u)
            ⟨rfl, emits_of_out rfl⟩) fun _ _ v hv => ?_)
          exact meets_pure (hu.trans hv)
        refine meets_bind (meets_when (fun _ => ?_) fun _ => hcut h0)
        exact meets_mono (ends_emit rfl) fun _ _ u hu => hcut (h0.trans hu.counted.silent)
      · exact meets_mono ends_resolveConflicts fun _ _ u h1 => h0.trans h1

theorem ends_append (es : List LogEntry) : Ends s (append es) (fun _ => Silent s) := by
  refine meets_forM (P := fun _ => Silent s) (silent_refl s) fun e _ _ t ht => ?_
  exact ends_write (ht.trans ⟨rfl, emits_of_out rfl⟩)

/-! ## 4. An AppendEntries -/

/-- How the consistency check is answered: the messages sent to `p`. -/
inductive CheckAnswer (s : RaftCore) (p : NodeId) (ae : AppendEntries) :
    List (NodeId × Message) → Prop where
  | short (h : s.log.lastIndex < ae.prevLogIndex) :
      CheckAnswer s p ae [(p, .appendEntriesReply ⟨s.currentTerm, false, s.log.lastIndex + 1, 0⟩)]
  | conflict (first : ℕ) (hf : first ≤ ae.prevLogIndex) (h : ae.prevLogIndex ≤ s.log.lastIndex)
      (ht : s.log.termAt ae.prevLogIndex ≠ ae.prevLogTerm) :
      CheckAnswer s p ae [(p, .appendEntriesReply
        ⟨s.currentTerm, false, first, s.log.termAt ae.prevLogIndex⟩)]
  | accepted (h : ae.prevLogIndex ≤ s.log.lastIndex)
      (ht : s.log.termAt ae.prevLogIndex = ae.prevLogTerm) :
      CheckAnswer s p ae [(p, .appendEntriesReply
        ⟨s.currentTerm, true, ae.prevLogIndex + ae.entries.length, 0⟩)]

/-- **How an AppendEntries from `p` is answered** by a core in state `s`. -/
inductive AeAnswer (s : RaftCore) (p : NodeId) (ae : AppendEntries) :
    List (NodeId × Message) → Prop where
  | stale (h : ae.term < s.currentTerm) :
      AeAnswer s p ae [(p, .appendEntriesReply ⟨s.currentTerm, false, 0, 0⟩)]
  | violation (h : s.currentTerm ≤ ae.term) (hr : s.role = .leader) : AeAnswer s p ae []
  | checked (ms : List (NodeId × Message)) (h : s.currentTerm ≤ ae.term) (hr : s.role ≠ .leader)
      (hc : CheckAnswer s p ae ms) : AeAnswer s p ae ms

/-- The check reads the term and the log only. -/
theorem CheckAnswer.congr {ae : AppendEntries} {ms : List (NodeId × Message)}
    (h : CheckAnswer t p ae ms) (hT : t.currentTerm = s.currentTerm) (hlog : t.log = s.log) :
    CheckAnswer s p ae ms := by
  cases h with
  | short h =>
      rw [hlog] at h ⊢
      rw [hT]
      exact .short h
  | conflict first hf h ht =>
      rw [hlog] at h ht ⊢
      rw [hT]
      exact .conflict first hf h ht
  | accepted h ht =>
      rw [hlog] at h ht
      rw [hT]
      exact .accepted h ht

/-- Whatever the answer, it is one reply in the core's own term, or nothing. -/
theorem AeAnswer.shape {s : RaftCore} {ae : AppendEntries} {ms : List (NodeId × Message)}
    (h : AeAnswer s p ae ms) :
    ms = [] ∨ ∃ r, ms = [(p, .appendEntriesReply r)] ∧ r.term = s.currentTerm := by
  cases h with
  | stale => exact .inr ⟨_, rfl, rfl⟩
  | violation => exact .inl rfl
  | checked _ _ _ hc =>
      cases hc with
      | short => exact .inr ⟨_, rfl, rfl⟩
      | conflict => exact .inr ⟨_, rfl, rfl⟩
      | accepted => exact .inr ⟨_, rfl, rfl⟩

/-- The last message of a call. -/
theorem ends_send_last {m : Message} (h : Silent s t) :
    Ends t (send p m) (fun _ u => u.currentTerm = s.currentTerm ∧ Emits s u [(p, m)]) :=
  ends_write ⟨h.term, h.emits.trans (emits_send p m)⟩

theorem ends_acceptEntries (ae : AppendEntries) (cur : ℕ) :
    Ends s (acceptEntries K p ae cur) (fun _ t => t.currentTerm = s.currentTerm ∧
      Emits s t [(p, .appendEntriesReply
        ⟨cur, true, ae.prevLogIndex + ae.entries.length, 0⟩)]) := by
  refine meets_bind (meets_mono ends_resolveConflicts fun rest _ t h0 => ?_)
  refine meets_bind (meets_mono (ends_append rest) fun _ _ u h1 => ?_)
  refine meets_read_bind (meets_bind (meets_when (fun _ => ?_) fun _ => ?_))
  · refine meets_bind (meets_mono (ends_commitIndex _) fun _ _ v h2 => ?_)
    refine meets_mono ends_applyCommitted fun _ _ w h3 => ?_
    exact ends_send_last ((h0.trans h1).trans (h2.silent.trans h3.counted.silent))
  · exact ends_send_last (h0.trans h1)

theorem ends_checkEntries (ae : AppendEntries) :
    Ends s (checkEntries K p ae s.currentTerm) (fun _ t => t.currentTerm = s.currentTerm ∧
      ∃ ms, Emits s t ms ∧ CheckAnswer s p ae ms) := by
  refine meets_read_bind (meets_ite (fun hlen => ?_) fun hlen => ?_)
  · refine meets_mono (ends_send_last (silent_refl s)) fun _ _ t ht => ?_
    exact ⟨ht.1, _, ht.2, .short hlen⟩
  · have hlen' : ae.prevLogIndex ≤ s.log.lastIndex := Nat.not_lt.mp hlen
    refine meets_bind (meets_mono (ends_termAt _) fun v _ t ht => ?_)
    obtain ⟨rfl, ht⟩ := ht
    refine meets_ite (fun hne => ?_) fun heq => ?_
    · refine meets_bind (meets_mono ends_firstOfTerm fun first _ u hu => ?_)
      refine meets_mono (ends_send_last (ht.counted.silent.trans hu.2.counted.silent)) ?_
      exact fun _ _ v hv => ⟨hv.1, _, hv.2, .conflict first hu.1 hlen' hne⟩
    · rw [not_not] at heq
      refine meets_mono (ends_acceptEntries ae _) fun _ _ u hu => ?_
      refine ⟨hu.1.trans ht.counted.silent.term, _, ht.emits.trans hu.2, .accepted hlen' heq⟩

/-- A candidate follows the leader of its own term: its term and log stay. -/
theorem ends_becomeFollower_same (ev : TransitionEvent) :
    Ends s (becomeFollower K s.currentTerm ev) (fun _ t => Silent s t ∧ t.log = s.log) := by
  refine meets_mono (ends_becomeFollower _ ev) fun _ _ t ht => ?_
  rw [ht, lowered_eq]
  exact ⟨⟨Nat.max_self _, [_], rfl, rfl⟩, rfl⟩

theorem ends_onAppendEntries (ae : AppendEntries) :
    Ends s (onAppendEntries K p ae) (fun _ t => t.currentTerm = s.currentTerm ∧
      (s.role = .leader → ∃ o, t = { s with out := o }) ∧
      ∃ ms, Emits s t ms ∧ AeAnswer s p ae ms) := by
  refine meets_read_bind (meets_ite (fun hT => ?_) fun hT => meets_ite (fun hr => ?_) fun hr => ?_)
  · exact ends_write ⟨rfl, fun _ => ⟨_, rfl⟩, _, emits_send p _, .stale hT⟩
  · exact ends_write ⟨rfl, fun _ => ⟨_, rfl⟩, [], ⟨[_], rfl, rfl⟩, .violation (Nat.not_lt.mp hT) hr⟩
  · -- the rest starts from a state with the same term and log
    have hgo : ∀ {t : RaftCore}, Silent s t ∧ t.log = s.log →
        Ends t (do resetElectionTimer K
                   checkEntries K p ae s.currentTerm) (fun _ u => u.currentTerm = s.currentTerm ∧
          (s.role = .leader → ∃ o, u = { s with out := o }) ∧
          ∃ ms, Emits s u ms ∧ AeAnswer s p ae ms) := by
      intro t ht
      refine meets_bind (meets_mono (ends_write (Q := fun _ u => Silent s u ∧ u.log = s.log)
        ⟨ht.1.trans ⟨rfl, emits_of_out rfl⟩, ht.2⟩) fun _ _ u hu => ?_)
      obtain ⟨hu, hlog⟩ := hu
      rw [← hu.term]
      refine meets_mono (ends_checkEntries ae) fun _ _ v hv => ?_
      obtain ⟨hvT, ms, hms, hans⟩ := hv
      refine ⟨hvT, fun hl => absurd hl hr, ms, hu.emits.trans hms, ?_⟩
      exact .checked ms (Nat.not_lt.mp hT) hr (hans.congr hu.term hlog)
    refine meets_bind (meets_mono (ends_write (Q := fun _ t => Silent s t ∧ t.log = s.log)
      ⟨⟨rfl, emits_of_out rfl⟩, rfl⟩) fun _ _ t ht => ?_)
    refine meets_bind (meets_when (fun _ => ?_) fun _ => hgo ht)
    rw [← ht.1.term]
    refine meets_mono (ends_becomeFollower_same _) fun _ _ u hu => ?_
    rw [ht.1.term]
    exact hgo ⟨ht.1.trans hu.1, hu.2.trans ht.2⟩

/-- The universal term rule does nothing for a term that is not higher. -/
theorem ends_liftTerm {m : Message} {T : ℕ} (hm : termOf m = some T) (hT : T ≤ s.currentTerm) :
    Ends s (liftTerm K m) (fun _ t => t = s) := by
  refine meets_mono (ends_liftTerm_eq m) fun _ _ t ht => ?_
  rw [ht, lifted, hm]
  exact if_neg (Nat.not_lt.mpr hT)

/-- **An AppendEntries that does not raise the term**: the term stays, a leader only notes it, and
    the messages are one of the answers. -/
theorem ends_handle_appendEntries {ae : AppendEntries} (hT : ae.term ≤ s.currentTerm) :
    Ends s (handle K p (.appendEntries ae)) (fun _ t => t.currentTerm = s.currentTerm ∧
      (s.role = .leader → ∃ o, t = { s with out := o }) ∧
      ∃ ms, Emits s t ms ∧ AeAnswer s p ae ms) := by
  refine meets_bind (meets_mono (ends_liftTerm rfl hT) fun _ _ t ht => ?_)
  rw [ht]
  exact ends_onAppendEntries ae

/-! ## 5. A reply -/

/-- **How a reply from `p` is taken** by a core that moves from `s` to `t`: the messages sent. -/
inductive ReplyAnswer (s t : RaftCore) (p : NodeId) (r : AppendEntriesReply) :
    List (NodeId × Message) → Prop where
  | ignored (h : s.role = .leader → r.term = s.currentTerm → r.success = true)
      (hm : t.matchIndex = s.matchIndex) : ReplyAnswer s t p r []
  | caughtUp (h : s.role = .leader) (hT : r.term = s.currentTerm) (hs : r.success = true)
      (hle : r.conflictIndex ≤ s.log.lastIndex)
      (hlt : s.matchIndex.getD p 0 < r.conflictIndex)
      (hm : t.matchIndex = s.matchIndex.insert p r.conflictIndex) : ReplyAnswer s t p r []
  | further (ae : AppendEntries) (h : s.role = .leader) (hT : r.term = s.currentTerm)
      (hs : r.success = true) (hle : r.conflictIndex ≤ s.log.lastIndex)
      (hlt : s.matchIndex.getD p 0 < r.conflictIndex)
      (hm : t.matchIndex = s.matchIndex.insert p r.conflictIndex)
      (haeT : ae.term = s.currentTerm) (hae : ae.prevLogIndex = r.conflictIndex) :
      ReplyAnswer s t p r [(p, .appendEntries ae)]
  | retry (ae : AppendEntries) (h : s.role = .leader) (hT : r.term = s.currentTerm)
      (hs : r.success = false) (hm : t.matchIndex = s.matchIndex) (haeT : ae.term = s.currentTerm)
      (hae : ae.prevLogIndex = max (max (min (hintNext s.log r) (s.nextIndex.getD p 0))
        (s.matchIndex.getD p 0 + 1)) 1 - 1) :
      ReplyAnswer s t p r [(p, .appendEntries ae)]

/-- What is left of a core's role and log after a reply. -/
structure Steady (s t : RaftCore) : Prop where
  term : t.currentTerm = s.currentTerm
  role : t.role = s.role
  log : t.log = s.log

/-- The AppendEntries that `sendAppendEntries` builds for `p`. -/
def appendEntriesTo (K : Ctx) (s : RaftCore) (p : NodeId) : AppendEntries :=
  { term := s.currentTerm, leaderId := K.self, prevLogIndex := s.nextIndex.getD p 0 - 1
    prevLogTerm := s.log.termAt (s.nextIndex.getD p 0 - 1), leaderCommit := s.commitIndex
    entries := s.log.entriesSpan (s.nextIndex.getD p 0) }

theorem ends_sendAppendEntries (p : NodeId) :
    Ends s (sendAppendEntries K p) (fun _ t => ∃ o, t = { s with out := s.out ++ o } ∧
      sends o = [(p, .appendEntries (appendEntriesTo K s p))]) := by
  refine meets_read_bind (meets_bind (meets_mono (ends_termAt _) fun v _ t ht => ?_))
  obtain ⟨rfl, o, ho, rfl⟩ := ht
  refine ends_write ⟨o ++ [.send p (.appendEntries (appendEntriesTo K s p))], ?_, ?_⟩
  · rw [← List.append_assoc]
    rfl
  · rw [sends_append, ho]
    rfl

/-- **A reply**: role, term and log stay, and the messages are one of the answers. -/
theorem ends_onAppendEntriesReply (r : AppendEntriesReply) :
    Ends s (onAppendEntriesReply K p r) (fun _ t => Steady s t ∧
      ∃ ms, Emits s t ms ∧ ReplyAnswer s t p r ms) := by
  have hstay : (s.role = .leader → r.term = s.currentTerm → r.success = true) →
      Steady s s ∧ ∃ ms, Emits s s ms ∧ ReplyAnswer s s p r ms :=
    fun h => ⟨⟨rfl, rfl, rfl⟩, [], emits_of_out rfl, .ignored h rfl⟩
  refine meets_read_bind (meets_ite (fun hr => ?_) fun hr => ?_)
  · exact meets_pure (hstay fun h => absurd h hr)
  rw [not_not] at hr
  refine meets_ite (fun hT => meets_pure (hstay fun _ h => absurd h hT)) fun hT => ?_
  rw [not_not] at hT
  refine meets_ite (fun hs => meets_ite (fun hgt => ?_) fun hle => ?_) fun hs => ?_
  · refine ends_write ⟨⟨rfl, rfl, rfl⟩, [], ⟨[.ackedBeyondLog p r.conflictIndex], rfl, rfl⟩, ?_⟩
    exact .ignored (fun _ _ => hs) rfl
  · have hle' : r.conflictIndex ≤ s.log.lastIndex := Nat.not_lt.mp hle
    refine meets_when (fun hlt => ?_) fun _ => hstay fun _ _ => hs
    refine meets_bind (meets_mono (ends_write (Q := fun _ t => t = { s with
      matchIndex := s.matchIndex.insert p r.conflictIndex
      nextIndex := s.nextIndex.insert p (r.conflictIndex + 1) }) rfl) fun _ _ t ht => ?_)
    refine meets_bind (meets_mono ends_advanceCommit fun _ _ u hu => ?_)
    subst ht
    obtain ⟨_, _, _, o, ho, rfl⟩ := hu
    refine meets_read_bind (meets_when (fun _ => ?_) fun _ => ?_)
    · refine meets_mono (ends_sendAppendEntries p) fun _ _ v hv => ?_
      obtain ⟨o', rfl, ho'⟩ := hv
      generalize hae : appendEntriesTo K _ p = ae at ho'
      refine ⟨⟨rfl, rfl, rfl⟩, _, ⟨o ++ o', ?_, ?_⟩,
        .further ae hr hT hs hle' hlt rfl (by rw [← hae]; rfl) ?_⟩
      · exact List.append_assoc s.out o o'
      · rw [sends_append, ho, ho']
        rfl
      · rw [← hae]
        show (s.nextIndex.insert p (r.conflictIndex + 1)).getD p 0 - 1 = r.conflictIndex
        rw [Std.ExtTreeMap.getD_insert_self, Nat.add_sub_cancel]
    · exact ⟨⟨rfl, rfl, rfl⟩, [], ⟨o, rfl, ho⟩, .caughtUp hr hT hs hle' hlt rfl⟩
  · have hs' : r.success = false := Bool.eq_false_iff.mpr hs
    refine meets_bind (meets_mono (ends_hintedNext r) fun ni _ t ht => ?_)
    obtain ⟨rfl, o, ho, rfl⟩ := ht
    refine meets_bind (meets_mono (ends_write (Q := fun _ t => t = { s with
      out := s.out ++ o
      nextIndex := s.nextIndex.insert p (max (max (min (hintNext s.log r) (s.nextIndex.getD p 0))
        (s.matchIndex.getD p 0 + 1)) 1) }) rfl) fun _ _ t ht => ?_)
    subst ht
    refine meets_mono (ends_sendAppendEntries p) fun _ _ v hv => ?_
    obtain ⟨o', rfl, ho'⟩ := hv
    generalize hae : appendEntriesTo K _ p = ae at ho'
    refine ⟨⟨rfl, rfl, rfl⟩, _, ⟨o ++ o', ?_, ?_⟩, .retry ae hr hT hs' rfl (by rw [← hae]; rfl) ?_⟩
    · exact List.append_assoc s.out o o'
    · rw [sends_append, ho, ho']
      rfl
    · rw [← hae]
      show (s.nextIndex.insert p _).getD p 0 - 1 = _
      rw [Std.ExtTreeMap.getD_insert_self]

theorem ends_handle_appendEntriesReply {r : AppendEntriesReply} (hT : r.term ≤ s.currentTerm) :
    Ends s (handle K p (.appendEntriesReply r)) (fun _ t => Steady s t ∧
      ∃ ms, Emits s t ms ∧ ReplyAnswer s t p r ms) := by
  refine meets_bind (meets_mono (ends_liftTerm rfl hT) fun _ _ t ht => ?_)
  rw [ht]
  exact ends_onAppendEntriesReply r

end Rsm.Raft
