/-
  File:      RaftRsm/Raft/Following.lean
  Subject:   A follower takes over its leader's log (`onAppendEntries`), moment by moment.

  An AppendEntries is a piece of the log of the leader of its term. The walk over its entries
  keeps, at every moment, a log that agrees with the leader's up to the walk's position; a crash
  between the truncation and the append, or inside the append, leaves such a log too.

  * `meets_resolveConflicts` -- the walk stops at the end of the log or at a conflict, and a
    conflict is never at a committed index;
  * `meets_append_led` -- the entries are taken over one by one;
  * `meets_acceptEntries` -- the commit index the leader sent is covered in the follower's log,
    and the acknowledgement is true when it is sent.
-/
import RaftRsm.Raft.Electing

namespace Rsm.Raft.Cluster

open Rsm.Rpc Rsm.Storage Process Replication

variable {C : Cluster} {K : Ctx} {a b : Abs} {n p : NodeId} {s t : RaftCore} {T i : ℕ}

/-- A follower of `p` in term `T`. -/
structure Follows (a : Abs) (n p : NodeId) (T : ℕ) (s : RaftCore) : Prop where
  led : a.leader T = some p
  ne : p ≠ n
  term : s.currentTerm = T

theorem Follows.mono (h : Follows a n p T s) (hab : Le a b) : Follows b n p T s :=
  ⟨hab.leader h.led, h.ne, h.term⟩

/-- The committed entries of a follower are in its leader's log. -/
theorem Follows.committed (h : Follows a n p T s) (hm : C.Mid a n s) :
    s.log.take s.commitIndex <+: a.llog T := by
  have hled : a.leader s.currentTerm = some p := by
    rw [h.term]
    exact h.led
  have hp := hm.commit.llog hm.inv hled
  rw [h.term] at hp
  exact hp

/-! ## 1. The walk over the entries -/

/-- The log of a follower has changed, and nothing else. -/
structure Relogged (C : Cluster) (n : NodeId) (a : Abs) (s : RaftCore) (b : Abs) (t : RaftCore) :
    Prop where
  le : Le a b
  mid : C.Mid b n t
  only : ∃ L, t = { s with log := L }

theorem relogged_refl (hm : C.Mid a n s) : Relogged C n a s a s := ⟨Le.refl a, hm, s.log, rfl⟩

/-- Where two logs hold entries of one term at one index, they agree up to it. -/
theorem take_succ_of_term (hm : C.Mid a n s) {i : ℕ} {e f : LogEntry} (he : s.log[i]? = some e)
    (hf : (a.llog T)[i]? = some f) (hef : e.term = f.term) :
    s.log.take (i + 1) = (a.llog T).take (i + 1) := by
  have hnode := hm.inv.log.node n
  rw [hm.log] at hnode
  exact hnode.matching (hm.inv.log.ldr T) he hf hef

/-- **A conflict is beyond the committed entries.** -/
theorem commit_le_of_conflict (hm : C.Mid a n s) (hf : Follows a n p T s) {i : ℕ}
    {e f : LogEntry} (he : s.log[i]? = some e) (hf' : (a.llog T)[i]? = some f)
    (hne : e.term ≠ f.term) : s.commitIndex ≤ i := by
  rcases Nat.lt_or_ge i s.commitIndex with hi | hi
  · have he' : (s.log.take s.commitIndex)[i]? = some e := by
      rw [List.getElem?_take_of_lt hi]
      exact he
    have h1 := getElem_of_pre (hf.committed hm) he'
    rw [hf'] at h1
    rw [Option.some.inj h1] at hne
    exact absurd rfl hne
  · exact hi

/-- The moment after a truncation. -/
theorem mid_truncate (hm : C.Mid a n s) (hf : Follows a n p T s) {i : ℕ} {e f : LogEntry}
    (hp : s.log.take i <+: a.llog T) (he : s.log[i]? = some e) (hf' : (a.llog T)[i]? = some f)
    (hne : e.term ≠ f.term) (hr : s.role = .follower) :
    Step C.setting n a (a.setLog n (s.log.take i)) ∧
      C.Mid (a.setLog n (s.log.take i)) n { s with log := s.log.take i } := by
  have hT : a.term n = T := hm.term.trans hf.term
  have hstep : Step C.setting n a (a.setLog n (s.log.take i)) := by
    have h := Step.truncate (𝒮 := C.setting) a p i e f (by rw [hT]; exact hf.led) hf.ne
      (by rw [hm.log, hT]; exact hp) (by rw [hm.log]; exact he) (by rw [hT]; exact hf') hne
    rw [hm.log] at h
    exact h
  refine ⟨hstep, hm.disk hstep hm.term hm.vote (Function.update_self ..) id ?_ ?_⟩
  · rw [List.take_take, Nat.min_eq_left (commit_le_of_conflict hm hf he hf' hne)]
  · intro hl
    have hl' : s.role = .leader := hl
    rw [hr] at hl'
    cases hl'

/-- **Where the walk ends**: `rest` is still to be appended so that the log holds the first `m`
    entries of the leader; the log ends where `rest` begins. -/
structure Walked (T m : ℕ) (rest : List LogEntry) (b : Abs) (t : RaftCore) (k : ℕ) : Prop where
  len : k + rest.length = m
  more : rest <+: (b.llog T).drop k
  log : (b.llog T).take k <+: t.log
  ends : rest ≠ [] → t.log.length = k

/-- The follower's log agrees with its leader's up to `i`. -/
structure Agrees (a : Abs) (T i : ℕ) (s : RaftCore) : Prop where
  here : i ≤ s.log.length
  there : i ≤ (a.llog T).length
  eq : s.log.take i = (a.llog T).take i

theorem walked_here (h : Agrees a T i s) {es : List LogEntry} (hes : es <+: (a.llog T).drop i)
    (hend : es ≠ [] → s.log.length = i) : Walked T (i + es.length) es a s i :=
  ⟨rfl, hes, by rw [← h.eq]; exact List.take_prefix _ _, hend⟩

theorem meets_resolveConflicts (hm : C.Mid a n s) (hf : Follows a n p T s)
    (hr : s.role = .follower) : ∀ {es : List LogEntry} {i : ℕ}, Agrees a T i s →
    es <+: (a.llog T).drop i →
    Meets (C.contract n) a s (resolveConflicts (i + 1) es) (fun rest b t =>
      Relogged C n a s b t ∧ ∃ k, Walked T (i + es.length) rest b t k) := by
  intro es
  induction es with
  | nil =>
      intro i hag hes
      exact meets_pure ⟨relogged_refl hm, i, walked_here hag hes fun h => absurd rfl h⟩
  | cons e es ih =>
      intro i hag hes
      have hget : (a.llog T)[i]? = some e := by
        have h0 := getElem_of_pre (i := 0) hes rfl
        rw [List.getElem?_drop] at h0
        exact h0
      refine meets_read_bind (meets_ite (fun hgt => ?_) fun hle => ?_)
      · refine meets_pure ⟨relogged_refl hm, i, walked_here hag hes fun _ => ?_⟩
        exact Nat.le_antisymm (Nat.lt_succ_iff.mp hgt) hag.here
      · have hi : i < s.log.length := Nat.not_lt.mp hle
        have hown : s.log[i]? = some s.log[i] := List.getElem?_eq_getElem hi
        refine meets_bind (meets_termAt hi ?_)
        rw [InMemoryLog.termAt_succ hown]
        refine meets_ite (fun hne => ?_) fun heq => ?_
        · -- the conflict: everything from here on is dropped
          have hc := commit_le_of_conflict hm hf hown hget hne
          refine meets_bind (meets_when (fun hbad => absurd hbad (by omega)) fun _ => ?_)
          refine meets_bind (meets_act hm ?_ fun b hab hb => ?_)
          · rw [InMemoryLog.truncateSuffixFrom_succ]
            refine ⟨Nat.le_refl _, Nat.le_refl _, ?_, List.prefix_refl _⟩
            show (s.log.take i).take s.commitIndex = _
            rw [List.take_take, Nat.min_eq_left hc]
          · rw [InMemoryLog.truncateSuffixFrom_succ]
            have htake := hab.take_llog hf.led hag.there
            have hpre : s.log.take i <+: b.llog T := by
              rw [hag.eq, ← htake]
              exact List.take_prefix _ _
            obtain ⟨hstep, hmid⟩ := mid_truncate hb (hf.mono hab.toLe) hpre hown
              (hab.getElem_llog hf.led hget) hne hr
            refine ⟨_, .inr hstep, hmid, meets_pure ⟨⟨hab.toLe.trans (le_of_step hstep), hmid, _, rfl⟩,
              i, rfl, hes.trans ((hab.llog hf.led).drop i), ?_, fun _ => ?_⟩⟩
            · show (b.llog T).take i <+: s.log.take i
              rw [htake, hag.eq]
            · show (s.log.take i).length = i
              rw [List.length_take, Nat.min_eq_left hag.here]
        · rw [not_not] at heq
          have hnext : Agrees a T (i + 1) s :=
            ⟨hi, (List.getElem?_eq_some_iff.mp hget).1, take_succ_of_term hm hown hget heq⟩
          have hes' : es <+: (a.llog T).drop (i + 1) := by
            have h1 := hes.drop 1
            rw [List.drop_drop] at h1
            exact h1
          have hlen : i + (e :: es).length = i + 1 + es.length := by
            rw [List.length_cons]
            omega
          rw [hlen]
          exact ih hnext hes'

/-! ## 2. Taking over the entries -/

/-- The moment after one entry is taken over. -/
theorem mid_extend (hm : C.Mid a n s) (hf : Follows a n p T s) (hr : s.role = .follower) {k : ℕ}
    {e : LogEntry} (hlog : s.log = (a.llog T).take k) (he : (a.llog T)[k]? = some e) :
    Step C.setting n a (a.setLog n (s.log ++ [e])) ∧
      C.Mid (a.setLog n (s.log ++ [e])) n { s with log := s.log ++ [e] } ∧
      s.log ++ [e] = (a.llog T).take (k + 1) := by
  have hT : a.term n = T := hm.term.trans hf.term
  have hnew : s.log ++ [e] = (a.llog T).take (k + 1) := by
    rw [List.take_add_one, he, hlog]
    rfl
  have hstep : Step C.setting n a (a.setLog n (s.log ++ [e])) := by
    refine Step.extend a p _ (by rw [hT]; exact hf.led) hf.ne ?_ ?_
    · rw [hm.log]
      exact List.prefix_append _ _
    · rw [hT, hnew]
      exact List.take_prefix _ _
  refine ⟨hstep, hm.disk hstep hm.term hm.vote (Function.update_self ..) id ?_ ?_, hnew⟩
  · exact List.take_append_of_le_length hm.commit.1
  · intro hl
    have hl' : s.role = .leader := hl
    rw [hr] at hl'
    cases hl'

theorem Relogged.trans {c : Abs} {u : RaftCore} (h : Relogged C n a s b t)
    (k : Relogged C n b t c u) : Relogged C n a s c u := by
  obtain ⟨L, rfl⟩ := h.only
  obtain ⟨M, rfl⟩ := k.only
  exact ⟨h.le.trans k.le, k.mid, M, rfl⟩

/-- The log is the leader's up to `k`, and `rest` comes next: it is taken over entry by entry. -/
theorem meets_append_led : ∀ {rest : List LogEntry} {k : ℕ} {a : Abs} {s : RaftCore},
    C.Mid a n s → Follows a n p T s → s.role = .follower → s.log = (a.llog T).take k →
    rest <+: (a.llog T).drop k →
    Meets (C.contract n) a s (append rest) (fun _ b t =>
      Relogged C n a s b t ∧ t.log = (b.llog T).take (k + rest.length)) := by
  intro rest
  induction rest with
  | nil =>
      intro k a s hm _ _ hlog _
      exact meets_pure ⟨relogged_refl hm, hlog⟩
  | cons e rest ih =>
      intro k a s hm hf hr hlog hrest
      have hget : (a.llog T)[k]? = some e := by
        have h0 := getElem_of_pre (i := 0) hrest rfl
        rw [List.getElem?_drop] at h0
        exact h0
      have hk : k ≤ (a.llog T).length := Nat.le_of_lt (List.getElem?_eq_some_iff.mp hget).1
      show Meets (C.contract n) a s (pushBack e >>= fun _ => append rest) _
      refine meets_bind (meets_act hm (moved_append [e] hm.commit.1) fun b hab hb => ?_)
      have hfb := hf.mono hab.toLe
      have hlogb : s.log = (b.llog T).take k := by
        rw [hlog, hab.take_llog hf.led hk]
      obtain ⟨hstep, hmid, hnew⟩ := mid_extend hb hfb hr hlogb (hab.getElem_llog hf.led hget)
      have hrest' : rest <+: (b.llog T).drop (k + 1) := by
        have h1 := (hrest.trans ((hab.llog hf.led).drop k)).drop 1
        rw [List.drop_drop] at h1
        exact h1
      refine ⟨_, .inr hstep, hmid, ?_⟩
      have hfc : Follows (b.setLog n (s.log ++ [e])) n p T { s with log := s.log ++ [e] } :=
        ⟨hfb.led, hf.ne, hf.term⟩
      refine meets_mono (ih hmid hfc hr hnew hrest') fun _ c t hc => ?_
      have hone : Relogged C n a s (b.setLog n (s.log ++ [e])) { s with log := s.log ++ [e] } :=
        ⟨hab.toLe.trans (le_of_step hstep), hmid, _, rfl⟩
      refine ⟨hone.trans hc.1, ?_⟩
      rw [hc.2, List.length_cons]
      congr 1
      omega

/-- After the walk and the append the log holds what the request vouches for. -/
theorem meets_append_walked (hm : C.Mid a n s) (hf : Follows a n p T s) (hr : s.role = .follower)
    {m k : ℕ} {rest : List LogEntry} (hw : Walked T m rest a s k) :
    Meets (C.contract n) a s (append rest) (fun _ b t =>
      Relogged C n a s b t ∧ (b.llog T).take m <+: t.log) := by
  by_cases hne : rest = []
  · have hkm : k = m := by
      have h1 := hw.len
      rw [hne] at h1
      exact h1
    rw [hne, ← hkm]
    exact meets_pure ⟨relogged_refl hm, hw.log⟩
  · have hlen := hw.ends hne
    have hlog : s.log = (a.llog T).take k := by
      refine (hw.log.eq_of_length ?_).symm
      have h1 := hw.more.length_le
      have h2 := List.length_pos_iff.mpr hne
      rw [List.length_drop] at h1
      rw [List.length_take, hlen]
      omega
    refine meets_mono (meets_append_led hm hf hr hlog hw.more) fun _ b t hb => ⟨hb.1, ?_⟩
    rw [hb.2, hw.len]

/-- What has been applied stays applied. -/
theorem Relogged.sm (h : Relogged C n a s b t) (hm : C.Mid a n s)
    (hsm : s.sm = s.log.take s.lastApplied) : t.sm = t.log.take t.lastApplied := by
  obtain ⟨L, rfl⟩ := h.only
  have hpre : s.sm <+: L := h.mid.sm.trans ( List.take_prefix _ _)
  have hlen : s.sm.length = s.lastApplied := by
    rw [hsm, List.length_take, Nat.min_eq_left (hm.applied.trans hm.commit.1)]
  show s.sm = L.take s.lastApplied
  rw [← hlen]
  exact List.prefix_iff_eq_take.mp hpre

theorem Relogged.follows (h : Relogged C n a s b t) (hf : Follows a n p T s)
    (hr : s.role = .follower) : Follows b n p T t ∧ t.role = .follower := by
  obtain ⟨L, rfl⟩ := h.only
  exact ⟨⟨h.le.leader hf.led, hf.ne, hf.term⟩, hr⟩

/-! ## 3. The whole request -/

/-- **The acknowledgement is on record with the message that carries it.** -/
theorem meets_ackReply (hm : C.Mid a n s) (hf : Follows a n p T s) (hR : C.Rest a n s) {m : ℕ}
    (hlen : m ≤ (a.llog T).length) (hlog : (a.llog T).take m <+: s.log) :
    Meets (C.contract n) a s (send p (.appendEntriesReply
      { term := T, success := true, conflictIndex := m, conflictTerm := 0 })) (fun _ => Done C n) := by
  refine meets_act hm (moved_emit _ _) fun b hab hb => ?_
  have hfb := hf.mono hab.toLe
  have hT : b.term n = T := hb.term.trans hf.term
  have hstep : Step C.setting n b (b.ack n m) := by
    refine Step.ack b p m (by rw [hT]; exact hfb.led) ?_ ?_
    · rw [hT]
      exact hlen.trans (hab.llog hf.led).length_le
    · rw [hT, hb.log, hab.take_llog hf.led hlen]
      exact hlog
  have hmid : C.Mid (b.ack n m) n s := hb.disk hstep hb.term hb.vote hb.log id rfl hb.window
  have hout : C.OutputOk (b.ack n m) n (.send p (.appendEntriesReply
      { term := T, success := true, conflictIndex := m, conflictTerm := 0 })) :=
    ⟨hf.ne, fun _ => .inr ⟨rfl, hT.symm, Nat.le_refl m⟩⟩
  refine ⟨b.ack n m, .inr hstep, hmid.emit rfl hout, hmid.emit rfl hout, ?_⟩
  exact ((hR.frame hab).later (le_of_step hstep) id).emit _

/-- The request's previous entry is where the logs agree. -/
theorem agrees_of_prev (hm : C.Mid a n s) {ae : AppendEntries} (hae : C.AeOk a p ae)
    (hlen : ae.prevLogIndex ≤ s.log.length)
    (hterm : s.log.termAt ae.prevLogIndex = ae.prevLogTerm) :
    Agrees a ae.term ae.prevLogIndex s := by
  have hthere : ae.prevLogIndex ≤ (a.llog ae.term).length := by
    have := hae.len
    omega
  refine ⟨hlen, hthere, ?_⟩
  rw [hae.prev] at hterm
  cases hi : ae.prevLogIndex with
  | zero => rfl
  | succ i =>
      rw [hi] at hlen hthere hterm
      have h1 : s.log[i]? = some s.log[i] := List.getElem?_eq_getElem hlen
      have h2 : (a.llog ae.term)[i]? = some (a.llog ae.term)[i] := List.getElem?_eq_getElem hthere
      rw [InMemoryLog.termAt_succ h1, InMemoryLog.termAt_succ h2] at hterm
      exact take_succ_of_term hm h1 h2 hterm

/-- **The commit index of the request is covered in the follower's log.** -/
theorem covered_of_request {ae : AppendEntries} (hae : C.AeOk a p ae)
    (hf : Follows a n p ae.term s)
    (hlog : (a.llog ae.term).take (ae.prevLogIndex + ae.entries.length) <+: s.log) :
    C.Covered a s.currentTerm s.log ae.leaderCommit := by
  have hle := hae.commit_le
  have hlen := hae.len
  have htake := List.prefix_iff_eq_take.mp hlog
  rw [List.length_take, Nat.min_eq_left hlen] at htake
  rw [hf.term]
  refine hae.commit.congr ?_ ?_
  · have h1 := hlog.length_le
    rw [List.length_take, Nat.min_eq_left hlen] at h1
    omega
  · have h1 := congrArg (List.take ae.leaderCommit) htake
    rw [List.take_take, List.take_take, Nat.min_eq_left hle] at h1
    exact h1.symm

theorem meets_acceptEntries (hm : C.Mid a n s) {ae : AppendEntries} (hae : C.AeOk a p ae)
    (hf : Follows a n p ae.term s) (hr : s.role = .follower) (hR : C.Rest a n s)
    (hlen : ae.prevLogIndex ≤ s.log.length)
    (hterm : s.log.termAt ae.prevLogIndex = ae.prevLogTerm) :
    Meets (C.contract n) a s (acceptEntries K p ae ae.term) (fun _ => Done C n) := by
  have hag := agrees_of_prev hm hae hlen hterm
  refine meets_bind (meets_mono (meets_resolveConflicts hm hf hr hag hae.entries) ?_)
  intro rest b t hb
  obtain ⟨hb, k, hw⟩ := hb
  obtain ⟨hfb, hrb⟩ := hb.follows hf hr
  refine meets_bind (meets_mono (meets_append_walked hb.mid hfb hrb hw) fun _ c u hc => ?_)
  obtain ⟨hc, hlog⟩ := hc
  obtain ⟨hfc, hrc⟩ := hc.follows hfb hrb
  have hac := hb.trans hc
  have haec := hae.mono hm.inv.ack hac.le
  have hRc : C.Rest c n u := by
    refine rest_of_follower hrc (fun hl => ?_) (hac.sm hm hR.sm)
    obtain ⟨L, rfl⟩ := hac.only
    exact hac.le.leader (hR.led hl)
  refine meets_read_bind (meets_bind (meets_when (fun hgt => ?_) fun _ => ?_))
  · have hle : u.commitIndex ≤ min ae.leaderCommit (ae.prevLogIndex + ae.entries.length) := by
      have := haec.commit_le
      omega
    refine meets_bind (meets_act hc.mid (moved_commitIndex hle) fun d hcd hd => ?_)
    have haed := haec.mono hc.mid.inv.ack hcd.toLe
    have hlogd : (d.llog ae.term).take (ae.prevLogIndex + ae.entries.length) <+: u.log := by
      rw [hcd.take_llog hfc.led haec.len]
      exact hlog
    have hmin : min ae.leaderCommit (ae.prevLogIndex + ae.entries.length) = ae.leaderCommit :=
      Nat.min_eq_left haed.commit_le
    have hmid : C.Mid d n
        { u with commitIndex := min ae.leaderCommit (ae.prevLogIndex + ae.entries.length) } := by
      refine hd.commitIndex hle ?_
      rw [hmin]
      exact covered_of_request haed (hfc.mono hcd.toLe) hlogd
    refine ⟨d, .inl rfl, hmid, ?_⟩
    refine meets_mono (meets_applyCommitted hmid hRc.sm) fun _ f v hv => ?_
    have hdf := hv.frame
    have hfv : Follows f n p ae.term v := by
      obtain ⟨_, _, _, rfl⟩ := hv.only
      exact ⟨hdf.leader haed.led, hf.ne, hfc.term⟩
    have hRv : C.Rest f n v := by
      obtain ⟨_, _, _, rfl⟩ := hv.only
      exact rest_of_follower hrc (fun hl => hdf.leader (hcd.leader (hRc.led hl))) hv.sm
    refine meets_ackReply hv.mid hfv hRv (haed.mono hd.inv.ack hdf.toLe).len ?_
    rw [hdf.take_llog haed.led haed.len]
    obtain ⟨_, _, _, rfl⟩ := hv.only
    exact hlogd
  · exact meets_ackReply hc.mid hfc hRc haec.len hlog

/-- The walk down to the conflicting term reads inside the log. -/
theorem meets_firstOfTerm {c : ℕ} {Q : ℕ → Abs → RaftCore → Prop} (hQ : ∀ v, Q v a s) :
    ∀ {i : ℕ}, i ≤ s.log.length → Meets (C.contract n) a s (firstOfTerm c i) Q
  | 0, _ => meets_pure (hQ 0)
  | 1, _ => meets_pure (hQ 1)
  | i + 2, hi => by
      refine meets_bind (meets_termAt (by omega) ?_)
      exact meets_ite (fun _ => meets_firstOfTerm hQ (by omega)) fun _ => meets_pure (hQ _)

theorem meets_checkEntries (hm : C.Mid a n s) {ae : AppendEntries} (hae : C.AeOk a p ae)
    (hf : Follows a n p ae.term s) (hr : s.role = .follower) (hR : C.Rest a n s) :
    Meets (C.contract n) a s (checkEntries K p ae ae.term) (fun _ => Done C n) := by
  refine meets_read_bind (meets_ite (fun _ => ?_) fun hlen => ?_)
  · exact meets_emit_done hm hR rfl ⟨hf.ne, fun hs => by cases hs⟩
  · have hlen' : ae.prevLogIndex ≤ s.log.length := Nat.not_lt.mp hlen
    refine meets_bind (meets_termAt hlen' (meets_ite (fun _ => ?_) fun hterm => ?_))
    · refine meets_bind (meets_firstOfTerm (fun first => ?_) hlen')
      exact meets_emit_done hm hR rfl ⟨hf.ne, fun hs => by cases hs⟩
    · exact meets_acceptEntries hm hae hf hr hR hlen' (not_not.mp hterm)

theorem meets_onAppendEntries (hm : C.Mid a n s) (hR : C.Rest a n s) (hp : p ≠ n)
    {ae : AppendEntries} (hae : C.AeOk a p ae) (hT : ae.term ≤ s.currentTerm) :
    Meets (C.contract n) a s (onAppendEntries K p ae) (fun _ => Done C n) := by
  refine meets_read_bind (meets_ite (fun _ => ?_) fun hge => meets_ite (fun hr => ?_) fun hr => ?_)
  · exact meets_emit_done hm hR rfl ⟨hp, fun hs => by cases hs⟩
  · -- two leaders of one term
    have hTe : ae.term = s.currentTerm := by omega
    have h1 := (hR.lead hr).won
    rw [← hTe, hae.led] at h1
    exact absurd (Option.some.inj h1) hp
  · have hTe : s.currentTerm = ae.term := by omega
    refine meets_bind (meets_quiet hm ⟨rfl, rfl, rfl, rfl, rfl, rfl, rfl⟩ hm.window fun b hab hb => ?_)
    -- from here on the core is a follower that knows its leader
    have hgo : ∀ {c : Abs} {t : RaftCore}, Frame n b c → C.Mid c n t → t.role = .follower →
        t.currentTerm = s.currentTerm → t.leaderId = some ae.leaderId → t.sm = s.sm →
        t.log = s.log → t.lastApplied = s.lastApplied →
        Meets (C.contract n) c t
          (do resetElectionTimer K
              checkEntries K p ae s.currentTerm) (fun _ => Done C n) := by
      intro c t hbc hc hrt htT htl htsm htlog htapp
      refine meets_bind (meets_resetElectionTimer hc fun d e r hcd hd => ?_)
      have haed := hae.mono hm.inv.ack ((hab.trans hbc).trans hcd).toLe
      have hfd : Follows d n p ae.term { t with electionDeadline := e, rng := r } :=
        ⟨haed.led, hp, htT.trans hTe⟩
      have hRd : C.Rest d n { t with electionDeadline := e, rng := r } := by
        refine rest_of_follower hrt (fun {l} hl => ?_) ?_
        · have hl' : t.leaderId = some l := hl
          rw [htl, hae.leaderId] at hl'
          show d.leader t.currentTerm = some l
          rw [htT, hTe, ← Option.some.inj hl']
          exact haed.led
        · show t.sm = t.log.take t.lastApplied
          rw [htsm, htlog, htapp]
          exact hR.sm
      rw [hTe]
      exact meets_checkEntries hd haed hfd hrt hRd
    refine meets_bind (meets_when (fun _ => ?_) fun hnc => ?_)
    · refine meets_mono (meets_becomeFollower_same hb .leaderDiscovered) fun _ c t hc => ?_
      obtain ⟨_, _, _, _, rfl⟩ := hc.only
      exact hgo hc.frame hc.mid rfl rfl rfl rfl rfl rfl
    · refine hgo (Frame.refl n b) hb ?_ rfl rfl rfl rfl rfl
      show s.role = .follower
      cases hrole : s.role with
      | follower => rfl
      | candidate => exact absurd hrole hnc
      | leader => exact absurd hrole hr

end Rsm.Raft.Cluster
