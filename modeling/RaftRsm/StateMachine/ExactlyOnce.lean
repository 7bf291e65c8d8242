/-
  File:      RaftRsm/StateMachine/ExactlyOnce.lean
  Subject:   EXACTLY-ONCE SESSIONS of both state machines, for every sequence of byte strings.

  The key-value store parses a command before it looks at the session table, the order book parses
  the operation after it. The laws of `Linear.SessionMachine` hold of both, and what follows from
  them does not depend on the difference.

  * `kvMachine_lawful` -- the laws for the key-value store (`obMachine_lawful` for the order book);
  * `exactly_once` -- state and answers of both, told by the history.
-/
import RaftRsm.StateMachine.BookRuns

namespace Rsm.StateMachine

open Rsm.Rpc Linear

/-- The key-value store as a machine with sessions: it never gets stuck. -/
def kvMachine : SessionMachine KVStateMachine Bytes Bytes where
  init := {}
  apply m cmd := some (m.apply cmd)
  wellFormed cmd := (parse cmd).isSome
  session := kvTag
  last m c := m.sessions[c]?.map fun s => (s.lastSeq, s.lastResult)

theorem kvMachine_after (L : List Bytes) : kvMachine.after L = some (KVStateMachine.after L) := by
  induction L using List.reverseRecOn with
  | nil => rfl
  | append_singleton L cmd ih =>
      rw [SessionMachine.after_snoc ih, KVStateMachine.after_snoc]
      rfl

section Laws

variable {m : KVStateMachine} {cmd : Bytes} {q : KvCommand} {c n : ℕ}

theorem kvLast_eq (m : KVStateMachine) : kvMachine.last m = m.view.last := rfl

/-- A command whose number is new finds nothing in the table. -/
theorem kvCached_of_new (hq : parse cmd = some q)
    (hnew : ∀ c n, kvTag cmd = some (c, n) → ∀ n' r, kvMachine.last m c = some (n', r) → n' < n) :
    m.cachedResult q = none := by
  rw [Option.eq_none_iff_forall_ne_some]
  intro r hr
  have h0 : q.clientId ≠ 0 := by
    intro h0
    unfold KVStateMachine.cachedResult at hr
    rw [if_neg (not_not.mpr h0)] at hr
    cases hr
  obtain ⟨s, hs, hle, -⟩ := KVStateMachine.cachedResult_eq_some hr
  have := hnew q.clientId q.seqNo (kvTag_of_parse hq h0) s.lastSeq s.lastResult
    (Option.map_eq_some_iff.mpr ⟨s, hs, rfl⟩)
  omega

/-- **The key-value store keeps the laws of its session table.** -/
theorem kvMachine_lawful : kvMachine.Lawful where
  init c := rfl
  malformed {m cmd} hw := by
    have hp : parse cmd = none := Option.not_isSome_iff_eq_none.mp (Bool.eq_false_iff.mp hw)
    exact ⟨[kKvMalformed], congrArg some (KVStateMachine.apply_malformed hp)⟩
  duplicate {m cmd c n n' r} hw hs hl hle := by
    obtain ⟨q, hq⟩ := Option.isSome_iff_exists.mp hw
    refine congrArg some (KVStateMachine.apply_duplicate hq ?_)
    rw [← KVStateMachine.cached_view hq]
    exact (Sessions.cached_eq_some hs).mpr ⟨n', hl, hle⟩
  fresh {L m cmd m' r} _ hw hnew hap := by
    obtain ⟨q, hq⟩ := Option.isSome_iff_exists.mp hw
    have hc := kvCached_of_new hq hnew
    have hview := KVStateMachine.sessions_apply m cmd
    rw [Sessions.apply_of_new ((KVStateMachine.cached_view hq).trans hc),
      Option.some.inj hap] at hview
    obtain ⟨hv, hr⟩ := Prod.mk.inj hview
    have hlast : Sessions.record kvTag m.view.last cmd r = m'.view.last := by
      rw [hr] at hv
      exact congrArg Sessions.State.last hv
    rw [kvLast_eq, kvLast_eq, ← hlast]
    rfl

end Laws

/-- **Exactly-once sessions in both state machines**: the state after a sequence of commands is the
    state after those of them that count, a command that counts is answered as it would be among
    those alone, and a well-formed one that does not is answered as the latest of its client that
    does. -/
theorem exactly_once (L : List Bytes) : kvMachine.ExactlyOnce L ∧ obMachine.ExactlyOnce L := by
  refine ⟨kvMachine_lawful.exactlyOnce (fun P => ?_) L,
    obMachine_lawful.exactlyOnce after_isSome L⟩
  rw [kvMachine_after]
  rfl

end Rsm.StateMachine
