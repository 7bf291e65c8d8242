/-
  File:      RaftRsm/StateMachine/KvStore.lean
  Subject:   The replicated key-value store with its session table (`statemachine/kv_store.{h,cpp}`).

  Commands and results are byte strings. `parse` is the first half of `KVStateMachine::apply`, up to
  the point where the command is known to be well formed. `serialize` and `deserialize` are in
  `Snapshot`; the test accessors are not here.

  * `kvObject` -- the store without sessions, as a sequential object over commands;
  * `sessions_apply` -- `KVStateMachine.apply` is that object behind exactly-once sessions.
-/
import RaftRsm.Rpc.Wire
import RaftRsm.Linear.Sessions
import Std.Data.ExtTreeMap

namespace Rsm.StateMachine

open Rsm.Rpc Linear

/-! ## 1. Commands -/

inductive KvOp where
  | put
  | get
  | delete
  | cas
  | append
  deriving DecidableEq, Repr

def KvOp.toByte : KvOp → ℕ
  | .put => 1
  | .get => 2
  | .delete => 3
  | .cas => 4
  | .append => 5

/-- The cast of an operation byte between 1 and 5. -/
def KvOp.ofByte : ℕ → Option KvOp
  | 1 => some .put
  | 2 => some .get
  | 3 => some .delete
  | 4 => some .cas
  | 5 => some .append
  | _ => none

def opNeedsArg (op : KvOp) : Bool := op = .put || op = .cas || op = .append

def kKvOk : UInt8 := 79         -- 'O'

def kKvNotFound : UInt8 := 78   -- 'N'

def kKvCasFailed : UInt8 := 70  -- 'F'

def kKvMalformed : UInt8 := 69  -- 'E'

def putU64 (v : ℕ) : Bytes := leBytes 8 v

def putString (s : Bytes) : Bytes := leBytes 4 s.length ++ s

def encodeKvCommand (clientId seqNo : ℕ) (op : KvOp) (key arg arg2 : Bytes) : Bytes :=
  putU64 clientId ++ putU64 seqNo ++ leBytes 1 op.toByte ++ putString key ++
    (if opNeedsArg op then putString arg else []) ++ if op = .cas then putString arg2 else []

def readString (r : Reader) : Option Bytes × Reader :=
  let (len, r) := r.u32
  if !r.ok || len > r.remaining then (none, r) else r.readBytes len

/-- A well-formed command. -/
structure KvCommand where
  clientId : ℕ
  seqNo : ℕ
  op : KvOp
  key : Bytes
  arg : Bytes
  arg2 : Bytes
  deriving DecidableEq, Repr

/-- A string that is read only if the operation has it. -/
def readStringIf (c : Bool) (r : Reader) : Option Bytes × Reader :=
  if c then readString r else (some [], r)

/-- What `apply` reads off a command; `none` where it returns `kKvMalformed`. -/
def parse (cmd : Bytes) : Option KvCommand :=
  let r : Reader := ⟨cmd, true⟩
  let (clientId, r) := r.u64
  let (seqNo, r) := r.u64
  let (opByte, r) := r.u8
  if !r.ok then none
  else match KvOp.ofByte opByte with
    | none => none
    | some op =>
        match readString r with
        | (none, _) => none
        | (some key, r) =>
            match readStringIf (opNeedsArg op) r with
            | (none, _) => none
            | (some arg, r) =>
                match readStringIf (op = .cas) r with
                | (none, _) => none
                | (some arg2, r) =>
                    if !r.exhausted then none
                    else some { clientId, seqNo, op, key, arg, arg2 }

/-! ## 2. The store -/

abbrev KvMap := Std.ExtTreeMap Bytes Bytes

/-- `applyOp` on the map it works on. -/
def applyOp (kv : KvMap) (op : KvOp) (key arg arg2 : Bytes) : KvMap × Bytes :=
  match op with
  | .put => (kv.insert key arg, [kKvOk])
  | .get =>
      match kv[key]? with
      | none => (kv, [kKvNotFound])
      | some value => (kv, kKvOk :: value)
  | .delete => if key ∈ kv then (kv.erase key, [kKvOk]) else (kv, [kKvNotFound])
  | .cas =>
      -- an absent key counts as the empty string
      if kv.getD key [] ≠ arg then (kv, [kKvCasFailed]) else (kv.insert key arg2, [kKvOk])
  | .append =>
      let value := kv.getD key [] ++ arg
      (kv.insert key value, kKvOk :: value)

structure Session where
  lastSeq : ℕ := 0
  lastResult : Bytes := []
  deriving DecidableEq, Repr

structure KVStateMachine where
  kv : KvMap := ∅
  sessions : Std.ExtTreeMap ℕ Session := ∅

namespace KVStateMachine

/-- The result a command finds in the session table. -/
def cachedResult (m : KVStateMachine) (q : KvCommand) : Option Bytes :=
  if q.clientId ≠ 0 then
    match m.sessions[q.clientId]? with
    | some s => if q.seqNo ≤ s.lastSeq then some s.lastResult else none
    | none => none
  else none

def apply (m : KVStateMachine) (cmd : Bytes) : KVStateMachine × Bytes :=
  match parse cmd with
  | none => (m, [kKvMalformed])
  | some q =>
      match m.cachedResult q with
      | some result => (m, result)
      | none =>
          let (kv, result) := applyOp m.kv q.op q.key q.arg q.arg2
          ({ kv := kv,
             sessions := if q.clientId ≠ 0 then m.sessions.insert q.clientId ⟨q.seqNo, result⟩
               else m.sessions }, result)

/-- The machine after a sequence of commands. -/
def after (L : List Bytes) : KVStateMachine := L.foldl (fun m cmd => (m.apply cmd).1) {}

theorem after_snoc (L : List Bytes) (cmd : Bytes) :
    after (L ++ [cmd]) = ((after L).apply cmd).1 :=
  List.foldl_append

/-- The machine executes the command: it is well formed and not a duplicate. -/
def Executes (m : KVStateMachine) (cmd : Bytes) : Prop :=
  ∃ q, parse cmd = some q ∧ m.cachedResult q = none

end KVStateMachine

/-! ## 3. A sequential object behind sessions -/

section Object

variable {B : Type} (f : B → Bytes)

/-- A command on the store alone. -/
def exec (kv : KvMap) (cmd : Bytes) : KvMap × Bytes :=
  match parse cmd with
  | none => (kv, [kKvMalformed])
  | some q => applyOp kv q.op q.key q.arg q.arg2

/-- **The sequential key-value store**, over whatever carries a command. -/
def kvObject : Object KvMap B Bytes where
  init := ∅
  step kv b := exec kv (f b)

/-- The session a command belongs to: none if it is malformed or opts out. -/
def kvTag (cmd : Bytes) : Option (ℕ × ℕ) :=
  match parse cmd with
  | none => none
  | some q => if q.clientId = 0 then none else some (q.clientId, q.seqNo)

namespace KVStateMachine

/-- The machine as a store behind sessions. -/
def view (m : KVStateMachine) : Sessions.State KvMap Bytes :=
  ⟨m.kv, fun c => m.sessions[c]?.map fun s => (s.lastSeq, s.lastResult)⟩

variable {m : KVStateMachine} {cmd : Bytes} {q : KvCommand}

theorem cached_view (h : parse cmd = some q) :
    Sessions.cached kvTag m.view cmd = m.cachedResult q := by
  unfold Sessions.cached cachedResult kvTag view
  rw [h]
  dsimp only
  by_cases hc : q.clientId = 0
  · simp [hc]
  · simp only [hc, if_false, ne_eq, not_false_iff, if_true]
    cases m.sessions[q.clientId]? with
    | none => rfl
    | some s => rfl

theorem cached_view_malformed (h : parse cmd = none) :
    Sessions.cached kvTag m.view cmd = none := by
  refine Sessions.cached_of_tag_none ?_
  unfold kvTag
  rw [h]

theorem view_insert (kv : KvMap) (c n : ℕ) (r : Bytes) :
    view ⟨kv, m.sessions.insert c ⟨n, r⟩⟩ =
      ⟨kv, Function.update m.view.last c (some (n, r))⟩ := by
  unfold view
  congr 1
  funext d
  rw [Std.ExtTreeMap.getElem?_insert]
  by_cases hd : d = c
  · subst hd
    simp
  · have hne : compare c d ≠ Ordering.eq := fun he => hd (Std.LawfulEqCmp.eq_of_compare he).symm
    rw [if_neg hne, Function.update_of_ne hd]

theorem apply_malformed (h : parse cmd = none) : m.apply cmd = (m, [kKvMalformed]) := by
  unfold apply
  rw [h]

theorem apply_duplicate {r : Bytes} (h : parse cmd = some q) (hc : m.cachedResult q = some r) :
    m.apply cmd = (m, r) := by
  unfold apply
  rw [h]
  dsimp only
  rw [hc]

theorem apply_new (h : parse cmd = some q) (hc : m.cachedResult q = none) :
    m.apply cmd = ({ kv := (exec m.kv cmd).1,
                     sessions := if q.clientId ≠ 0 then
                         m.sessions.insert q.clientId ⟨q.seqNo, (exec m.kv cmd).2⟩
                       else m.sessions }, (exec m.kv cmd).2) := by
  unfold apply exec
  rw [h]
  dsimp only
  rw [hc]

/-- **`apply` is the store behind its sessions.** -/
theorem sessions_apply (m : KVStateMachine) (cmd : Bytes) :
    Sessions.apply (kvObject id) kvTag m.view cmd = ((m.apply cmd).1.view, (m.apply cmd).2) := by
  cases hp : parse cmd with
  | none =>
      rw [Sessions.apply_of_new (cached_view_malformed hp), apply_malformed hp]
      unfold Sessions.record kvTag kvObject exec
      dsimp only [id]
      rw [hp]
  | some q =>
      cases hc : m.cachedResult q with
      | some r => rw [Sessions.apply_of_cached ((cached_view hp).trans hc), apply_duplicate hp hc]
      | none =>
          rw [Sessions.apply_of_new ((cached_view hp).trans hc), apply_new hp hc]
          unfold Sessions.record kvTag
          rw [hp]
          dsimp only
          by_cases h0 : q.clientId = 0
          · rw [if_pos h0, if_neg (not_not.mpr h0)]
            rfl
          · rw [if_neg h0, if_pos h0, view_insert]
            rfl

/-- The same, over whatever carries the command. -/
theorem sessions_answer (m : KVStateMachine) (b : B) :
    (Sessions.apply (kvObject f) (fun b => kvTag (f b)) m.view b).2 = (m.apply (f b)).2 :=
  congrArg Prod.snd (sessions_apply m (f b))

/-- A command that is not executed has no effect. -/
theorem apply_of_not_executes (h : ¬ m.Executes cmd) : (m.apply cmd).1 = m := by
  cases hp : parse cmd with
  | none => rw [apply_malformed hp]
  | some q =>
      cases hc : m.cachedResult q with
      | none => exact absurd ⟨q, hp, hc⟩ h
      | some r => rw [apply_duplicate hp hc]

theorem cachedResult_eq_some {r : Bytes} (h : m.cachedResult q = some r) :
    ∃ s, m.sessions[q.clientId]? = some s ∧ q.seqNo ≤ s.lastSeq ∧ s.lastResult = r := by
  unfold cachedResult at h
  split_ifs at h
  split at h
  · rename_i s hs
    split_ifs at h with hle
    exact ⟨s, hs, hle, Option.some.inj h⟩
  · cases h

/-- What the session table remembers was returned when a command was executed. -/
theorem exists_execution {L : List Bytes} : ∀ {c : ℕ} {s : Session},
    (after L).sessions[c]? = some s → ∃ M cmd q, M ++ [cmd] <+: L ∧ parse cmd = some q ∧
      q.clientId = c ∧ q.seqNo = s.lastSeq ∧ (after M).cachedResult q = none ∧
      ((after M).apply cmd).2 = s.lastResult := by
  induction L using List.reverseRecOn with
  | nil =>
      intro c s h
      simp [after] at h
  | append_singleton L cmd ih =>
      intro c s h
      have hold : (after L).sessions[c]? = some s → ∃ M cmd' q, M ++ [cmd'] <+: L ++ [cmd] ∧
          parse cmd' = some q ∧ q.clientId = c ∧ q.seqNo = s.lastSeq ∧
          (after M).cachedResult q = none ∧ ((after M).apply cmd').2 = s.lastResult := by
        intro h
        obtain ⟨M, cmd', q, hM, hrest⟩ := ih h
        exact ⟨M, cmd', q, hM.trans (List.prefix_append L _), hrest⟩
      rw [after_snoc] at h
      cases hp : parse cmd with
      | none =>
          rw [apply_malformed hp] at h
          exact hold h
      | some q =>
          cases hc : (after L).cachedResult q with
          | some r =>
              rw [apply_duplicate hp hc] at h
              exact hold h
          | none =>
              rw [apply_new hp hc] at h
              dsimp only at h
              split_ifs at h
              · rw [Std.ExtTreeMap.getElem?_insert] at h
                split at h
                · rename_i hcc
                  cases h
                  refine ⟨L, cmd, q, List.prefix_rfl, hp, Std.LawfulEqCmp.eq_of_compare hcc, rfl, hc,
                    ?_⟩
                  rw [apply_new hp hc]
                · exact hold h
              · exact hold h

/-- The machine after the commands of a sequence is the store behind its sessions after it. -/
theorem sessions_after (L : List B) :
    Sessions.after (kvObject f) (fun b => kvTag (f b)) L = (after (L.map f)).view := by
  induction L using List.reverseRecOn with
  | nil => simp [Sessions.after, after, view, kvObject]
  | append_singleton L b ih =>
      rw [Sessions.after_snoc, ih, List.map_append]
      show _ = (after (L.map f ++ [f b])).view
      rw [after_snoc]
      exact congrArg Prod.fst (sessions_apply _ (f b))

end KVStateMachine

theorem kvTag_of_parse {cmd : Bytes} {q : KvCommand} (h : parse cmd = some q)
    (hc : q.clientId ≠ 0) : kvTag cmd = some (q.clientId, q.seqNo) := by
  unfold kvTag
  rw [h]
  exact if_neg hc

/-- A malformed command is inert. -/
theorem inert_of_malformed {b : B} (h : parse (f b) = none) : Sessions.Inert (kvObject f) b := by
  have hx : ∀ kv, (kvObject f).step kv b = (kv, [kKvMalformed]) := by
    intro kv
    show exec kv (f b) = _
    unfold exec
    rw [h]
  exact ⟨fun s => by rw [hx], fun s t => by rw [hx, hx]⟩

end Object

end Rsm.StateMachine
