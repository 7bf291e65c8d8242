/-
  File:      RaftRsm/StateMachine/Snapshot.lean
  Subject:   SNAPSHOTS of both state machines (`serialize` and `deserialize` of
             `statemachine/{kv_store,order_book}.cpp`), and what a snapshot is read as.

  A snapshot is the maps in the order of their keys, with counts before them. The locator index of the
  order book is not in it: `deserialize` builds it again from the levels. A count is the size of a
  container, so `Fits` asks that it is below `2 ^ 64`, as the types of the source have it.

  * `readTimes_reads` -- a counted loop reads what was written one after the other;
  * `foldl_insert_eq` -- a map is what inserting its entries gives;
  * `SnapshotText.Accepted.deserialize` -- what a snapshot of the order book says is what is read;
  * `KVStateMachine.deserialize_serialize`, `OrderBookStateMachine.deserialize_serialize` -- the round
    trips; the second one needs that levels and index agree;
  * `deserialize_cases` -- what is refused changes nothing.
-/
import RaftRsm.StateMachine.ExactlyOnce

namespace Rsm.StateMachine

open Rsm.Rpc Linear

/-! ## 1. The code -/

/-- A counted loop: `body` may return false, and the loop ends early where `go` does not hold. -/
def readTimes {σ : Type} (go : Reader → Bool) (body : Reader → σ → Option (Reader × σ)) :
    ℕ → Reader → σ → Option (Reader × σ)
  | 0, r, s => some (r, s)
  | n + 1, r, s =>
      if !go r then some (r, s)
      else match body r s with
        | none => none
        | some (r, s) => readTimes go body n r s

abbrev SessionMap := Std.ExtTreeMap ℕ Session

namespace KVStateMachine

def putPair (p : Bytes × Bytes) : Bytes := putString p.1 ++ putString p.2

def putSession (p : ℕ × Session) : Bytes :=
  putU64 p.1 ++ putU64 p.2.lastSeq ++ putString p.2.lastResult

def serialize (m : KVStateMachine) : Bytes :=
  putU64 m.kv.size ++ m.kv.toList.flatMap putPair ++
    (putU64 m.sessions.size ++ m.sessions.toList.flatMap putSession)

def readPair (r : Reader) (kv : KvMap) : Option (Reader × KvMap) :=
  match readString r with
  | (none, _) => none
  | (some key, r) =>
      match readString r with
      | (none, _) => none
      | (some value, r) => some (r, kv.insert key value)

def readSession (r : Reader) (sessions : SessionMap) : Option (Reader × SessionMap) :=
  let (clientId, r) := r.u64
  let (lastSeq, r) := r.u64
  match readString r with
  | (none, _) => none
  | (some lastResult, r) => some (r, sessions.insert clientId ⟨lastSeq, lastResult⟩)

/-- Whether the bytes are a snapshot, and the machine then. -/
def deserialize (m : KVStateMachine) (bytes : Bytes) : Bool × KVStateMachine :=
  let r : Reader := ⟨bytes, true⟩
  let (kvCount, r) := r.u64
  match readTimes Reader.ok readPair kvCount r ∅ with
  | none => (false, m)
  | some (r, kv) =>
      let (sessCount, r) := r.u64
      match readTimes Reader.ok readSession sessCount r ∅ with
      | none => (false, m)
      | some (r, sessions) => if !r.exhausted then (false, m) else (true, { kv, sessions })

end KVStateMachine

namespace OrderBookStateMachine

abbrev Index := Std.ExtTreeMap ℕ (ObSide × ℕ)

def putOrder (o : Resting) : Bytes := putU64 o.id ++ putU64 o.qty

def putLevelOrders (p : ℕ × Level) : Bytes := putU64 p.1 ++ putU64 p.2.length ++ p.2.flatMap putOrder

def putBook (b : Book) : Bytes := putU64 b.size ++ b.toList.flatMap putLevelOrders

/-- Levels as they are written for a book. -/
def putLevels (ps : List (ℕ × Level)) : Bytes := putU64 ps.length ++ ps.flatMap putLevelOrders

def putSession (p : ℕ × Session) : Bytes :=
  putU64 p.1 ++ putU64 p.2.lastSeq ++ putU32 p.2.lastResult.length ++ p.2.lastResult

def serialize (m : OrderBookStateMachine) : Bytes :=
  putU64 m.nextOrderId ++ (putBook m.bids ++ (putBook m.asks ++
    (putU64 m.sessions.size ++ m.sessions.toList.flatMap putSession)))

/-- The innermost loop of `deserialize`: one order of a level. -/
def readOrder (side : ObSide) (price : ℕ) (r : Reader) (s : Level × Index) :
    Option (Reader × Level × Index) :=
  let (id, r) := r.u64
  let (qty, r) := r.u64
  if !r.ok || qty = 0 || id ∈ s.2 then none
  else some (r, s.1 ++ [⟨id, qty⟩], s.2.insert id (side, price))

/-- One level of a book. -/
def readLevel (side : ObSide) (r : Reader) (s : Book × Index) : Option (Reader × Book × Index) :=
  let (price, r) := r.u64
  let (nOrders, r) := r.u64
  if !r.ok || price = 0 || nOrders = 0 || nOrders > r.remaining / 16 || price ∈ s.1 then none
  else match readTimes (fun _ => true) (readOrder side price) nOrders r ([], s.2) with
    | none => none
    | some (r, level, index) => some (r, s.1.insert price level, index)

/-- One of the two books, with the index built so far. -/
def readBook (side : ObSide) (r : Reader) (index : Index) : Option (Reader × Book × Index) :=
  let (nLevels, r) := r.u64
  if !r.ok || nLevels > r.remaining / 16 then none
  else readTimes (fun _ => true) (readLevel side) nLevels r (∅, index)

def readSession (r : Reader) (sessions : SessionMap) : Option (Reader × SessionMap) :=
  let (clientId, r) := r.u64
  let (lastSeq, r) := r.u64
  let (len, r) := r.u32
  if !r.ok || len > r.remaining then none
  else match r.readBytes len with
    | (none, _) => none
    | (some raw, r) => some (r, sessions.insert clientId ⟨lastSeq, raw⟩)

/-- Whether the bytes are a snapshot, and the machine then. -/
def deserialize (m : OrderBookStateMachine) (bytes : Bytes) : Bool × OrderBookStateMachine :=
  let r : Reader := ⟨bytes, true⟩
  let (nextId, r) := r.u64
  match readBook .bid r ∅ with
  | none => (false, m)
  | some (r, bids, index) =>
      match readBook .ask r index with
      | none => (false, m)
      | some (r, asks, index) =>
          let (nSessions, r) := r.u64
          if !r.ok || nSessions > r.remaining / 20 then (false, m)
          else match readTimes (fun _ => true) readSession nSessions r ∅ with
            | none => (false, m)
            | some (r, sessions) =>
                if !r.exhausted then (false, m)
                else (true, { bids, asks, index, nextOrderId := nextId, sessions })

end OrderBookStateMachine

/-! ## 2. Counted loops and maps -/

/-- **A counted loop reads what was written one after the other**, if each round reads what was written
    for it in the state that the rounds before it have left. -/
theorem readTimes_reads {σ α : Type} {go : Reader → Bool} {body : Reader → σ → Option (Reader × σ)}
    {enc : α → Bytes} {add : σ → α → σ} (hgo : ∀ b, go ⟨b, true⟩ = true) : ∀ {xs : List α} {s : σ},
    (∀ A x B, xs = A ++ x :: B → ∀ rest, body ⟨enc x ++ rest, true⟩ (A.foldl add s) =
      some (⟨rest, true⟩, add (A.foldl add s) x)) → ∀ rest,
    readTimes go body xs.length ⟨xs.flatMap enc ++ rest, true⟩ s = some (⟨rest, true⟩, xs.foldl add s)
  | [], s, _, rest => rfl
  | x :: xs, s, h, rest => by
      have hone := h [] x xs rfl (xs.flatMap enc ++ rest)
      rw [List.foldl_nil] at hone
      rw [List.flatMap_cons, List.append_assoc, List.length_cons, readTimes, hgo, Bool.not_true,
        if_neg Bool.false_ne_true, hone]
      refine readTimes_reads hgo (fun A y B hxs => ?_) rest
      exact h (x :: A) y B (by rw [hxs]; rfl)

section Inserting

variable {K V : Type} {cmp : K → K → Ordering} [Std.TransCmp cmp]

theorem foldl_insert_eq_insertMany : ∀ (l : List (K × V)) (t : Std.ExtTreeMap K V cmp),
    l.foldl (fun t p => t.insert p.1 p.2) t = t.insertMany l
  | [], t => Std.ExtTreeMap.insertMany_nil.symm
  | p :: l, t => by
      rw [List.foldl_cons, foldl_insert_eq_insertMany l, Std.ExtTreeMap.insertMany_cons]

variable [Std.LawfulEqCmp cmp]

theorem mem_of_foldl_insert {k : K} {v : V} : ∀ (l : List (K × V)) (t : Std.ExtTreeMap K V cmp),
    (l.foldl (fun t p => t.insert p.1 p.2) t)[k]? = some v → (k, v) ∈ l ∨ t[k]? = some v
  | [], _, h => .inr h
  | p :: l, t, h => by
      rcases mem_of_foldl_insert l (t.insert p.1 p.2) h with hl | ht
      · exact .inl (List.mem_cons_of_mem p hl)
      · rw [Std.ExtTreeMap.getElem?_insert] at ht
        split_ifs at ht with hk
        · obtain rfl := Std.LawfulEqCmp.eq_of_compare hk
          obtain rfl := Option.some_inj.mp ht
          exact .inl List.mem_cons_self
        · exact .inr ht

/-- What inserting entries of different keys gives. -/
theorem getElem?_foldl_insert {l : List (K × V)} (hl : l.Pairwise fun a b => ¬ cmp a.1 b.1 = .eq) (k : K) (v : V) :
    (l.foldl (fun t p => t.insert p.1 p.2) (∅ : Std.ExtTreeMap K V cmp))[k]? = some v ↔ (k, v) ∈ l := by
  constructor
  · intro hv
    rcases mem_of_foldl_insert l ∅ hv with hm | he
    · exact hm
    · rw [Std.ExtTreeMap.getElem?_empty] at he
      contradiction
  · intro hv
    rw [foldl_insert_eq_insertMany, ← Std.ExtTreeMap.ofList_eq_insertMany_empty]
    exact Std.ExtTreeMap.getElem?_ofList_of_mem Std.ReflCmp.compare_self hl hv

/-- **A map is what inserting its entries gives.** -/
theorem foldl_insert_eq {t : Std.ExtTreeMap K V cmp} {l : List (K × V)}
    (hl : l.Pairwise fun a b => ¬ cmp a.1 b.1 = .eq) (h : ∀ k v, (k, v) ∈ l ↔ t[k]? = some v) :
    l.foldl (fun t p => t.insert p.1 p.2) ∅ = t := by
  refine Std.ExtTreeMap.ext_getElem? fun k => Option.ext fun v => ?_
  exact (getElem?_foldl_insert hl k v).trans (h k v)

/-- What was not inserted is not there. -/
theorem not_mem_foldl_insert {l : List (K × V)} {k : K} (h : k ∉ l.map Prod.fst) :
    k ∉ l.foldl (fun t p => t.insert p.1 p.2) (∅ : Std.ExtTreeMap K V cmp) := by
  intro hm
  obtain ⟨v, hv⟩ := Option.isSome_iff_exists.mp (Std.ExtTreeMap.mem_iff_isSome_getElem?.mp hm)
  rcases mem_of_foldl_insert l ∅ hv with hl | he
  · exact h (List.mem_map_of_mem (f := Prod.fst) hl)
  · rw [Std.ExtTreeMap.getElem?_empty] at he
    contradiction

theorem foldl_insert_toList (t : Std.ExtTreeMap K V cmp) :
    t.toList.foldl (fun t p => t.insert p.1 p.2) ∅ = t :=
  foldl_insert_eq Std.ExtTreeMap.distinct_keys_toList fun _ _ =>
    Std.ExtTreeMap.mem_toList_iff_getElem?_eq_some

end Inserting

/-! ## 3. What was written is read -/

theorem u64_putU64 {v : ℕ} (h : v < 2 ^ 64) (rest : Bytes) :
    Reader.u64 ⟨putU64 v ++ rest, true⟩ = (v, ⟨rest, true⟩) :=
  Reader.uint_leBytes_of_lt (n := 8) h rest

theorem u32_putU32 {v : ℕ} (h : v < 2 ^ 32) (rest : Bytes) :
    Reader.u32 ⟨putU32 v ++ rest, true⟩ = (v, ⟨rest, true⟩) :=
  Reader.uint_leBytes_of_lt (n := 4) h rest

theorem length_putU64 (v : ℕ) : (putU64 v).length = 8 := length_leBytes 8 v

theorem readString_putString {s : Bytes} (h : s.length < 2 ^ 32) (rest : Bytes) :
    readString ⟨putString s ++ rest, true⟩ = (some s, ⟨rest, true⟩) := by
  unfold readString putString
  rw [List.append_assoc, Reader.u32, Reader.uint_leBytes_of_lt (n := 4) h]
  have hfits : ¬ s.length > (Reader.mk (s ++ rest) true).remaining := by
    simp [Reader.remaining]
  simp only [Bool.not_true, Bool.false_or, decide_eq_true_eq, if_neg hfits]
  exact Reader.readBytes_append rfl rest

/-- Every identity of the session table was read from a command. -/
def Identified (sessions : SessionMap) : Prop :=
  ∀ (c : ℕ) (s : Session), sessions[c]? = some s → c < 2 ^ 64 ∧ s.lastSeq < 2 ^ 64

namespace KVStateMachine

/-- **What the types of the source bound**: the sizes of containers, and the lengths of the strings. -/
structure Fits (m : KVStateMachine) : Prop where
  kv_size : m.kv.size < 2 ^ 64
  sessions_size : m.sessions.size < 2 ^ 64
  strings : ∀ (key value : Bytes), m.kv[key]? = some value → key.length < 2 ^ 32 ∧ value.length < 2 ^ 32
  results : ∀ (c : ℕ) (s : Session), m.sessions[c]? = some s → s.lastResult.length < 2 ^ 32

theorem readPair_putPair {p : Bytes × Bytes} (h1 : p.1.length < 2 ^ 32) (h2 : p.2.length < 2 ^ 32)
    (rest : Bytes) (kv : KvMap) :
    readPair ⟨putPair p ++ rest, true⟩ kv = some (⟨rest, true⟩, kv.insert p.1 p.2) := by
  unfold readPair putPair
  rw [List.append_assoc, readString_putString h1]
  dsimp only
  rw [readString_putString h2]

theorem readSession_putSession {p : ℕ × Session} (h1 : p.1 < 2 ^ 64) (h2 : p.2.lastSeq < 2 ^ 64)
    (h3 : p.2.lastResult.length < 2 ^ 32) (rest : Bytes) (sessions : SessionMap) :
    readSession ⟨putSession p ++ rest, true⟩ sessions =
      some (⟨rest, true⟩, sessions.insert p.1 p.2) := by
  unfold readSession putSession
  rw [List.append_assoc, List.append_assoc, u64_putU64 h1]
  dsimp only
  rw [u64_putU64 h2]
  dsimp only
  rw [readString_putString h3]

/-- **A snapshot is read as the machine it was taken of.** -/
theorem deserialize_serialize {m : KVStateMachine} (h : m.Fits) (hid : Identified m.sessions)
    (m₀ : KVStateMachine) : m₀.deserialize m.serialize = (true, m) := by
  have hkv : ∀ rest, readTimes Reader.ok readPair m.kv.size ⟨m.kv.toList.flatMap putPair ++ rest, true⟩ ∅
      = some (⟨rest, true⟩, m.kv) := by
    intro rest
    rw [← Std.ExtTreeMap.length_toList, readTimes_reads (fun _ => rfl) (fun A p B hl rest => ?_),
      foldl_insert_toList]
    have hp : (p.1, p.2) ∈ m.kv.toList := by simp [hl]
    obtain ⟨h1, h2⟩ := h.strings p.1 p.2 (Std.ExtTreeMap.mem_toList_iff_getElem?_eq_some.mp hp)
    exact readPair_putPair h1 h2 rest _
  have hsessions : readTimes Reader.ok readSession m.sessions.size
      ⟨m.sessions.toList.flatMap putSession ++ [], true⟩ ∅ = some (⟨[], true⟩, m.sessions) := by
    rw [← Std.ExtTreeMap.length_toList, readTimes_reads (fun _ => rfl) (fun A p B hl rest => ?_),
      foldl_insert_toList]
    have hp : (p.1, p.2) ∈ m.sessions.toList := by simp [hl]
    rw [Std.ExtTreeMap.mem_toList_iff_getElem?_eq_some] at hp
    exact readSession_putSession (hid p.1 p.2 hp).1 (hid p.1 p.2 hp).2 (h.results p.1 p.2 hp) rest _
  rw [List.append_nil] at hsessions
  unfold deserialize serialize
  dsimp only
  rw [List.append_assoc, u64_putU64 h.kv_size]
  dsimp only
  rw [hkv]
  dsimp only
  rw [u64_putU64 h.sessions_size]
  dsimp only
  rw [hsessions]
  rfl

/-- **Bytes are refused, which changes nothing, or they are a machine**, whatever the machine was. -/
theorem deserialize_cases (bytes : Bytes) : (∀ m : KVStateMachine, m.deserialize bytes = (false, m)) ∨
    ∃ m', ∀ m : KVStateMachine, m.deserialize bytes = (true, m') := by
  unfold deserialize
  dsimp only
  cases readTimes Reader.ok readPair (Reader.u64 ⟨bytes, true⟩).1 (Reader.u64 ⟨bytes, true⟩).2 ∅ with
  | none => exact .inl fun m => rfl
  | some x =>
      dsimp only
      cases readTimes Reader.ok readSession x.1.u64.1 x.1.u64.2 ∅ with
      | none => exact .inl fun m => rfl
      | some y =>
          dsimp only
          cases y.1.exhausted with
          | false => exact .inl fun m => rfl
          | true => exact .inr ⟨_, fun m => rfl⟩

end KVStateMachine

/-! ## 4. The order book -/

namespace OrderBookStateMachine

/-- **What the types of the source bound.** -/
structure Fits (m : OrderBookStateMachine) : Prop where
  books : ∀ side, (m.book side).size < 2 ^ 64
  levels : ∀ (side : ObSide) (price : ℕ) (level : Level), (m.book side)[price]? = some level →
    level.length < 2 ^ 64
  sessions_size : m.sessions.size < 2 ^ 64
  results : ∀ (c : ℕ) (s : Session), m.sessions[c]? = some s → s.lastResult.length < 2 ^ 32

/-- Every number of the state is one of 64 bits. -/
structure Sized (m : OrderBookStateMachine) : Prop where
  next : m.nextOrderId < 2 ^ 64
  level : ∀ (side : ObSide) (price : ℕ) (level : Level), (m.book side)[price]? = some level →
    price < 2 ^ 64 ∧ ∀ o ∈ level, o.id < 2 ^ 64 ∧ o.qty < 2 ^ 64
  sessions : Identified m.sessions

/-- The index after the lines `E` have been put into it. -/
def built (E : List (ℕ × ObSide × ℕ)) : Index := E.foldl (fun ix e => ix.insert e.1 e.2) ∅

/-- The line of the index for an order of a level. -/
def entry (side : ObSide) (price : ℕ) (o : Resting) : ℕ × ObSide × ℕ := (o.id, side, price)

/-- The lines for the levels of a book. -/
def entries (side : ObSide) (ps : List (ℕ × Level)) : List (ℕ × ObSide × ℕ) :=
  ps.flatMap fun p => p.2.map (entry side p.1)

/-- A level that `deserialize` accepts. -/
structure Readable (p : ℕ × Level) : Prop where
  price_pos : 0 < p.1
  price_lt : p.1 < 2 ^ 64
  ne_nil : p.2 ≠ []
  length_lt : p.2.length < 2 ^ 64
  order : ∀ o ∈ p.2, o.id < 2 ^ 64 ∧ 0 < o.qty ∧ o.qty < 2 ^ 64

/-- A session that can be written. -/
structure Storable (p : ℕ × Session) : Prop where
  client : p.1 < 2 ^ 64
  seq : p.2.lastSeq < 2 ^ 64
  result : p.2.lastResult.length < 2 ^ 32

section Reading

variable {side : ObSide} {price : ℕ} {E : List (ℕ × ObSide × ℕ)}

theorem built_append (E F : List (ℕ × ObSide × ℕ)) :
    built (E ++ F) = F.foldl (fun ix e => ix.insert e.1 e.2) (built E) :=
  List.foldl_append

theorem entries_append (A B : List (ℕ × Level)) : entries side (A ++ B) = entries side A ++ entries side B :=
  List.flatMap_append

theorem entries_cons (p : ℕ × Level) (B : List (ℕ × Level)) :
    entries side (p :: B) = p.2.map (entry side p.1) ++ entries side B :=
  List.flatMap_cons

theorem mem_entries_iff {s : ObSide} {ps : List (ℕ × Level)} {id : ℕ} : (id, s, price) ∈ entries side ps ↔
    s = side ∧ ∃ level, (price, level) ∈ ps ∧ id ∈ level.map Resting.id := by
  unfold entries entry
  simp only [List.mem_flatMap, List.mem_map, Prod.mk.injEq, Prod.exists]
  constructor
  · rintro ⟨q, level, hl, o, ho, rfl, rfl, rfl⟩
    exact ⟨rfl, level, hl, o, ho, rfl⟩
  · rintro ⟨rfl, level, hl, o, ho, rfl⟩
    exact ⟨price, level, hl, o, ho, rfl, rfl, rfl⟩

/-- The id of a line is not among those before it. -/
theorem fst_not_mem_before {F G : List (ℕ × ObSide × ℕ)} {e : ℕ × ObSide × ℕ}
    (h : ((F ++ e :: G).map Prod.fst).Nodup) : e.1 ∉ F.map Prod.fst := by
  rw [List.map_append, List.map_cons, List.nodup_middle, List.nodup_cons, List.mem_append, not_or] at h
  exact h.1.1

theorem readOrder_putOrder {o : Resting} (hid : o.id < 2 ^ 64) (hpos : 0 < o.qty)
    (hq : o.qty < 2 ^ 64) (hnew : o.id ∉ E.map Prod.fst) (rest : Bytes) (level : Level) :
    readOrder side price ⟨putOrder o ++ rest, true⟩ (level, built E) =
      some (⟨rest, true⟩, level ++ [o], built (E ++ [entry side price o])) := by
  unfold readOrder putOrder
  rw [List.append_assoc, u64_putU64 hid]
  dsimp only
  rw [u64_putU64 hq]
  have hidx : o.id ∉ built E := not_mem_foldl_insert hnew
  rw [if_neg (by simp [hidx, Nat.pos_iff_ne_zero.mp hpos]), built_append]
  rfl

/-- **The orders of a level are read in their order**, and the index grows by their lines. -/
theorem readOrders {level : Level} (h : ∀ o ∈ level, o.id < 2 ^ 64 ∧ 0 < o.qty ∧ o.qty < 2 ^ 64)
    (hn : ((E ++ level.map (entry side price)).map Prod.fst).Nodup) (rest : Bytes) :
    readTimes (fun _ => true) (readOrder side price) level.length
        ⟨level.flatMap putOrder ++ rest, true⟩ ([], built E) =
      some (⟨rest, true⟩, level, built (E ++ level.map (entry side price))) := by
  have hfold : ∀ A : Level, A.foldl (fun (s : Level × Index) o =>
      (s.1 ++ [o], s.2.insert o.id (side, price))) ([], built E) =
        (A, built (E ++ A.map (entry side price))) := by
    intro A
    induction A using List.reverseRecOn with
    | nil => simp
    | append_singleton A o ih =>
        rw [List.foldl_append, ih, List.map_append, ← List.append_assoc,
          built_append (E ++ A.map (entry side price))]
        rfl
  rw [readTimes_reads (fun _ => rfl) (fun A o B hl rest => ?_), hfold]
  rw [hfold]
  obtain ⟨hid, hpos, hq⟩ := h o (by simp [hl])
  refine (readOrder_putOrder hid hpos hq ?_ rest A).trans ?_
  · rw [hl, List.map_append (f := entry side price), List.map_cons, ← List.append_assoc] at hn
    exact fst_not_mem_before hn
  · rw [built_append]
    rfl

theorem le_length_flatMap {α : Type} (enc : α → Bytes) (k : ℕ) : ∀ (xs : List α),
    (∀ x ∈ xs, k ≤ (enc x).length) → k * xs.length ≤ (xs.flatMap enc).length
  | [], _ => by simp
  | x :: xs, h => by
      have hx := h x List.mem_cons_self
      have hxs := le_length_flatMap enc k xs fun y hy => h y (List.mem_cons_of_mem x hy)
      rw [List.flatMap_cons, List.length_append, List.length_cons, Nat.mul_succ]
      omega

theorem readLevel_putLevelOrders {p : ℕ × Level} (h : Readable p) {b : Book} (hnew : p.1 ∉ b)
    (hn : ((E ++ p.2.map (entry side p.1)).map Prod.fst).Nodup) (rest : Bytes) :
    readLevel side ⟨putLevelOrders p ++ rest, true⟩ (b, built E) =
      some (⟨rest, true⟩, b.insert p.1 p.2, built (E ++ p.2.map (entry side p.1))) := by
  unfold readLevel putLevelOrders
  rw [List.append_assoc, List.append_assoc, u64_putU64 h.price_lt]
  dsimp only
  rw [u64_putU64 h.length_lt]
  dsimp only
  have hroom : ¬ p.2.length > (Reader.mk (p.2.flatMap putOrder ++ rest) true).remaining / 16 := by
    have := le_length_flatMap putOrder 16 p.2 fun o _ => by
      simp [putOrder, length_putU64]
    simp only [Reader.remaining, List.length_append]
    omega
  have hpos := Nat.pos_iff_ne_zero.mp h.price_pos
  have hlen : p.2.length ≠ 0 := fun h0 => h.ne_nil (List.length_eq_zero_iff.mp h0)
  rw [if_neg (by simp only [Bool.not_true, Bool.false_or, Bool.or_eq_true, decide_eq_true_eq]; tauto),
    readOrders h.order hn]

/-- **Levels are read one by one.** -/
theorem readBook_putLevels {ps : List (ℕ × Level)} (hlen : ps.length < 2 ^ 64) (h : ∀ p ∈ ps, Readable p)
    (hk : (ps.map Prod.fst).Nodup) (hn : ((E ++ entries side ps).map Prod.fst).Nodup) (rest : Bytes) :
    readBook side ⟨putLevels ps ++ rest, true⟩ (built E) =
      some (⟨rest, true⟩, ps.foldl (fun t p => t.insert p.1 p.2) ∅, built (E ++ entries side ps)) := by
  have hfold : ∀ A : List (ℕ × Level), A.foldl (fun (s : Book × Index) p => (s.1.insert p.1 p.2,
      (p.2.map (entry side p.1)).foldl (fun ix e => ix.insert e.1 e.2) s.2)) (∅, built E) =
        (A.foldl (fun t p => t.insert p.1 p.2) ∅, built (E ++ entries side A)) := by
    intro A
    induction A using List.reverseRecOn with
    | nil => simp [entries]
    | append_singleton A p ih =>
        rw [List.foldl_append, ih, List.foldl_append, entries_append, ← List.append_assoc,
          built_append (E ++ entries side A), entries_cons]
        simp [entries]
  unfold readBook putLevels
  rw [List.append_assoc, u64_putU64 hlen]
  dsimp only
  have hroom : ¬ ps.length > (Reader.mk (ps.flatMap putLevelOrders ++ rest) true).remaining / 16 := by
    have := le_length_flatMap putLevelOrders 16 ps fun p _ => by
      simp only [putLevelOrders, List.length_append, length_putU64]
      omega
    simp only [Reader.remaining, List.length_append]
    omega
  rw [if_neg (by simpa using hroom), readTimes_reads (fun _ => rfl) (fun A p B hl rest => ?_), hfold]
  rw [hfold]
  refine (readLevel_putLevelOrders (h p (by simp [hl])) (not_mem_foldl_insert ?_) ?_ rest).trans ?_
  · rw [hl, List.map_append, List.map_cons, List.nodup_middle, List.nodup_cons, List.mem_append,
      not_or] at hk
    exact hk.1.1
  · rw [hl, entries_append, entries_cons, ← List.append_assoc, ← List.append_assoc, List.map_append] at hn
    exact hn.of_append_left
  · rw [built_append (E ++ entries side A)]

theorem readSession_putSession {p : ℕ × Session} (h : Storable p) (rest : Bytes) (sessions : SessionMap) :
    readSession ⟨putSession p ++ rest, true⟩ sessions =
      some (⟨rest, true⟩, sessions.insert p.1 p.2) := by
  unfold readSession putSession
  rw [List.append_assoc, List.append_assoc, List.append_assoc, u64_putU64 h.client]
  dsimp only
  rw [u64_putU64 h.seq]
  dsimp only
  rw [u32_putU32 h.result]
  dsimp only
  rw [if_neg (by simp [Reader.remaining]), Reader.readBytes_append rfl]

theorem readSessions {ps : List (ℕ × Session)} (h : ∀ p ∈ ps, Storable p) :
    readTimes (fun _ => true) readSession ps.length ⟨ps.flatMap putSession, true⟩ ∅ =
      some (⟨[], true⟩, ps.foldl (fun t p => t.insert p.1 p.2) ∅) := by
  have hread : readTimes (fun _ => true) readSession ps.length ⟨ps.flatMap putSession ++ [], true⟩ ∅ =
      some (⟨[], true⟩, ps.foldl (fun t p => t.insert p.1 p.2) ∅) := by
    refine readTimes_reads (fun _ => rfl) (fun A p B hl rest => ?_) []
    exact readSession_putSession (h p (by simp [hl])) rest _
  rw [List.append_nil] at hread
  exact hread

end Reading

/-! ## 5. Texts of snapshots -/

/-- **What is written in a snapshot**: the counter, the levels of both books, and the sessions. -/
structure SnapshotText where
  nextId : ℕ
  bids : List (ℕ × Level)
  asks : List (ℕ × Level)
  sessions : List (ℕ × Session)

namespace SnapshotText

variable (t : SnapshotText)

def bytes : Bytes :=
  putU64 t.nextId ++ (putLevels t.bids ++ (putLevels t.asks ++
    (putU64 t.sessions.length ++ t.sessions.flatMap putSession)))

def lines : List (ℕ × ObSide × ℕ) := entries .bid t.bids ++ entries .ask t.asks

def state : OrderBookStateMachine where
  bids := t.bids.foldl (fun b p => b.insert p.1 p.2) ∅
  asks := t.asks.foldl (fun b p => b.insert p.1 p.2) ∅
  index := built t.lines
  nextOrderId := t.nextId
  sessions := t.sessions.foldl (fun s p => s.insert p.1 p.2) ∅

/-- **What `deserialize` checks**, and what the types of the source bound. -/
structure Accepted : Prop where
  next : t.nextId < 2 ^ 64
  bids_length : t.bids.length < 2 ^ 64
  asks_length : t.asks.length < 2 ^ 64
  bids_readable : ∀ p ∈ t.bids, Readable p
  asks_readable : ∀ p ∈ t.asks, Readable p
  bids_nodup : (t.bids.map Prod.fst).Nodup
  asks_nodup : (t.asks.map Prod.fst).Nodup
  ids_nodup : (t.lines.map Prod.fst).Nodup
  sessions_length : t.sessions.length < 2 ^ 64
  session : ∀ p ∈ t.sessions, Storable p

variable {t}

/-- **A text is read as its state**, with the index built from the levels. -/
theorem Accepted.deserialize (h : t.Accepted) (m₀ : OrderBookStateMachine) :
    m₀.deserialize t.bytes = (true, t.state) := by
  have hn := h.ids_nodup
  have hbids : ∀ rest, readBook .bid ⟨putLevels t.bids ++ rest, true⟩ (built []) = some (⟨rest, true⟩,
      t.bids.foldl (fun b p => b.insert p.1 p.2) ∅, built (entries .bid t.bids)) := by
    unfold lines at hn
    rw [List.map_append] at hn
    exact readBook_putLevels (E := []) h.bids_length h.bids_readable h.bids_nodup hn.of_append_left
  have hasks : ∀ rest, readBook .ask ⟨putLevels t.asks ++ rest, true⟩ (built (entries .bid t.bids)) =
      some (⟨rest, true⟩, t.asks.foldl (fun b p => b.insert p.1 p.2) ∅, built t.lines) :=
    readBook_putLevels h.asks_length h.asks_readable h.asks_nodup hn
  have hroom : ¬ t.sessions.length >
      (Reader.mk (t.sessions.flatMap putSession) true).remaining / 20 := by
    have := le_length_flatMap putSession 20 t.sessions fun p _ => by
      simp only [putSession, putU32, List.length_append, length_putU64, length_leBytes]
      omega
    simp only [Reader.remaining]
    omega
  unfold OrderBookStateMachine.deserialize bytes
  dsimp only
  rw [u64_putU64 h.next]
  dsimp only
  rw [show (∅ : Index) = built [] from rfl, hbids]
  dsimp only
  rw [hasks]
  dsimp only
  rw [u64_putU64 h.sessions_length]
  dsimp only
  rw [if_neg (by simpa using hroom), readSessions h.session]
  rfl

end SnapshotText

section Whole

variable {m : OrderBookStateMachine}

/-- The lines of the index for all the levels. -/
def lines (m : OrderBookStateMachine) : List (ℕ × ObSide × ℕ) :=
  entries .bid m.bids.toList ++ entries .ask m.asks.toList

theorem mem_entries {side s : ObSide} {b : Book} {id price : ℕ} :
    (id, s, price) ∈ entries side b.toList ↔
      s = side ∧ ∃ level, b[price]? = some level ∧ id ∈ level.map Resting.id := by
  rw [mem_entries_iff]
  simp only [Std.ExtTreeMap.mem_toList_iff_getElem?_eq_some]

theorem mem_lines {s : ObSide} {id price : ℕ} : (id, s, price) ∈ m.lines ↔ HasOrder m s price id := by
  unfold lines HasOrder
  rw [List.mem_append, mem_entries, mem_entries]
  cases s with
  | bid => simp [book]
  | ask => simp [book]

/-- An id is on one line of a side only. -/
theorem nodup_entries (h : BookInvariant m) (side : ObSide) :
    ((entries side (m.book side).toList).map Prod.fst).Nodup := by
  have hlevel : ∀ p ∈ (m.book side).toList, (m.book side)[p.1]? = some p.2 := fun p hp =>
    (Std.ExtTreeMap.mem_toList_iff_getElem?_eq_some (k := p.1) (v := p.2)).mp hp
  unfold entries
  rw [List.map_flatMap, List.nodup_flatMap]
  refine ⟨fun p hp => ?_, ?_⟩
  · rw [List.map_map]
    exact (h.level side p.1 p.2 (hlevel p hp)).2.2.2
  · refine ((m.book side).distinct_keys_toList.imp_of_mem fun {p q} hp hq hne => ?_)
    intro id hid hid'
    have hid : id ∈ (p.2.map (entry side p.1)).map Prod.fst := hid
    have hid' : id ∈ (q.2.map (entry side q.1)).map Prod.fst := hid'
    rw [List.map_map] at hid hid'
    have hone := h.unique id side p.1 side q.1 ⟨p.2, hlevel p hp, hid⟩ ⟨q.2, hlevel q hq, hid'⟩
    exact hne (by rw [hone.2]; exact Std.ReflCmp.compare_self)

theorem nodup_lines (h : BookInvariant m) : (m.lines.map Prod.fst).Nodup := by
  unfold lines
  rw [List.map_append]
  refine (nodup_entries h .bid).append (nodup_entries h .ask) fun id hb ha => ?_
  obtain ⟨⟨_, s, p⟩, hp, rfl⟩ := List.mem_map.mp hb
  obtain ⟨⟨i, t, q⟩, hq, hi⟩ := List.mem_map.mp ha
  obtain ⟨rfl, hbid⟩ := mem_entries.mp hp
  obtain ⟨rfl, hask⟩ := mem_entries.mp hq
  dsimp only at hi
  subst hi
  cases (h.unique i .bid p .ask q hbid hask).1

/-- **The index is what the levels say.** -/
theorem built_lines (h : BookInvariant m) : built m.lines = m.index := by
  refine foldl_insert_eq ?_ fun id sp => ?_
  · refine (List.pairwise_map.mp (nodup_lines h)).imp fun hne he => hne ?_
    exact Std.LawfulEqCmp.eq_of_compare he
  · exact mem_lines.trans (h.index id sp.1 sp.2).symm

theorem readable (h : BookInvariant m) (hf : m.Fits) (hs : m.Sized) (side : ObSide) :
    ∀ p ∈ (m.book side).toList, Readable p := by
  intro p hp
  have hl := (Std.ExtTreeMap.mem_toList_iff_getElem?_eq_some (k := p.1) (v := p.2)).mp hp
  obtain ⟨hne, hpos, hqty, -⟩ := h.level side p.1 p.2 hl
  obtain ⟨hlt, ho⟩ := hs.level side p.1 p.2 hl
  exact ⟨hpos, hlt, hne, hf.levels side p.1 p.2 hl, fun o hm => ⟨(ho o hm).1, hqty o hm, (ho o hm).2⟩⟩

theorem nodup_keys (b : Book) : (b.toList.map Prod.fst).Nodup := by
  refine List.pairwise_map.mpr (b.distinct_keys_toList.imp fun {p q} hne he => hne ?_)
  rw [he]
  exact Std.ReflCmp.compare_self

/-- The text of the snapshot that is taken of a book. -/
def text (m : OrderBookStateMachine) : SnapshotText :=
  ⟨m.nextOrderId, m.bids.toList, m.asks.toList, m.sessions.toList⟩

theorem serialize_eq (m : OrderBookStateMachine) : m.serialize = m.text.bytes := by
  unfold serialize SnapshotText.bytes putBook putLevels text
  simp only [Std.ExtTreeMap.length_toList]

theorem state_text (h : BookInvariant m) : m.text.state = m := by
  have hindex : built m.text.lines = m.index := built_lines h
  unfold SnapshotText.state
  rw [hindex]
  unfold text
  simp only [foldl_insert_toList]

theorem accepted_text (h : BookInvariant m) (hf : m.Fits) (hs : m.Sized) : m.text.Accepted where
  next := hs.next
  bids_length := Std.ExtTreeMap.length_toList.trans_lt (hf.books .bid)
  asks_length := Std.ExtTreeMap.length_toList.trans_lt (hf.books .ask)
  bids_readable := readable h hf hs .bid
  asks_readable := readable h hf hs .ask
  bids_nodup := nodup_keys m.bids
  asks_nodup := nodup_keys m.asks
  ids_nodup := nodup_lines h
  sessions_length := Std.ExtTreeMap.length_toList.trans_lt hf.sessions_size
  session p hp := by
    have hp : m.sessions[p.1]? = some p.2 :=
      (Std.ExtTreeMap.mem_toList_iff_getElem?_eq_some (k := p.1) (v := p.2)).mp hp
    obtain ⟨hc, hseq⟩ := hs.sessions p.1 p.2 hp
    exact ⟨hc, hseq, hf.results p.1 p.2 hp⟩

/-- **A snapshot is read as the book it was taken of**, with the index built again. -/
theorem deserialize_serialize (h : BookInvariant m) (hf : m.Fits) (hs : m.Sized)
    (m₀ : OrderBookStateMachine) : m₀.deserialize m.serialize = (true, m) := by
  rw [serialize_eq, (accepted_text h hf hs).deserialize, state_text h]

/-- **Bytes are refused, which changes nothing, or they are a book**, whatever the book was. -/
theorem deserialize_cases (bytes : Bytes) :
    (∀ m : OrderBookStateMachine, m.deserialize bytes = (false, m)) ∨
      ∃ m', ∀ m : OrderBookStateMachine, m.deserialize bytes = (true, m') := by
  unfold deserialize
  dsimp only
  cases readBook .bid (Reader.u64 ⟨bytes, true⟩).2 ∅ with
  | none => exact .inl fun m => rfl
  | some x =>
      dsimp only
      cases readBook .ask x.1 x.2.2 with
      | none => exact .inl fun m => rfl
      | some y =>
          dsimp only
          by_cases hguard : (!y.1.u64.2.ok || decide (y.1.u64.1 > y.1.u64.2.remaining / 20)) = true
          · exact .inl fun m => if_pos hguard
          simp only [if_neg hguard]
          cases readTimes (fun _ => true) readSession y.1.u64.1 y.1.u64.2 ∅ with
          | none => exact .inl fun m => rfl
          | some z =>
              dsimp only
              cases z.1.exhausted with
              | false => exact .inl fun m => rfl
              | true => exact .inr ⟨_, fun m => rfl⟩

end Whole

end OrderBookStateMachine

end Rsm.StateMachine
