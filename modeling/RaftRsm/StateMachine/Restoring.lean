/-
  File:      RaftRsm/StateMachine/Restoring.lean
  Subject:   RESTORING A SNAPSHOT at any point of any sequence of commands.

  Whatever number a machine holds was read from a command, so it is one of 64 bits and a snapshot
  keeps it. What a snapshot of the order book can lose is an order whose id another order has, and that
  takes `2 ^ 64` NEWs.

  * `identified_after`, `exists_sized` -- the numbers of a machine that a run has reached;
  * `snapshots_faithful` -- restoring succeeds, and what follows is as if no snapshot had been taken;
  * `wrapped_book_lost` -- a small book in which the counter has come round, and its snapshot is refused.
-/
import RaftRsm.StateMachine.Snapshot
import RaftRsm.StateMachine.Matching

namespace Rsm.StateMachine

open Rsm.Rpc Linear

/-! ## 1. Numbers that were read -/

theorem uint_lt (n : ℕ) (r : Reader) : (r.uint n).1 < 256 ^ n := by
  obtain ⟨b, ok⟩ := r
  cases ok with
  | false => exact Nat.pow_pos (by omega)
  | true =>
      rcases Reader.uint_cases n b with h | ⟨v, rest, hv, -, h⟩
      · rw [h]
        exact Nat.pow_pos (by omega)
      · rw [h]
        exact hv

theorem u64_lt (r : Reader) : r.u64.1 < 2 ^ 64 := uint_lt 8 r

theorem identity_of_parse {cmd : Bytes} {q : KvCommand} (h : parse cmd = some q) :
    q.clientId < 2 ^ 64 ∧ q.seqNo < 2 ^ 64 := by
  unfold parse at h
  dsimp only at h
  split at h
  · cases h
  split at h
  · cases h
  split at h
  · cases h
  split at h
  · cases h
  split at h
  · cases h
  split at h
  · cases h
  cases h
  exact ⟨u64_lt _, u64_lt _⟩

theorem identity_of_readHeader {cmd : Bytes} {h : ObHeader} {rd : Reader}
    (hh : readHeader cmd = some (h, rd)) : h.clientId < 2 ^ 64 ∧ h.seqNo < 2 ^ 64 := by
  unfold readHeader at hh
  dsimp only at hh
  split at hh
  · cases hh
  split at hh
  · cases hh
  cases hh
  exact ⟨u64_lt _, u64_lt _⟩

/-- What a payload that is read carries. -/
def ObPayload.Sized : ObPayload → Prop
  | .new _ price qty => price < 2 ^ 64 ∧ qty < 2 ^ 64
  | .cancel _ => True
  | .amend _ price qty => price < 2 ^ 64 ∧ qty < 2 ^ 64

theorem sized_of_readPayload {op : ObOp} {rd : Reader} {p : ObPayload}
    (h : readPayload op rd = some p) : p.Sized := by
  cases op with
  | new =>
      dsimp only [readPayload] at h
      split at h
      · cases h
      · split at h
        · cases h
        · split_ifs at h
          cases h
          exact ⟨u64_lt _, u64_lt _⟩
  | cancel =>
      dsimp only [readPayload] at h
      split at h
      · cases h
      · cases h
        trivial
  | amend =>
      dsimp only [readPayload] at h
      split at h
      · cases h
      · split_ifs at h
        cases h
        exact ⟨u64_lt _, u64_lt _⟩

/-- **The session table of the key-value store.** -/
theorem identified_after (L : List Bytes) : Identified (KVStateMachine.after L).sessions := by
  intro c s hs
  obtain ⟨M, cmd, q, -, hq, rfl, hseq, -⟩ := KVStateMachine.exists_execution hs
  rw [← hseq]
  exact identity_of_parse hq

/-! ## 2. The numbers of an order book -/

def Quote.Sized (e : Quote) : Prop := e.id < 2 ^ 64 ∧ e.price < 2 ^ 64 ∧ e.qty < 2 ^ 64

section Sized

variable {A B L M : List Quote} {fs : List ObFill} {side : ObSide} {limit id q r : ℕ}

theorem Placed.sized (h : Placed side limit id q L fs M r) (hL : ∀ e ∈ L, e.Sized) (hid : id < 2 ^ 64)
    (hp : limit < 2 ^ 64) (hq : q < 2 ^ 64) : ∀ e ∈ M, e.Sized := by
  obtain ⟨N, ht, rfl⟩ := h
  have hN : ∀ e ∈ N, e.Sized := by
    intro e he
    obtain ⟨y, hy, hey, hle, -⟩ := ht.mem e he
    obtain ⟨h1, h2, h3⟩ := hL y hy
    rw [hey]
    exact ⟨h1, h2, Nat.lt_of_le_of_lt hle h3⟩
  intro e he
  split_ifs at he with hr
  · rcases List.mem_append.mp he with he | he
    · exact hN e he
    · have := ht.sum
      rw [List.mem_singleton.mp he]
      exact ⟨hid, hp, by dsimp only; omega⟩
  · exact hN e he

/-- One command keeps the numbers small. -/
theorem Does.sized {Known : ℕ → Prop} {next : ℕ} {p : ObPayload} {a : Bytes}
    (h : Does Known next L p M a) (hL : ∀ e ∈ L, e.Sized) (hn : next < 2 ^ 64) (hp : p.Sized) :
    ∀ e ∈ M, e.Sized := by
  have hdrop : ∀ {A B : List Quote} {e : Quote}, L = A ++ e :: B → ∀ x ∈ A ++ B, x.Sized := by
    rintro A B e rfl x hx
    exact hL x (Selection.mem_of_taken hx)
  cases h with
  | new h => exact h.sized hL hn hp.1 hp.2
  | cancelUnknown => exact hL
  | cancel hk he => exact hdrop he
  | amendUnknown => exact hL
  | @amendKeep A e B qty hk he hq =>
      have hself := hL e (by simp [he])
      intro x hx
      rcases List.mem_append.mp hx with hx | hx
      · exact hdrop he x (List.mem_append_left B hx)
      · rcases List.mem_cons.mp hx with rfl | hx
        · exact ⟨hself.1, hself.2.1, hp.2⟩
        · exact hdrop he x (List.mem_append_right A hx)
  | @amendMove A e B price qty fs M r hk he hq h =>
      exact h.sized (hdrop he) (hL e (by simp [he])).1 hp.1 hp.2

end Sized

/-- What is read off the session table through `obMachine`. -/
theorem identified_iff {m : OrderBookStateMachine} : Identified m.sessions ↔
    ∀ c n r, obMachine.last m c = some (n, r) → c < 2 ^ 64 ∧ n < 2 ^ 64 := by
  constructor
  · intro h c n r hl
    obtain ⟨s, hs, he⟩ := Option.map_eq_some_iff.mp hl
    cases he
    exact h c s hs
  · intro h c s hs
    exact h c s.lastSeq s.lastResult (Option.map_eq_some_iff.mpr ⟨s, hs, rfl⟩)

/-- **The numbers of a book that a run has reached.** -/
theorem exists_sized (L : List Bytes) : ∃ m Q, Reached L m Q ∧ (∀ e ∈ Q, e.Sized) ∧
    Identified m.sessions := by
  induction L using List.reverseRecOn with
  | nil =>
      refine ⟨{}, [], reached_nil, fun _ h => (List.not_mem_nil h).elim, fun c s h => ?_⟩
      simp at h
  | append_singleton L cmd ih =>
      obtain ⟨m, Q, h, hQ, hs⟩ := ih
      rcases apply_cases m cmd with ⟨r, hr, hno⟩ | ⟨hd, p, hp, hc⟩
      · exact ⟨m, Q, h.skip hr hno, hQ, hs⟩
      · obtain ⟨m', M, r, -, hdoes, -, hlast, h'⟩ := h.execute hp hc
        obtain ⟨rd, hh, hpay⟩ := parseOb_eq_some hp
        have hn : m.nextOrderId < 2 ^ 64 := by
          rw [h.next]
          exact Nat.mod_lt _ (by omega)
        refine ⟨m', M, h', hdoes.sized hQ hn (sized_of_readPayload hpay), identified_iff.mpr ?_⟩
        intro c n a hl
        rw [hlast] at hl
        split_ifs at hl
        · exact identified_iff.mp hs c n a hl
        · by_cases hcc : c = hd.clientId
          · subst hcc
            rw [Function.update_self] at hl
            cases hl
            exact identity_of_readHeader hh
          · rw [Function.update_of_ne hcc] at hl
            exact identified_iff.mp hs c n a hl

theorem sized_of_reached {L : List Bytes} {m : OrderBookStateMachine} {Q : List Quote}
    (h : Reached L m Q) (hQ : ∀ e ∈ Q, e.Sized) (hs : Identified m.sessions) : m.Sized := by
  refine ⟨?_, fun side price level hl => ?_, hs⟩
  · rw [h.next]
    exact Nat.mod_lt _ (by omega)
  · rw [h.shows.level] at hl
    obtain ⟨rfl, hne⟩ := present_eq_some.mp hl
    refine ⟨?_, fun o ho => ?_⟩
    · obtain ⟨o, ho⟩ := List.exists_mem_of_ne_nil _ hne
      obtain ⟨e, he, -, rfl, -⟩ := mem_levelOf.mp ho
      exact (hQ e he).2.1
    · obtain ⟨e, he, -, -, rfl⟩ := mem_levelOf.mp ho
      exact ⟨(hQ e he).1, (hQ e he).2.2⟩

/-! ## 3. Restoring -/

section Restoring

variable {S : Type} (M : SessionMachine S Bytes Bytes)

/-- **The snapshot of `s`, the state after `L₁`, can stand for it**: read by a machine in any state it
    gives `s`, and from there the commands `L₂` get the answers and come to the state that they get and
    come to after `L₁`. -/
def StandsFor (serialize : S → Bytes) (deserialize : S → Bytes → Bool × S) (L₁ L₂ : List Bytes) (s : S) :
    Prop :=
  ∀ m₀, deserialize m₀ (serialize s) = (true, s) ∧
    ∃ t rs₁ rs₂, M.run M.init L₁ = some (s, rs₁) ∧
      M.run (deserialize m₀ (serialize s)).2 L₂ = some (t, rs₂) ∧
      M.run M.init (L₁ ++ L₂) = some (t, rs₁ ++ rs₂)

variable {M}

theorem standsFor_of {serialize : S → Bytes} {deserialize : S → Bytes → Bool × S} {s : S}
    {L₁ : List Bytes} (hM : ∀ L, (M.after L).isSome = true) (hs : M.after L₁ = some s)
    (h : ∀ m₀, deserialize m₀ (serialize s) = (true, s)) (L₂ : List Bytes) :
    StandsFor M serialize deserialize L₁ L₂ s := by
  intro m₀
  refine ⟨h m₀, ?_⟩
  rw [h m₀]
  exact SessionMachine.run_resumes hM hs L₂

end Restoring

/-- **Snapshots are faithful.** A store that fits its types is restored; so is a book that does, as
    long as its id counter has not come round. What is refused leaves the machine as it was. -/
theorem snapshots_faithful :
    (∀ L₁ L₂, (KVStateMachine.after L₁).Fits → StandsFor kvMachine KVStateMachine.serialize
      KVStateMachine.deserialize L₁ L₂ (KVStateMachine.after L₁)) ∧
    (∀ L₁ L₂, acceptedNews L₁ < 2 ^ 64 → ∃ m, OrderBookStateMachine.after L₁ = some m ∧
      (m.Fits → StandsFor obMachine OrderBookStateMachine.serialize
        OrderBookStateMachine.deserialize L₁ L₂ m)) ∧
    (∀ (m : KVStateMachine) bytes, (m.deserialize bytes).1 = false → (m.deserialize bytes).2 = m) ∧
    (∀ (m : OrderBookStateMachine) bytes, (m.deserialize bytes).1 = false →
      (m.deserialize bytes).2 = m) := by
  refine ⟨fun L₁ L₂ hf => ?_, fun L₁ L₂ hn => ?_, fun m bytes h => ?_, fun m bytes h => ?_⟩
  · have hM : ∀ L, (kvMachine.after L).isSome = true := fun L => by rw [kvMachine_after]; rfl
    exact standsFor_of hM (kvMachine_after L₁)
      (KVStateMachine.deserialize_serialize hf (identified_after L₁)) L₂
  · obtain ⟨m, Q, h, hQ, hs⟩ := exists_sized L₁
    obtain ⟨hi, -⟩ := h.indexed hn
    refine ⟨m, h.after, fun hf => standsFor_of after_isSome h.after ?_ L₂⟩
    exact OrderBookStateMachine.deserialize_serialize (bookInvariant_of h.shows h.sound hi) hf
      (sized_of_reached h hQ hs)
  · rcases KVStateMachine.deserialize_cases bytes with hno | ⟨m', hyes⟩
    · rw [hno m]
    · rw [hyes m] at h
      cases h
  · rcases OrderBookStateMachine.deserialize_cases bytes with hno | ⟨m', hyes⟩
    · rw [hno m]
    · rw [hyes m] at h
      cases h

/-- A book of one level. -/
theorem fits_of_one {m : OrderBookStateMachine} (side : ObSide) {price : ℕ} {level : Level}
    (h : m.book side = (∅ : Book).insert price level) (ho : m.book side.opposite = ∅)
    (hs : m.sessions = ∅) (hlen : level.length < 2 ^ 64) : m.Fits := by
  have hside : ∀ s, s = side ∨ s = side.opposite := fun s => by
    rw [ObSide.eq_opposite_iff]
    exact em _
  refine ⟨fun s => ?_, fun s p l hl => ?_, by rw [hs]; decide, fun c x hx => ?_⟩
  · rcases hside s with rfl | rfl
    · rw [h, Std.ExtTreeMap.size_insert, Std.ExtTreeMap.contains_empty]
      decide
    · rw [ho]
      decide
  · rcases hside s with rfl | rfl
    · rw [h, getElem?_insert_nat, Std.ExtTreeMap.getElem?_empty] at hl
      split_ifs at hl
      cases hl
      exact hlen
    · rw [ho, Std.ExtTreeMap.getElem?_empty] at hl
      cases hl
  · rw [hs, Std.ExtTreeMap.getElem?_empty] at hx
    cases hx

theorem forall_of_toList {α β : Type*} {cmp : α → α → Ordering} [Std.TransCmp cmp] [Std.LawfulEqCmp cmp]
    {t : Std.ExtTreeMap α β cmp} {P : α → β → Prop} (h : ∀ p ∈ t.toList, P p.1 p.2) (k : α) (v : β)
    (hv : t[k]? = some v) : P k v :=
  h (k, v) (Std.ExtTreeMap.mem_toList_iff_getElem?_eq_some.mpr hv)

/-- The bounds on a book, read off its lists. -/
theorem fits_of_toList {m : OrderBookStateMachine} (hb : ∀ side, (m.book side).size < 2 ^ 64)
    (hl : ∀ side, ∀ p ∈ (m.book side).toList, p.2.length < 2 ^ 64) (hs : m.sessions.size < 2 ^ 64)
    (hr : ∀ p ∈ m.sessions.toList, p.2.lastResult.length < 2 ^ 32) : m.Fits :=
  ⟨hb, fun side => forall_of_toList (hl side), hs, forall_of_toList hr⟩

/-- Two clients write; a key is overwritten, one is extended, one is deleted, and a request comes twice. -/
def busyMap : List Bytes :=
  [encodeKvCommand 7 1 .put [107] [118] [], encodeKvCommand 8 1 .put [109] [119, 119] [],
    encodeKvCommand 8 1 .put [109] [119, 119] [], encodeKvCommand 7 2 .put [107] [120] [],
    encodeKvCommand 8 2 .append [109] [122] [], encodeKvCommand 7 3 .put [] [121] [],
    encodeKvCommand 7 4 .delete [] [] []]

theorem fits_busyMap : (KVStateMachine.after busyMap).Fits :=
  ⟨by decide +kernel, by decide +kernel, forall_of_toList (by decide +kernel),
    forall_of_toList (by decide +kernel)⟩

theorem fits_busyBook {m : OrderBookStateMachine} (hm : OrderBookStateMachine.after busyBook = some m) :
    m.Fits := by
  have hall : (OrderBookStateMachine.after busyBook).all (fun m =>
      (∀ side ∈ [ObSide.bid, .ask], (m.book side).size < 2 ^ 64 ∧
        ∀ p ∈ (m.book side).toList, p.2.length < 2 ^ 64) ∧ m.sessions.size < 2 ^ 64 ∧
      ∀ p ∈ m.sessions.toList, p.2.lastResult.length < 2 ^ 32) = true := by decide +kernel
  rw [hm, Option.all_some, decide_eq_true_iff] at hall
  obtain ⟨hbooks, hsize, hresults⟩ := hall
  have hside : ∀ side, side ∈ [ObSide.bid, .ask] := fun side => by cases side <;> simp
  exact fits_of_toList (fun s => (hbooks s (hside s)).1) (fun s => (hbooks s (hside s)).2) hsize hresults

/-- Restored after writes of two clients, and after a trade in a book with sessions; then come duplicates,
    a read, and an ask that trades. -/
theorem snapshots_faithful_busy :
    StandsFor kvMachine KVStateMachine.serialize KVStateMachine.deserialize busyMap
      [encodeKvCommand 8 2 .append [109] [122] [], encodeKvCommand 7 5 .get [107] [] []]
      (KVStateMachine.after busyMap) ∧
    ∃ m, OrderBookStateMachine.after busyBook = some m ∧ StandsFor obMachine
      OrderBookStateMachine.serialize OrderBookStateMachine.deserialize busyBook
      [encodeObCancel 7 3 1, encodeObNew 9 3 .ask 3 1] m := by
  refine ⟨snapshots_faithful.1 _ _ fits_busyMap, ?_⟩
  obtain ⟨m, hm, hfits⟩ := snapshots_faithful.2.1 busyBook [encodeObCancel 7 3 1, encodeObNew 9 3 .ask 3 1]
    (by rw [acceptedNews_busyBook]; decide)
  exact ⟨m, hm, hfits (fits_busyBook hm)⟩

/-! ## 4. A counter that has come round -/

/-- One lot asked at 3, outside all sessions. -/
def farAsk : Bytes := encodeObNew 0 0 .ask 3 1

/-- One lot asked at the lowest price. -/
def loneAsk : Bytes := encodeObNew 0 0 .ask 1 1

theorem parseOb_farAsk : parseOb farAsk = some (⟨0, 0, .new⟩, .new .ask 3 1) := by decide +kernel

theorem parseOb_loneAsk : parseOb loneAsk = some (⟨0, 0, .new⟩, .new .ask 1 1) := by decide +kernel

/-- A state with no session, in which the next order gets the id `next`. -/
structure Sessionless (L : List Bytes) (Q : List Quote) (next : ℕ) (m : OrderBookStateMachine) :
    Prop where
  reached : Reached L m Q
  last : obMachine.last m = fun _ => none
  next : m.nextOrderId = next

section Wrapping

variable {L : List Bytes} {Q N : List Quote} {fs : List ObFill} {m : OrderBookStateMachine}
  {cmd : Bytes} {side : ObSide} {price qty next r : ℕ}

theorem Sessionless.new (h : Sessionless L Q next m)
    (hp : parseOb cmd = some (⟨0, 0, .new⟩, .new side price qty))
    (hN : Placed side price next qty Q fs N r) :
    ∃ m', Sessionless (L ++ [cmd]) N ((next + 1) % 2 ^ 64) m' := by
  obtain ⟨m', M, a, -, hdoes, hn, hlast, h'⟩ := h.reached.execute hp rfl
  cases hdoes with
  | new hM =>
      rw [h.next] at hM hn
      obtain ⟨-, rfl, -⟩ := hM.unique hN
      exact ⟨m', h', hlast.trans h.last, hn⟩

/-- Orders that all ask 3 or more stay where they are when a bid of 1 and an ask of 1 meet. -/
theorem Sessionless.round (h : Sessionless L Q next m) (hQ : ∀ e ∈ Q, e.side = .ask ∧ 1 < e.price) :
    ∃ m', Sessionless (L ++ [loneBid, loneAsk]) Q ((next + 2) % 2 ^ 64) m' := by
  have hbid : Placed .bid 1 next 1 Q [] (Q ++ [⟨next, .bid, 1, 1⟩]) 1 := by
    refine ⟨Q, .away (by omega) fun e he _ => ?_, rfl⟩
    have := (hQ e he).2
    simp only [rank]
    omega
  obtain ⟨m₁, h₁⟩ := h.new parseOb_loneBid hbid
  have hask : Placed .ask 1 ((next + 1) % 2 ^ 64) 1 (Q ++ [⟨next, .bid, 1, 1⟩]) [⟨next, 1, 1⟩] Q 0 := by
    refine ⟨Q, .take (A := Q) (B := []) (by omega) rfl ?_ (le_refl _) (Nat.le_refl 1) ?_, rfl⟩
    · refine ⟨rfl, fun e he hside => ?_, fun _ h => (List.not_mem_nil h).elim⟩
      rw [(hQ e he).1] at hside
      cases hside
    · rw [List.append_nil]
      exact .filled
  obtain ⟨m₂, h₂⟩ := h₁.new parseOb_loneAsk hask
  refine ⟨m₂, ?_⟩
  rw [List.append_assoc] at h₂
  have hnext : ((next + 1) % 2 ^ 64 + 1) % 2 ^ 64 = (next + 2) % 2 ^ 64 := by omega
  rw [hnext] at h₂
  exact h₂

theorem Sessionless.rounds (h : Sessionless L Q next m) (hlt : next < 2 ^ 64)
    (hQ : ∀ e ∈ Q, e.side = .ask ∧ 1 < e.price) : ∀ n, ∃ m',
    Sessionless (L ++ (List.replicate n [loneBid, loneAsk]).flatten) Q ((next + 2 * n) % 2 ^ 64) m'
  | 0 => ⟨m, by rw [List.replicate_zero, List.flatten_nil, List.append_nil, Nat.mul_zero, Nat.add_zero,
      Nat.mod_eq_of_lt hlt]; exact h⟩
  | n + 1 => by
      obtain ⟨m₁, h₁⟩ := Sessionless.rounds h hlt hQ n
      obtain ⟨m₂, h₂⟩ := h₁.round hQ
      refine ⟨m₂, ?_⟩
      rw [List.append_assoc] at h₂
      rw [List.replicate_succ', List.flatten_append, List.flatten_singleton]
      have hnext : ((next + 2 * n) % 2 ^ 64 + 2) % 2 ^ 64 = (next + 2 * (n + 1)) % 2 ^ 64 := by omega
      rw [hnext] at h₂
      exact h₂

end Wrapping

/-- The same one lot asked three times, while two of the ids are the same. -/
def wrappedLevel : Level := [⟨1, 1⟩, ⟨2, 1⟩, ⟨1, 1⟩]

def wrappedQuotes : List Quote := [⟨1, .ask, 3, 1⟩, ⟨2, .ask, 3, 1⟩, ⟨1, .ask, 3, 1⟩]

/-- Two asks, `2 ^ 64 - 2` orders that come and go, and one more ask. -/
def wrapping : List Bytes :=
  [farAsk, farAsk] ++ (List.replicate (2 ^ 63 - 1) [loneBid, loneAsk]).flatten ++ [farAsk]

theorem exists_wrapped : ∃ m, Sessionless wrapping wrappedQuotes 2 m := by
  have hfar : ∀ (next : ℕ) (Q : List Quote), (∀ e ∈ Q, e.side = .ask) →
      Placed .ask 3 next 1 Q [] (Q ++ [⟨next, .ask, 3, 1⟩]) 1 := by
    intro next Q hQ
    refine ⟨Q, .away (by omega) fun e he hside => ?_, rfl⟩
    rw [hQ e he] at hside
    cases hside
  have h₀ : Sessionless [] [] 1 {} := ⟨reached_nil, rfl, rfl⟩
  obtain ⟨m₁, h₁⟩ := h₀.new parseOb_farAsk (hfar 1 [] fun _ h => (List.not_mem_nil h).elim)
  obtain ⟨m₂, h₂⟩ := h₁.new parseOb_farAsk (hfar _ _ (by simp))
  obtain ⟨m₃, h₃⟩ := h₂.rounds (Nat.mod_lt _ (by omega)) (by simp) (2 ^ 63 - 1)
  exact h₃.new parseOb_farAsk (hfar _ _ (by simp))

/-- **A snapshot is refused**: the counter has come round, so two orders of the level at 3 have one id,
    and `deserialize` takes the second of them for a duplicate. -/
theorem wrapped_book_lost : ∃ m, OrderBookStateMachine.after wrapping = some m ∧ m.Fits ∧
    ∀ m₀ : OrderBookStateMachine, m₀.deserialize m.serialize = (false, m₀) := by
  obtain ⟨m, h⟩ := exists_wrapped
  have hbids : m.bids = ∅ := by
    refine Std.ExtTreeMap.ext_getElem? fun p => (h.reached.shows.level .bid p).trans ?_
    rw [levelOf_eq_nil (by simp [wrappedQuotes]), Std.ExtTreeMap.getElem?_empty]
    rfl
  have hasks : m.asks = (∅ : Book).insert 3 wrappedLevel := by
    refine Std.ExtTreeMap.ext_getElem? fun p => (h.reached.shows.level .ask p).trans ?_
    rw [getElem?_insert_nat]
    split_ifs with hp
    · subst hp
      rfl
    · rw [levelOf_eq_nil (by simp [wrappedQuotes]; omega), Std.ExtTreeMap.getElem?_empty]
      rfl
  have hsessions : m.sessions = ∅ := by
    refine Std.ExtTreeMap.ext_getElem? fun c => ?_
    rw [Std.ExtTreeMap.getElem?_empty]
    exact Option.map_eq_none_iff.mp (congrFun h.last c)
  refine ⟨m, h.reached.after, fits_of_one .ask hasks hbids hsessions (by decide), fun m₀ => ?_⟩
  · have hbytes : m.serialize = OrderBookStateMachine.serialize
        ⟨∅, (∅ : Book).insert 3 wrappedLevel, ∅, 2, ∅⟩ := by
      unfold OrderBookStateMachine.serialize
      rw [hbids, hasks, hsessions, h.next]
    rw [hbytes]
    rcases OrderBookStateMachine.deserialize_cases (OrderBookStateMachine.serialize
        ⟨∅, (∅ : Book).insert 3 wrappedLevel, ∅, 2, ∅⟩) with hno | ⟨m', hyes⟩
    · exact hno m₀
    · have hfalse : (OrderBookStateMachine.deserialize {} (OrderBookStateMachine.serialize
          ⟨∅, (∅ : Book).insert 3 wrappedLevel, ∅, 2, ∅⟩)).1 = false := by decide +kernel
      rw [hyes] at hfalse
      cases hfalse

end Rsm.StateMachine
