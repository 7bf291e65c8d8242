/-
  File:      RaftRsm/StateMachine/GoldenModel.lean
  Subject:   GOLDEN-MODEL EQUIVALENCE: the matching engine and the reference matcher, command by
             command, on arbitrary bytes.

  Both do what `PriceTime` says, and price-time priority leaves no choice. What has to be said here
  is that their sessions agree, and that the text of a book does not depend on how it is kept.

  * `Twin L m r Q` -- after the commands `L`, engine and reference show the same book `Q`;
  * `bookImage_eq` -- then they print the same text;
  * `golden_equivalence` -- results and texts are the same after every command, as long as the stamps
    of the reference have not wrapped;
  * `stamps_wrap` -- once they have, the texts can differ.
-/
import RaftRsm.StateMachine.BookRuns
import RaftRsm.StateMachine.ReferenceView

namespace Rsm.StateMachine

open Rsm.Rpc Linear OrderBookStateMachine ObRef
open scoped List

/-! ## 1. The same book, the same text -/

section Image

variable {m : OrderBookStateMachine} {r : ReferenceMatcher} {Q : List Quote}

theorem mem_prices {side p : ℕ} : ∀ {book : List Order},
    p ∈ book.foldl (fun ps o => if o.side = side ∧ o.price ∉ ps then ps ++ [o.price] else ps) [] ↔
      ∃ o ∈ book, o.side = side ∧ o.price = p := by
  intro book
  induction book using List.reverseRecOn with
  | nil => simp
  | append_singleton book o ih =>
      rw [List.foldl_append, List.foldl_cons, List.foldl_nil]
      simp only [List.mem_append, List.mem_singleton]
      split
      · rename_i h
        rw [List.mem_append, ih, List.mem_singleton]
        constructor
        · rintro (⟨x, hx, hxs⟩ | rfl)
          · exact ⟨x, .inl hx, hxs⟩
          · exact ⟨o, .inr rfl, h.1, rfl⟩
        · rintro ⟨x, hx | rfl, hxs, rfl⟩
          · exact .inl ⟨x, hx, hxs, rfl⟩
          · exact .inr rfl
      · rename_i h
        rw [ih]
        constructor
        · rintro ⟨x, hx, hxs⟩
          exact ⟨x, .inl hx, hxs⟩
        · rintro ⟨x, hx | rfl, hxs, rfl⟩
          · exact ⟨x, hx, hxs, rfl⟩
          · exact ih.mp (not_not.mp fun hn => h ⟨hxs, hn⟩)

theorem nodup_prices (side : ℕ) (book : List Order) : (book.foldl
    (fun ps o => if o.side = side ∧ o.price ∉ ps then ps ++ [o.price] else ps) []).Nodup := by
  induction book using List.reverseRecOn with
  | nil => exact List.nodup_nil
  | append_singleton book o ih =>
      rw [List.foldl_append, List.foldl_cons, List.foldl_nil]
      split
      · rename_i h
        exact nodup_snoc ih h.2
      · exact ih

/-- The orders of a level as the reference keeps them. -/
theorem levelOf_quotes (book : List Order) (side price : ℕ) (hs : side ≤ 1)
    (hb : ∀ o ∈ book, o.side ≤ 1) : levelOf (book.map Order.quote) (sideOf side) price =
      (book.filter fun o => o.side = side ∧ o.price = price).map fun o => ⟨o.id, o.qty⟩ := by
  unfold levelOf
  rw [List.filter_map, List.map_map]
  refine congrArg _ (List.filter_congr fun o ho => ?_)
  have hos := hb o ho
  have hiff : sideOf o.side = sideOf side ↔ o.side = side := by
    constructor
    · intro h
      by_contra hne
      have := (sideOf_eq_opposite hos hs).mpr hne
      rw [h] at this
      exact (sideOf side).opposite_ne this.symm
    · exact fun h => by rw [h]
  rw [Bool.eq_iff_iff, Function.comp_apply, decide_eq_true_eq, decide_eq_true_eq]
  exact and_congr_left fun _ => hiff

/-- **The keys of a side are the prices that the reference sorts.** -/
theorem keys_eq (h : Shows m Q) (hQ : r.book.map Order.quote = Q) (hr : RefOk r) (side : ℕ)
    (hs : side ≤ 1) : (m.book (sideOf side)).keys = (r.prices side).insertionSort (· ≤ ·) := by
  have hsides : ∀ o ∈ r.book, o.side ≤ 1 := fun o ho => hr.stamped.sides o.stamp (List.mem_map_of_mem ho)
  have hsorted := keys_sorted (m.book (sideOf side))
  have hperm : (m.book (sideOf side)).keys ~ r.prices side := by
    refine (List.perm_ext_iff_of_nodup (hsorted.imp fun h => Nat.ne_of_lt h)
      (nodup_prices side r.book)).mpr fun p => ?_
    rw [Std.ExtTreeMap.mem_keys, Std.ExtTreeMap.mem_iff_isSome_getElem?, h.level, mem_prices, ← hQ,
      levelOf_quotes r.book side p hs hsides, isSome_present]
    simp
  have hle : (m.book (sideOf side)).keys.Pairwise (· ≤ ·) := hsorted.imp Nat.le_of_lt
  exact (hperm.trans (List.perm_insertionSort _ _).symm).eq_of_pairwise
    (fun a b _ _ => Nat.le_antisymm) hle (List.pairwise_insertionSort _ _)

/-- The levels of a side in the order of their prices. -/
theorem toList_eq (h : Shows m Q) (side : ObSide) :
    (m.book side).toList = (m.book side).keys.map fun p => (p, levelOf Q side p) := by
  rw [← Std.ExtTreeMap.map_fst_toList_eq_keys, List.map_map]
  symm
  refine (List.map_congr_left fun x hx => ?_).trans (List.map_id _)
  have hget := Std.ExtTreeMap.mem_toList_iff_getElem?_eq_some.mp hx
  rw [h.level] at hget
  exact Prod.ext rfl (present_eq_some.mp hget).1

/-- Stamps that grow along the vector leave nothing to sort. -/
theorem shownLevel_eq (hr : RefOk r) (side price : ℕ) : r.shownLevel side price =
    r.book.filter fun o => o.side = side ∧ o.price = price := by
  have := hr.stamped.arrivals
  rw [List.pairwise_map] at this
  exact ((this.sublist List.filter_sublist).imp Nat.le_of_lt).insertionSort_eq

/-- One side of the text. -/
theorem side_text (hQ : r.book.map Order.quote = Q) (hr : RefOk r) (tag : String)
    (side : ℕ) (hs : side ≤ 1) (prices : List ℕ) :
    (prices.map fun p => (p, levelOf Q (sideOf side) p)).map (fun l => dump tag l.1 l.2) =
      prices.map fun price => tag ++ " " ++ toString price ++ ":" ++
        String.join ((r.shownLevel side price).map fun o =>
          " (" ++ toString o.id ++ "," ++ toString o.qty ++ ")") ++ "\n" := by
  have hsides : ∀ o ∈ r.book, o.side ≤ 1 := fun o ho => hr.stamped.sides o.stamp (List.mem_map_of_mem ho)
  rw [List.map_map]
  refine List.map_congr_left fun p _ => ?_
  rw [shownLevel_eq hr, Function.comp_apply, ← hQ, levelOf_quotes r.book side p hs hsides]
  unfold dump
  rw [List.map_map]
  rfl

/-- **The same book has the same text.** -/
theorem bookImage_eq (h : Shows m Q) (hQ : r.book.map Order.quote = Q) (hr : RefOk r) :
    m.bookImage = r.bookImage := by
  have hbids : m.bids.toList.reverse = (r.shownPrices 0).map fun p => (p, levelOf Q (sideOf 0) p) := by
    have := toList_eq h .bid
    rw [show m.book .bid = m.bids from rfl] at this
    rw [this, ← List.map_reverse]
    have hk := keys_eq h hQ hr 0 (by decide)
    rw [show m.book (sideOf 0) = m.bids from rfl] at hk
    rw [hk]
    rfl
  have hasks : m.asks.toList = (r.shownPrices 1).map fun p => (p, levelOf Q (sideOf 1) p) := by
    have := toList_eq h .ask
    rw [show m.book .ask = m.asks from rfl] at this
    rw [this]
    have hk := keys_eq h hQ hr 1 (by decide)
    rw [show m.book (sideOf 1) = m.asks from rfl] at hk
    rw [hk]
    rfl
  unfold OrderBookStateMachine.bookImage ReferenceMatcher.bookImage
  rw [hbids, hasks, side_text hQ hr "B" 0 (by decide),
    side_text hQ hr "A" 1 (by decide)]
  simp [String.join]

end Image

/-! ## 2. The same commands -/

/-- NEWs and AMENDs can put an order at the end of its level, which takes a stamp. -/
def isPlacement (cmd : Bytes) : Bool :=
  match parseOb cmd with
  | some (_, .cancel _) => false
  | some _ => true
  | none => false

/-- How many NEWs and AMENDs of a sequence count. -/
def acceptedPlacements (L : List Bytes) : ℕ := (obMachine.accepted L).countP isPlacement

theorem acceptedPlacements_mono {P L : List Bytes} (h : P <+: L) :
    acceptedPlacements P ≤ acceptedPlacements L :=
  (SessionMachine.accepted_grows obMachine h).sublist.countP_le

theorem acceptedNews_le (L : List Bytes) : acceptedNews L ≤ acceptedPlacements L := by
  refine List.countP_mono_left fun cmd _ h => ?_
  unfold isNew at h
  unfold isPlacement
  split at h
  · rename_i hd p hp
    rw [hp]
    cases p with
    | new => rfl
    | cancel => cases h
    | amend => cases h
  · cases h

theorem acceptedPlacements_snoc {L : List Bytes} {m : OrderBookStateMachine} {cmd : Bytes}
    {hd : ObHeader} {p : ObPayload} (hL : obMachine.after L = some m)
    (hp : parseOb cmd = some (hd, p)) (hc : m.cachedResult hd.clientId hd.seqNo = none) :
    acceptedPlacements (L ++ [cmd]) = acceptedPlacements L + stampsOf p := by
  unfold acceptedPlacements
  rw [SessionMachine.accepted_snoc_of ((accepts_iff_new hL hp).mpr hc), List.countP_append,
    List.countP_singleton]
  congr 1
  unfold isPlacement
  rw [hp]
  cases p <;> rfl

/-- **Engine and reference after the same commands.** -/
structure Twin (L : List Bytes) (m : OrderBookStateMachine) (r : ReferenceMatcher)
    (Q : List Quote) : Prop where
  reached : Reached L m Q
  bug : r.bug = .none
  book : r.book.map Order.quote = Q
  next : r.nextId = m.nextOrderId
  sessions : ∀ c, r.sessions[c]? = obMachine.last m c
  ok : RefOk r
  arrival : r.arrival ≤ acceptedPlacements L

theorem twin_nil : Twin [] {} {} [] :=
  ⟨reached_nil, rfl, rfl, rfl, fun _ => rfl,
    ⟨⟨fun _ h => (List.not_mem_nil h).elim, List.Pairwise.nil⟩, fun _ h => (List.not_mem_nil h).elim⟩,
    Nat.le_refl _⟩

section Step

variable {L : List Bytes} {m : OrderBookStateMachine} {r : ReferenceMatcher} {Q : List Quote}
  {cmd : Bytes}

theorem Twin.cachedResult_eq (h : Twin L m r Q) (c n : ℕ) :
    r.cachedResult c n = m.cachedResult c n := by
  unfold ReferenceMatcher.cachedResult OrderBookStateMachine.cachedResult
  rw [h.sessions]
  dsimp only [obMachine]
  cases m.sessions[c]? <;> rfl

/-- The ids that the index has are those of the book. -/
theorem known_eq (hS : Shows m Q) (hi : Indexed m Q) :
    (· ∈ m.index) = fun id => id ∈ Q.map Quote.id := by
  funext id
  apply propext
  constructor
  · intro hk
    obtain ⟨⟨side, price⟩, hidx⟩ := mem_index_iff.mp hk
    obtain ⟨e, he, rfl, -⟩ := hS.located id side price hidx
    exact List.mem_map_of_mem he
  · intro hm
    obtain ⟨e, he, rfl⟩ := List.mem_map.mp hm
    exact mem_index_iff.mpr ⟨_, hi.index e he⟩

/-- What both read of a command. -/
theorem reads (cmd : Bytes) :
    (readIdentity cmd = none ∧ readHeader cmd = none) ∨ ∃ c n op pos o,
      readIdentity cmd = some (c, n, op, pos) ∧ ObOp.ofByte op = some o ∧
      readHeader cmd = some (⟨c, n, o⟩, ⟨cmd.drop pos, true⟩) ∧
      parseOb cmd = (readPayloadAt o cmd pos).map fun p => (⟨c, n, o⟩, p) := by
  have hh := readHeader_eq cmd
  cases hid : readIdentity cmd with
  | none =>
      rw [hid] at hh
      exact .inl ⟨rfl, hh⟩
  | some x =>
      obtain ⟨c, n, op, pos⟩ := x
      rw [hid] at hh
      right
      cases ho : ObOp.ofByte op with
      | none =>
          -- the reference has checked the operation already
          unfold readIdentity at hid
          simp only [Option.bind_eq_bind, Option.bind_eq_some_iff] at hid
          obtain ⟨_, _, _, _, _, _, hid⟩ := hid
          split_ifs at hid with hn
          cases hid
          exact absurd (ofByte_eq_none.mp ho) hn
      | some o =>
          have hh : readHeader cmd = some (⟨c, n, o⟩, ⟨cmd.drop pos, true⟩) := by
            rw [hh, Option.bind_some, ho]
            rfl
          refine ⟨c, n, op, pos, o, rfl, ho, hh, ?_⟩
          unfold parseOb
          rw [hh]
          dsimp only
          rw [readPayload_eq]

/-- A command that changes neither. -/
theorem Twin.skip (h : Twin L m r Q) {res : Bytes} (hr : m.apply cmd = some (m, res))
    (hno : ∀ hd p, parseOb cmd = some (hd, p) → m.cachedResult hd.clientId hd.seqNo ≠ none) :
    Twin (L ++ [cmd]) m r Q :=
  ⟨h.reached.skip hr hno, h.bug, h.book, h.next, h.sessions, h.ok,
    h.arrival.trans (acceptedPlacements_mono (List.prefix_append _ _))⟩

/-- A command that both execute. -/
theorem Twin.execute (h : Twin L m r Q) (hlt : acceptedPlacements (L ++ [cmd]) < 2 ^ 64)
    {c n op pos : ℕ} {o : ObOp} {p : ObPayload} (hid : readIdentity cmd = some (c, n, op, pos))
    (ho : ObOp.ofByte op = some o) (hp : parseOb cmd = some (⟨c, n, o⟩, p))
    (hc : m.cachedResult c n = none) (hpay : readPayloadAt o cmd pos = some p) :
    ∃ m' r' Q' res, m.apply cmd = some (m', res) ∧ r.apply cmd = some (r', res) ∧
      Twin (L ++ [cmd]) m' r' Q' := by
  have hcount := acceptedPlacements_snoc h.reached.after hp hc
  have hmono := acceptedPlacements_mono (List.prefix_append L [cmd])
  obtain ⟨hidx, -⟩ := h.reached.indexed (by have := acceptedNews_le L; omega)
  have hpos : ∀ x ∈ r.book, 0 < x.qty := fun x hx =>
    h.reached.sound.qty x.quote (h.book ▸ List.mem_map_of_mem hx)
  obtain ⟨m', M, res, hm, hdoes, hnext, hlast, hreached⟩ := h.reached.execute hp hc
  obtain ⟨r₁, res', hr, hdoes', hbug, hnext', hsess, harr, hok⟩ := applyOp_steps h.ok h.bug hpos ho hpay
  -- both have done the only thing that price-time priority allows
  rw [known_eq h.reached.shows hidx] at hdoes
  rw [h.book, h.next] at hdoes'
  obtain ⟨hM, rfl⟩ := hdoes.unique hidx.nodup hdoes'
  have hrun : r.apply cmd = some (if c ≠ 0 then
      { r₁ with sessions := r₁.sessions.insert c (n, res) } else r₁, res) := by
    unfold ReferenceMatcher.apply
    rw [hid]
    dsimp only
    rw [h.cachedResult_eq, hc, hr]
  have hwrap : r.arrival + stampsOf p < 2 ^ 64 := by have := h.arrival; omega
  have hok₁ := hok hwrap
  have harr₁ : r₁.arrival ≤ acceptedPlacements (L ++ [cmd]) := by have := h.arrival; omega
  have hnext₁ : r₁.nextId = m'.nextOrderId := by rw [hnext', hnext, h.next]
  by_cases h0 : c = 0
  · rw [if_neg (not_not.mpr h0)] at hrun
    rw [if_pos h0] at hlast
    refine ⟨m', r₁, M, res, hm, hrun, hreached, hbug.trans h.bug, hM.symm, hnext₁, fun d => ?_, hok₁,
      harr₁⟩
    rw [hsess, hlast]
    exact h.sessions d
  · rw [if_pos h0] at hrun
    rw [if_neg h0] at hlast
    refine ⟨m', _, M, res, hm, hrun, hreached, hbug.trans h.bug, hM.symm, hnext₁, fun d => ?_,
      ⟨hok₁.stamped, hok₁.below⟩, harr₁⟩
    dsimp only
    rw [hsess, hlast, getElem?_insert_nat]
    by_cases hd : d = c
    · rw [if_pos hd.symm, hd, Function.update_self]
    · rw [if_neg (Ne.symm hd), Function.update_of_ne hd]
      exact h.sessions d

/-- **One command.** -/
theorem Twin.snoc (h : Twin L m r Q) (hlt : acceptedPlacements (L ++ [cmd]) < 2 ^ 64) :
    ∃ m' r' Q' res, m.apply cmd = some (m', res) ∧ r.apply cmd = some (r', res) ∧
      Twin (L ++ [cmd]) m' r' Q' := by
  rcases reads cmd with ⟨hid, hh⟩ | ⟨c, n, op, pos, o, hid, ho, hh, hp⟩
  · -- no identity
    have hm : m.apply cmd = some (m, [kObMalformed]) := by
      unfold OrderBookStateMachine.apply
      rw [hh]
    have hr : r.apply cmd = some (r, [kObMalformed]) := by
      unfold ReferenceMatcher.apply
      rw [hid]
      rfl
    have hpo : parseOb cmd = none := by
      unfold parseOb
      rw [hh]
    exact ⟨m, r, Q, _, hm, hr, h.skip hm fun hd p he => by rw [hpo] at he; cases he⟩
  cases hc : m.cachedResult c n with
  | some res =>
      -- a duplicate
      have hm := apply_cached hh hc
      have hr : r.apply cmd = some (r, res) := by
        unfold ReferenceMatcher.apply
        rw [hid]
        dsimp only
        rw [h.cachedResult_eq, hc]
      refine ⟨m, r, Q, res, hm, hr, h.skip hm fun hd p he => ?_⟩
      rw [hp] at he
      obtain ⟨p', -, he⟩ := Option.map_eq_some_iff.mp he
      cases he
      rw [hc]
      exact Option.some_ne_none res
  | none =>
      cases hpay : readPayloadAt o cmd pos with
      | none =>
          -- a payload that neither can read
          rw [hpay] at hp
          have hm : m.apply cmd = some (m, [kObMalformed]) := by
            unfold OrderBookStateMachine.apply
            rw [hh]
            dsimp only
            rw [hc, readPayload_eq, hpay]
          have hr : r.apply cmd = some (r, [kObMalformed]) := by
            unfold ReferenceMatcher.apply
            rw [hid]
            dsimp only
            rw [h.cachedResult_eq, hc, applyOp_malformed ho hpay]
            rfl
          exact ⟨m, r, Q, _, hm, hr, h.skip hm fun hd p he => by rw [hp] at he; cases he⟩
      | some p =>
          rw [hpay] at hp
          exact h.execute hlt hid ho hp hc hpay

end Step

theorem refAfter_snoc {L : List Bytes} {r r' : ReferenceMatcher} {cmd result : Bytes}
    (h : ReferenceMatcher.after .none L = some r) (hr : r.apply cmd = some (r', result)) :
    ReferenceMatcher.after .none (L ++ [cmd]) = some r' := by
  unfold ReferenceMatcher.after at h ⊢
  rw [List.foldlM_append, h]
  simp [hr]

theorem exists_twin (L : List Bytes) (hL : acceptedPlacements L < 2 ^ 64) :
    ∃ m r Q, ReferenceMatcher.after .none L = some r ∧ Twin L m r Q := by
  induction L using List.reverseRecOn with
  | nil => exact ⟨{}, {}, [], rfl, twin_nil⟩
  | append_singleton L cmd ih =>
      obtain ⟨m, r, Q, hr, h⟩ :=
        ih (Nat.lt_of_le_of_lt (acceptedPlacements_mono (List.prefix_append _ _)) hL)
      obtain ⟨m', r', Q', res, -, hap, h'⟩ := h.snoc hL
      exact ⟨m', r', Q', refAfter_snoc hr hap, h'⟩

/-- **Golden-model equivalence**: as long as fewer than `2 ^ 64` NEWs and AMENDs count, engine and
    reference give the same result for every command, byte by byte, and print the same book after
    it. -/
theorem golden_equivalence (L : List Bytes) (hL : acceptedPlacements L < 2 ^ 64) :
    ∀ P cmd, P ++ [cmd] <+: L → ∃ m r m' r' result,
      OrderBookStateMachine.after P = some m ∧ ReferenceMatcher.after .none P = some r ∧
      m.apply cmd = some (m', result) ∧ r.apply cmd = some (r', result) ∧
      m'.bookImage = r'.bookImage := by
  intro P cmd hP
  have hlt := Nat.lt_of_le_of_lt (acceptedPlacements_mono hP) hL
  obtain ⟨m, r, Q, hr, h⟩ := exists_twin P
    (Nat.lt_of_le_of_lt (acceptedPlacements_mono (List.prefix_append _ _)) hlt)
  obtain ⟨m', r', Q', result, hm, hap, h'⟩ := h.snoc hlt
  exact ⟨m, r, m', r', result, h.reached.after, hr, hm, hap,
    bookImage_eq h'.reached.shows h'.book h'.ok⟩

/-- Two resting bids, one amended behind the other, and an ask that takes both. -/
def crossing : List Bytes :=
  [encodeObNew 7 1 .bid 3 2, encodeObNew 8 1 .bid 3 2, encodeObAmend 7 2 1 3 4, encodeObNew 0 0 .ask 2 5]

theorem golden_equivalence_crossing : acceptedPlacements crossing = 4 ∧ ∃ m r m' r' result,
    OrderBookStateMachine.after (crossing.take 3) = some m ∧
    ReferenceMatcher.after .none (crossing.take 3) = some r ∧
    m.apply (encodeObNew 0 0 .ask 2 5) = some (m', result) ∧
    r.apply (encodeObNew 0 0 .ask 2 5) = some (r', result) ∧ m'.bookImage = r'.bookImage := by
  have hn : acceptedPlacements crossing = 4 := by decide +kernel
  exact ⟨hn, golden_equivalence crossing (by rw [hn]; decide) (crossing.take 3) _ List.prefix_rfl⟩

/-! ## 3. The stamps at their end -/

/-- The first order moves to another price, behind all others. -/
def moveFirst (price : ℕ) : Bytes := encodeObAmend 0 0 1 price 1

/-- Two bids at one price, and the first of them leaves the price and comes back, again and again. -/
def wandering (k : ℕ) : List Bytes :=
  [loneBid, loneBid, moveFirst 2, moveFirst 1] ++ (List.replicate k [moveFirst 2, moveFirst 1]).flatten

theorem wandering_succ (k : ℕ) :
    wandering (k + 1) = wandering k ++ [moveFirst 2] ++ [moveFirst 1] := by
  unfold wandering
  rw [List.replicate_succ', List.flatten_append]
  simp

theorem reads_moveFirst {p : ℕ} (hp : p = 1 ∨ p = 2) :
    readIdentity (moveFirst p) = some (0, 0, 3, 17) ∧ readAmend (moveFirst p) 17 = some (1, p, 1) ∧
      parseOb (moveFirst p) = some (⟨0, 0, .amend⟩, .amend 1 p 1) := by
  rcases hp with rfl | rfl <;> decide +kernel

/-- The book of the two bids, the first one behind the second. -/
def wanderers (price : ℕ) : List Quote := [⟨2, .bid, 1, 1⟩, ⟨1, .bid, price, 1⟩]

theorem reached_move {L : List Bytes} {m : OrderBookStateMachine} {x p : ℕ}
    (h : Reached L m (wanderers x)) (hn : acceptedNews L = 2) (hp : p = 1 ∨ p = 2) (hne : p ≠ x) :
    ∃ m', Reached (L ++ [moveFirst p]) m' (wanderers p) ∧ acceptedNews (L ++ [moveFirst p]) = 2 := by
  obtain ⟨-, -, hparse⟩ := reads_moveFirst hp
  obtain ⟨m', M, r, -, hdoes, -, -, h'⟩ := h.execute hparse rfl
  obtain ⟨hidx, -⟩ := h.indexed (by rw [hn]; decide)
  have hmove : Does (· ∈ m.index) m.nextOrderId (wanderers x) (.amend 1 p 1) (wanderers p)
      (okResult 1 1 []) := by
    refine .amendMove (A := [⟨2, .bid, 1, 1⟩]) (e := ⟨1, .bid, x, 1⟩) (B := []) ?_ rfl
      (fun hh => hne hh.1) ⟨[⟨2, .bid, 1, 1⟩], .away Nat.one_pos fun y hy hys => ?_, rfl⟩
    · exact mem_index_iff.mpr ⟨_, hidx.index ⟨1, .bid, x, 1⟩ (by simp [wanderers])⟩
    · rw [List.append_nil, List.mem_singleton] at hy
      rw [hy] at hys
      cases hys
  obtain ⟨rfl, -⟩ := hdoes.unique hidx.nodup hmove
  refine ⟨m', h', ?_⟩
  have hacc := acceptedNews_snoc_of hparse ((accepts_iff_new h.after hparse).mpr rfl)
  rw [hacc, hn]
  rfl

/-- The reference with the two bids and their stamps. -/
structure Wanders (r : ReferenceMatcher) (price stamp next : ℕ) : Prop where
  book : r.book = [⟨2, 0, 1, 1, 1⟩, ⟨1, 0, price, 1, stamp⟩]
  arrival : r.arrival = next
  nextId : r.nextId = 3
  bug : r.bug = .none

theorem scan_same_side {bug : Bug} {side price : ℕ} : ∀ {book : List Order} {i : ℕ}
    {best : Option (ℕ × Order)}, (∀ o ∈ book, o.side = side) →
      scan bug side price i best book = best := by
  intro book
  induction book with
  | nil => exact fun _ => rfl
  | cons o book ih =>
      intro i best h
      unfold scan
      rw [if_pos (h o List.mem_cons_self)]
      exact ih fun x hx => h x (List.mem_cons_of_mem _ hx)

/-- An order that meets only its own side rests. -/
theorem execute_rests {r : ReferenceMatcher} (id side price : ℕ) (h : ∀ o ∈ r.book, o.side = side) :
    ∃ result, r.execute id side price 1 = some ({ r with
      book := r.book ++ [⟨id, side, price, 1, r.arrival⟩]
      arrival := (r.arrival + 1) % 2 ^ 64 }, result) := by
  have hloop : fillLoop r.bug side price 2 { book := r.book, qty := 1 } =
      some { book := r.book, qty := 1 } := by
    unfold fillLoop
    dsimp only
    rw [if_neg Nat.one_ne_zero, scan_same_side h]
  unfold ReferenceMatcher.execute
  rw [hloop]
  exact ⟨_, rfl⟩

/-- A command outside all sessions. -/
theorem apply_anonymous {r r' : ReferenceMatcher} {cmd result : Bytes} {n op pos : ℕ}
    (hid : readIdentity cmd = some (0, n, op, pos))
    (h : r.applyOp op cmd pos = some (some (r', result))) : r.apply cmd = some (r', result) := by
  unfold ReferenceMatcher.apply
  rw [hid]
  dsimp only
  rw [h]
  rfl

theorem Wanders.move {r : ReferenceMatcher} {x p stamp next : ℕ} (h : Wanders r x stamp next)
    (hp : p = 1 ∨ p = 2) (hne : p ≠ x) : ∃ r' result, r.apply (moveFirst p) = some (r', result) ∧
      Wanders r' p next ((next + 1) % 2 ^ 64) := by
  obtain ⟨hid, hread, -⟩ := reads_moveFirst hp
  have hfind : find 1 0 r.book = some (1, ⟨1, 0, x, 1, stamp⟩) := by rw [h.book]; rfl
  have herase : r.book.eraseIdx 1 = [⟨2, 0, 1, 1, 1⟩] := by rw [h.book]; rfl
  obtain ⟨result, hex⟩ := execute_rests (r := { r with book := [⟨2, 0, 1, 1, 1⟩] }) 1 0 p
    (by simp)
  have hop : r.applyOp 3 (moveFirst p) 17 = some (some ({ r with
      book := [⟨2, 0, 1, 1, 1⟩] ++ [⟨1, 0, p, 1, r.arrival⟩]
      arrival := (r.arrival + 1) % 2 ^ 64 }, result)) := by
    unfold ReferenceMatcher.applyOp
    rw [if_neg (by decide), if_neg (by decide), hread]
    dsimp only
    rw [hfind]
    dsimp only
    rw [if_neg fun hh => hne hh.1, herase, hex]
    rfl
  exact ⟨_, result, apply_anonymous hid hop, by rw [h.arrival]; rfl, by rw [h.arrival], h.nextId, h.bug⟩

theorem Wanders.bid {r : ReferenceMatcher} {x stamp next : ℕ} (h : Wanders r x stamp next) :
    ∃ r' result, r.apply loneBid = some (r', result) ∧
      r'.book = [⟨2, 0, 1, 1, 1⟩, ⟨1, 0, x, 1, stamp⟩, ⟨3, 0, 1, 1, next⟩] := by
  have hid : readIdentity loneBid = some (0, 0, 1, 17) := by decide +kernel
  have hread : readNew loneBid 17 = some (0, 1, 1) := by decide +kernel
  obtain ⟨result, hex⟩ := execute_rests (r := { r with nextId := (r.nextId + 1) % 2 ^ 64 })
    r.nextId 0 1 (by simp [h.book])
  have hop : r.applyOp 1 loneBid 17 = some (some ({ r with
      nextId := (r.nextId + 1) % 2 ^ 64
      book := r.book ++ [⟨r.nextId, 0, 1, 1, r.arrival⟩]
      arrival := (r.arrival + 1) % 2 ^ 64 }, result)) := by
    unfold ReferenceMatcher.applyOp
    rw [if_pos rfl, hread]
    dsimp only
    rw [hex]
    rfl
  exact ⟨_, result, apply_anonymous hid hop, by rw [h.book, h.nextId, h.arrival]; rfl⟩

/-- Engine and reference after the walk. -/
theorem wandering_reached (k : ℕ) : ∃ m r, Reached (wandering k) m (wanderers 1) ∧
    acceptedNews (wandering k) = 2 ∧ ReferenceMatcher.after .none (wandering k) = some r ∧
      Wanders r 1 ((2 * k + 3) % 2 ^ 64) ((2 * k + 4) % 2 ^ 64) := by
  induction k with
  | zero =>
      obtain ⟨m, r, Q, hr, h⟩ := exists_twin (wandering 0) (by
        have : acceptedPlacements (wandering 0) = 4 := by decide +kernel
        rw [this]
        decide)
      have hbook : (ReferenceMatcher.after .none (wandering 0)).map (fun r =>
          (r.book, r.arrival, r.nextId)) =
            some ([⟨2, 0, 1, 1, 1⟩, ⟨1, 0, 1, 1, 3⟩], 4, 3) := by decide +kernel
      rw [hr] at hbook
      simp only [Option.map_some, Option.some.injEq, Prod.mk.injEq] at hbook
      obtain ⟨hbook, harr, hnext⟩ := hbook
      have hQ : Q = wanderers 1 := by
        rw [← h.book, hbook]
        rfl
      subst hQ
      exact ⟨m, r, h.reached, by decide +kernel, hr, hbook, harr, hnext, h.bug⟩
  | succ k ih =>
      obtain ⟨m, r, h, hn, hr, hw⟩ := ih
      obtain ⟨m₁, h₁, hn₁⟩ := reached_move h hn (p := 2) (.inr rfl) (by decide)
      obtain ⟨m₂, h₂, hn₂⟩ := reached_move h₁ hn₁ (p := 1) (.inl rfl) (by decide)
      obtain ⟨r₁, res₁, hr₁, hw₁⟩ := hw.move (p := 2) (.inr rfl) (by decide)
      obtain ⟨r₂, res₂, hr₂, hw₂⟩ := hw₁.move (p := 1) (.inl rfl) (by decide)
      rw [wandering_succ]
      refine ⟨m₂, r₂, h₂, hn₂, ?_, ?_⟩
      · exact refAfter_snoc (refAfter_snoc hr hr₁) hr₂
      · have h1 : (2 * (k + 1) + 3) % 2 ^ 64 = ((2 * k + 4) % 2 ^ 64 + 1) % 2 ^ 64 := by omega
        have h2 : (2 * (k + 1) + 4) % 2 ^ 64 = (((2 * k + 4) % 2 ^ 64 + 1) % 2 ^ 64 + 1) % 2 ^ 64 := by
          omega
        rw [h1, h2]
        exact hw₂

/-- **Once the stamps have wrapped, the books differ**: three NEWs are enough, with as many AMENDs
    as it takes. -/
theorem stamps_wrap : acceptedNews (wandering (2 ^ 63 - 2) ++ [loneBid]) = 3 ∧ ∃ m r,
    OrderBookStateMachine.after (wandering (2 ^ 63 - 2) ++ [loneBid]) = some m ∧
    ReferenceMatcher.after .none (wandering (2 ^ 63 - 2) ++ [loneBid]) = some r ∧
    m.bookImage ≠ r.bookImage := by
  obtain ⟨m, r, h, hn, hr, hw⟩ := wandering_reached (2 ^ 63 - 2)
  rw [show (2 * (2 ^ 63 - 2) + 3) % 2 ^ 64 = 2 ^ 64 - 1 by omega,
    show (2 * (2 ^ 63 - 2) + 4) % 2 ^ 64 = 0 by omega] at hw
  obtain ⟨r', res', hr', hbook'⟩ := hw.bid
  obtain ⟨m', M, res, -, hdoes, -, -, h'⟩ := h.execute parseOb_loneBid rfl
  obtain ⟨hidx, -⟩ := h.indexed (by rw [hn]; decide)
  have hid : m.nextOrderId = 3 := h.next.trans (congrArg (fun n => (1 + n) % 2 ^ 64) hn)
  have hnew : Does (· ∈ m.index) m.nextOrderId (wanderers 1) (.new .bid 1 1)
      (wanderers 1 ++ [⟨3, .bid, 1, 1⟩]) (okResult m.nextOrderId 1 []) := by
    refine .new ⟨wanderers 1, .away Nat.one_pos fun y hy hys => ?_, by rw [hid]; rfl⟩
    simp only [wanderers, List.mem_cons, List.not_mem_nil, or_false] at hy
    rcases hy with rfl | rfl <;> cases hys
  obtain ⟨rfl, -⟩ := hdoes.unique hidx.nodup hnew
  refine ⟨?_, m', r', h'.after, refAfter_snoc hr hr', ?_⟩
  · rw [acceptedNews_snoc_of parseOb_loneBid ((accepts_iff_new h.after parseOb_loneBid).mpr rfl), hn]
    rfl
  · -- the text of the engine's book, from a reference whose stamps have not wrapped
    have hm : m'.bookImage = "B 1: (2,1) (1,1) (3,1)\n" := by
      rw [bookImage_eq h'.shows (r := { book := [⟨2, 0, 1, 1, 0⟩, ⟨1, 0, 1, 1, 1⟩, ⟨3, 0, 1, 1, 2⟩]
                                        arrival := 3 }) rfl
        ⟨⟨by decide, by decide⟩, by decide⟩]
      decide +kernel
    have hr : r'.bookImage = ({ book := r'.book } : ReferenceMatcher).bookImage := rfl
    rw [hm, hr, hbook']
    decide +kernel

end Rsm.StateMachine
