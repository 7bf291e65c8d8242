/-
  File:      RaftRsm/StateMachine/Accepting.lean
  Subject:   WHICH SNAPSHOTS the order book accepts (`OrderBookStateMachine::deserialize`), and which of
             them are books that commands can go on from.

  `deserialize` looks at prices, quantities, and that no price and no id comes twice. It does not compare
  the ids with the counter, nor the bids with the asks.

  * `shows_quotes`, `indexed_quotes` -- a state with the invariant of the levels and the index shows a
    book;
  * `FullInvariant`, `FullInvariant.run` -- with ids below the counter and an uncrossed book, every run
    in which the counter does not come round keeps it;
  * `exists_text` -- what is accepted is the writing of a text with the properties that are checked;
  * `accepted_sound_iff` -- it is a sound state, and stays one, exactly if its ids are below its counter
    and its bids below its asks;
  * `accepted_snapshot_reuses_id` -- a snapshot after which a NEW gets the id of a resting order.
-/
import RaftRsm.StateMachine.Grammar

namespace Rsm.StateMachine

open Rsm.Rpc Linear OrderBookStateMachine

/-! ## 1. The book that a state shows -/

/-- The orders of levels. -/
def quotesOf (side : ObSide) (ps : List (ℕ × Level)) : List Quote :=
  ps.flatMap fun p => p.2.map fun o => ⟨o.id, side, p.1, o.qty⟩

def OrderBookStateMachine.quotes (m : OrderBookStateMachine) : List Quote :=
  quotesOf .bid m.bids.toList ++ quotesOf .ask m.asks.toList

section Quotes

variable {m : OrderBookStateMachine} {side s : ObSide} {price : ℕ} {ps : List (ℕ × Level)} {level : Level}

theorem levelOf_quotes_self (side : ObSide) (price : ℕ) (level : Level) :
    levelOf (level.map fun o => ⟨o.id, side, price, o.qty⟩) side price = level := by
  induction level with
  | nil => rfl
  | cons o level ih =>
      rw [List.map_cons, levelOf_cons, if_pos ⟨rfl, rfl⟩, ih]
      rfl

theorem levelOf_quotesOf_eq_nil (h : s = side → price ∉ ps.map Prod.fst) :
    levelOf (quotesOf side ps) s price = [] := by
  refine levelOf_eq_nil fun x hx => ?_
  rintro ⟨hs, hp⟩
  obtain ⟨p, hps, hx⟩ := List.mem_flatMap.mp hx
  obtain ⟨o, -, rfl⟩ := List.mem_map.mp hx
  exact h hs.symm (List.mem_map.mpr ⟨p, hps, hp⟩)

theorem levelOf_quotesOf (hn : (ps.map Prod.fst).Nodup) (hp : (price, level) ∈ ps) :
    levelOf (quotesOf side ps) side price = level := by
  induction ps with
  | nil => exact (List.not_mem_nil hp).elim
  | cons p ps ih =>
      rw [List.map_cons, List.nodup_cons] at hn
      unfold quotesOf
      rw [List.flatMap_cons, levelOf_append]
      rcases List.mem_cons.mp hp with rfl | hp
      · have hrest : levelOf (quotesOf side ps) side price = [] := levelOf_quotesOf_eq_nil fun _ => hn.1
        unfold quotesOf at hrest
        rw [levelOf_quotes_self, hrest, List.append_nil]
      · have hne : p.1 ≠ price := fun he => hn.1 (he ▸ List.mem_map_of_mem (f := Prod.fst) hp)
        have hfirst : levelOf (p.2.map fun o => (⟨o.id, side, p.1, o.qty⟩ : Quote)) side price = [] := by
          refine levelOf_eq_nil fun x hx => ?_
          obtain ⟨o, -, rfl⟩ := List.mem_map.mp hx
          exact fun h => hne h.2
        rw [hfirst, List.nil_append]
        exact ih hn.2 hp

theorem levelOf_quotesOf_toList (b : Book) (side : ObSide) (price : ℕ) :
    levelOf (quotesOf side b.toList) side price = b[price]?.getD [] := by
  cases hb : b[price]? with
  | none =>
      refine levelOf_quotesOf_eq_nil fun _ hm => ?_
      obtain ⟨p, hp, rfl⟩ := List.mem_map.mp hm
      rw [Std.ExtTreeMap.mem_toList_iff_getElem?_eq_some.mp (show (p.1, p.2) ∈ b.toList from hp)] at hb
      cases hb
  | some level =>
      exact levelOf_quotesOf (nodup_keys b) (Std.ExtTreeMap.mem_toList_iff_getElem?_eq_some.mpr hb)

theorem levelOf_allQuotes (m : OrderBookStateMachine) (side : ObSide) (price : ℕ) :
    levelOf m.quotes side price = (m.book side)[price]?.getD [] := by
  unfold OrderBookStateMachine.quotes
  rw [levelOf_append]
  cases side with
  | bid =>
      rw [levelOf_quotesOf_toList, levelOf_quotesOf_eq_nil (fun h => by cases h), List.append_nil]
      rfl
  | ask =>
      rw [levelOf_quotesOf_eq_nil (fun h => by cases h), levelOf_quotesOf_toList, List.nil_append]
      rfl

theorem exists_level {e : Quote} (he : e ∈ m.quotes) :
    ∃ level, (m.book e.side)[e.price]? = some level ∧ e.resting ∈ level := by
  have ho := mem_levelOf.mpr ⟨e, he, rfl, rfl, rfl⟩
  rw [levelOf_allQuotes] at ho
  cases hl : (m.book e.side)[e.price]? with
  | none =>
      rw [hl] at ho
      exact (List.not_mem_nil ho).elim
  | some level =>
      rw [hl] at ho
      exact ⟨level, rfl, ho⟩

theorem hasOrder_iff_quotes {id : ℕ} : HasOrder m side price id ↔
    ∃ e ∈ m.quotes, e.id = id ∧ e.side = side ∧ e.price = price := by
  constructor
  · rintro ⟨level, hl, hid⟩
    obtain ⟨o, ho, rfl⟩ := List.mem_map.mp hid
    have hm : o ∈ levelOf m.quotes side price := by
      rw [levelOf_allQuotes, hl]
      exact ho
    obtain ⟨e, he, hs, hp, rfl⟩ := mem_levelOf.mp hm
    exact ⟨e, he, rfl, hs, hp⟩
  · rintro ⟨e, he, rfl, rfl, rfl⟩
    obtain ⟨level, hl, ho⟩ := exists_level he
    exact ⟨level, hl, List.mem_map.mpr ⟨e.resting, ho, rfl⟩⟩

/-- **A state whose levels and index agree shows a book.** -/
theorem shows_quotes (h : BookInvariant m) : Shows m m.quotes := by
  refine ⟨fun side price => ?_, fun id side price hi => ?_⟩
  · rw [levelOf_allQuotes]
    cases hl : (m.book side)[price]? with
    | none => rfl
    | some level => exact (present_eq_some.mpr ⟨rfl, (h.level side price level hl).1⟩).symm
  · exact hasOrder_iff_quotes.mp ((h.index id side price).mp hi)

theorem indexed_quotes (h : BookInvariant m) : Indexed m m.quotes := by
  have hlines : m.quotes.map (fun e => (e.id, e.side, e.price)) = m.lines := by
    unfold OrderBookStateMachine.quotes lines quotesOf entries entry
    simp only [List.map_append, List.map_flatMap, List.map_map, Function.comp_def]
  refine ⟨?_, fun e he => (h.index _ _ _).mpr (hasOrder_iff_quotes.mpr ⟨e, he, rfl, rfl, rfl⟩)⟩
  have hnodup := nodup_lines h
  rw [← hlines, List.map_map] at hnodup
  exact hnodup

end Quotes

/-! ## 2. What every run keeps -/

/-- **The invariant of the books that can be reached**: levels and index agree, the counter is above
    every id, and the best bid is below the best ask. -/
structure FullInvariant (m : OrderBookStateMachine) : Prop extends BookInvariant m where
  below : ∀ side price id, HasOrder m side price id → id < m.nextOrderId
  uncrossed : ∀ bid ask, m.bids.maxKey? = some bid → m.asks.minKey? = some ask → bid < ask

/-- The command is a NEW, and no duplicate. -/
def executesNew (m : OrderBookStateMachine) (cmd : Bytes) : Bool :=
  match parseOb cmd with
  | none => false
  | some (h, p) => p.isNew && (m.cachedResult h.clientId h.seqNo).isNone

/-- How many NEWs of a sequence are executed, from a state on. -/
def executedNews : OrderBookStateMachine → List Bytes → ℕ
  | _, [] => 0
  | m, cmd :: L => (if executesNew m cmd then 1 else 0) +
      match m.apply cmd with
      | none => 0
      | some (m', _) => executedNews m' L

-- the equations of `executedNews` are stated here: those Lean derives look into `apply`
theorem le_executedNews (m : OrderBookStateMachine) (cmd : Bytes) (L : List Bytes) :
    (if executesNew m cmd then 1 else 0) ≤ executedNews m (cmd :: L) := by
  show _ ≤ (if executesNew m cmd then 1 else 0) + (match m.apply cmd with
    | none => 0
    | some (m', _) => executedNews m' L)
  exact Nat.le_add_right _ _

theorem executedNews_cons {m m' : OrderBookStateMachine} {cmd r : Bytes} (h : m.apply cmd = some (m', r))
    (L : List Bytes) : executedNews m (cmd :: L) = (if executesNew m cmd then 1 else 0) + executedNews m' L := by
  show (if executesNew m cmd then 1 else 0) + (match m.apply cmd with
    | none => 0
    | some (m', _) => executedNews m' L) = _
  rw [h]

/-- **A run keeps the invariant in every state it comes through**, and a NEW in such a state gets an id
    that no order of the book has. -/
def Keeps (m : OrderBookStateMachine) (L : List Bytes) : Prop :=
  ∀ A B, L = A ++ B → ∃ m₁ rs, obMachine.run m A = some (m₁, rs) ∧ FullInvariant m₁ ∧
    ∀ cmd, executesNew m₁ cmd = true → (∃ m₂ qty fills,
      m₁.apply cmd = some (m₂, okResult m₁.nextOrderId qty fills)) ∧
      ∀ side price, ¬ HasOrder m₁ side price m₁.nextOrderId

section Keeping

variable {m : OrderBookStateMachine} {Q : List Quote} {cmd : Bytes}

theorem best_lt_iff {bids asks : Book} :
    (∀ bid ask, bids.maxKey? = some bid → asks.minKey? = some ask → bid < ask) ↔
      ∀ bid ∈ bids, ∀ ask ∈ asks, bid < ask := by
  constructor
  · intro h bid hb ask ha
    obtain ⟨top, ht⟩ := Option.isSome_iff_exists.mp (Std.ExtTreeMap.isSome_maxKey?_of_mem hb)
    obtain ⟨low, hl⟩ := Option.isSome_iff_exists.mp (Std.ExtTreeMap.isSome_minKey?_of_mem ha)
    have hle := (Std.ExtTreeMap.maxKey?_eq_some_iff_mem_and_forall.mp ht).2 bid hb
    have hge := (Std.ExtTreeMap.minKey?_eq_some_iff_mem_and_forall.mp hl).2 ask ha
    have hlt := h top low ht hl
    rw [Nat.isLE_compare] at hle hge
    omega
  · intro h bid ask hb ha
    exact h bid (Std.ExtTreeMap.maxKey?_mem hb) ask (Std.ExtTreeMap.minKey?_mem ha)

/-- The book of such a state is sound. -/
theorem FullInvariant.sound (h : FullInvariant m) : Sound m.quotes := by
  have hlt := best_lt_iff.mp h.uncrossed
  have hmem : ∀ e ∈ m.quotes, e.price ∈ m.book e.side := fun e he =>
    (shows_quotes h.toBookInvariant).mem_book he
  refine ⟨fun e he => ?_, fun e he => ?_, fun x hx y hy hop => ?_⟩
  · obtain ⟨level, hl, -⟩ := exists_level he
    exact (h.level _ _ _ hl).2.1
  · obtain ⟨level, hl, ho⟩ := exists_level he
    exact (h.level _ _ _ hl).2.2.1 _ ho
  · have hxb := hmem x hx
    have hyb := hmem y hy
    rw [hop] at hyb
    cases hs : x.side with
    | bid =>
        rw [hs] at hxb hyb
        have := hlt _ hxb _ hyb
        simpa [rank] using this
    | ask =>
        rw [hs] at hxb hyb
        have := hlt _ hyb _ hxb
        simpa [rank] using this

theorem fullInvariant_of (hS : Shows m Q) (hQ : Sound Q) (hi : Indexed m Q)
    (hid : ∀ e ∈ Q, e.id < m.nextOrderId) : FullInvariant m := by
  refine ⟨bookInvariant_of hS hQ hi, fun side price id ho => ?_, fun b a hb ha => hS.uncrossed hQ hb ha⟩
  obtain ⟨e, he, rfl, -⟩ := hS.hasOrder_iff.mp ho
  exact hid e he

theorem executesNew_iff : executesNew m cmd = true ↔
    ∃ h p, parseOb cmd = some (h, p) ∧ p.isNew = true ∧ m.cachedResult h.clientId h.seqNo = none := by
  unfold executesNew
  cases parseOb cmd with
  | none => simp
  | some x =>
      obtain ⟨h, p⟩ := x
      simp

/-- A NEW is answered with the counter, which no order of the book has. -/
theorem FullInvariant.gives (h : FullInvariant m) (hc : executesNew m cmd = true) :
    (∃ m₂ qty fills, m.apply cmd = some (m₂, okResult m.nextOrderId qty fills)) ∧
      ∀ side price, ¬ HasOrder m side price m.nextOrderId := by
  obtain ⟨hd, p, hp, hnew, hc⟩ := executesNew_iff.mp hc
  obtain ⟨m', M, r, hr, hdoes, -⟩ := executes (shows_quotes h.toBookInvariant) h.sound hp hc
  refine ⟨?_, fun side price ho => Nat.lt_irrefl _ (h.below side price _ ho)⟩
  cases hdoes with
  | new => exact ⟨m', _, _, hr⟩
  | _ => cases hnew

/-- **One command keeps the invariant**, if it does not bring the counter round. -/
theorem FullInvariant.step (h : FullInvariant m) (cmd : Bytes)
    (hroom : executesNew m cmd = true → m.nextOrderId + 1 < 2 ^ 64) :
    ∃ m' r, m.apply cmd = some (m', r) ∧ FullInvariant m' ∧
      m'.nextOrderId = m.nextOrderId + if executesNew m cmd then 1 else 0 := by
  rcases apply_cases m cmd with ⟨r, hr, hno⟩ | ⟨hd, p, hp, hc⟩
  · have hnot : ¬ executesNew m cmd = true := by
      intro hx
      obtain ⟨hd, p, hp, -, hc⟩ := executesNew_iff.mp hx
      exact hno hd p hp hc
    exact ⟨m, r, hr, h, by rw [if_neg hnot, Nat.add_zero]⟩
  · have hS := shows_quotes h.toBookInvariant
    have hI := indexed_quotes h.toBookInvariant
    have hids : ∀ e ∈ m.quotes, e.id < m.nextOrderId := fun e he =>
      h.below _ _ _ (hasOrder_iff_quotes.mpr ⟨e, he, rfl, rfl, rfl⟩)
    obtain ⟨m', M, r, hr, hdoes, hS', hM, hn, -, hi⟩ := executes hS h.sound hp hc
    have hx : executesNew m cmd = p.isNew := by
      rw [Bool.eq_iff_iff, executesNew_iff]
      constructor
      · rintro ⟨hd', p', hp', hnew, -⟩
        cases hp.symm.trans hp'
        exact hnew
      · exact fun hnew => ⟨hd, p, hp, hnew, hc⟩
    rw [hx] at hroom ⊢
    have hnext : m'.nextOrderId = m.nextOrderId + if p.isNew then 1 else 0 := by
      rw [hn]
      cases p with
      | new => exact Nat.mod_eq_of_lt (hroom rfl)
      | cancel => rfl
      | amend => rfl
    refine ⟨m', r, hr, fullInvariant_of hS' hM (hi hI fun _ hm => ?_) fun x hx => ?_, hnext⟩
    · obtain ⟨e, he, hid⟩ := List.mem_map.mp hm
      exact Nat.lt_irrefl _ (hid ▸ hids e he)
    · rcases hdoes.ids x hx with hid | ⟨hnew, hid⟩
      · obtain ⟨e, he, hid⟩ := List.mem_map.mp hid
        have := hids e he
        omega
      · rw [hnext, hid, if_pos hnew]
        exact Nat.lt_succ_self _

/-- **A run keeps the invariant**, if it does not bring the counter round. -/
theorem FullInvariant.run : ∀ (A B : List Bytes) {m : OrderBookStateMachine}, FullInvariant m →
    m.nextOrderId + executedNews m (A ++ B) < 2 ^ 64 →
      ∃ m₁ rs, obMachine.run m A = some (m₁, rs) ∧ FullInvariant m₁
  | [], _, m, h, _ => ⟨m, [], rfl, h⟩
  | cmd :: A, B, m, h, hroom => by
      rw [List.cons_append] at hroom
      obtain ⟨m', r, hr, h', hn⟩ := h.step cmd fun hx => by
        have hle := le_executedNews m cmd (A ++ B)
        rw [if_pos hx] at hle
        omega
      rw [executedNews_cons hr] at hroom
      obtain ⟨m₁, rs, hrun, h₁⟩ := FullInvariant.run A B h' (by rw [hn]; omega)
      refine ⟨m₁, r :: rs, ?_, h₁⟩
      show (m.apply cmd).bind _ = _
      rw [hr]
      show (obMachine.run m' A).map _ = _
      rw [hrun]
      rfl

/-- **A state is kept exactly if it has the invariant.** -/
theorem keeps_iff {L : List Bytes} (hroom : m.nextOrderId + executedNews m L < 2 ^ 64) :
    Keeps m L ↔ FullInvariant m := by
  constructor
  · intro h
    obtain ⟨m₁, rs, hrun, h₁, -⟩ := h [] L rfl
    cases hrun
    exact h₁
  · rintro h A B rfl
    obtain ⟨m₁, rs, hrun, h₁⟩ := FullInvariant.run A B h hroom
    exact ⟨m₁, rs, hrun, h₁, fun cmd hc => h₁.gives hc⟩

end Keeping

/-! ## 3. What is accepted -/

/-- **A counted loop fails, or it has read as many things as were written**: `Inv` says what is known of
    the things read so far, and `st` is the state that they leave. -/
theorem readTimes_cases {σ α : Type} {body : Reader → σ → Option (Reader × σ)} {enc : α → Bytes}
    {st : List α → σ} {Inv : List α → Prop}
    (h : ∀ A b, Inv A → body ⟨b, true⟩ (st A) = none ∨ ∃ x rest, b = enc x ++ rest ∧ Inv (A ++ [x]) ∧
      body ⟨b, true⟩ (st A) = some (⟨rest, true⟩, st (A ++ [x]))) : ∀ (n : ℕ) (A : List α) (b : Bytes), Inv A →
    readTimes (fun _ => true) body n ⟨b, true⟩ (st A) = none ∨
      ∃ xs rest, xs.length = n ∧ b = xs.flatMap enc ++ rest ∧ Inv (A ++ xs) ∧
        readTimes (fun _ => true) body n ⟨b, true⟩ (st A) = some (⟨rest, true⟩, st (A ++ xs))
  | 0, A, b, hA => .inr ⟨[], b, rfl, rfl, by rwa [List.append_nil], by rw [List.append_nil]; rfl⟩
  | n + 1, A, b, hA => by
      unfold readTimes
      rw [if_neg (by decide)]
      rcases h A b hA with hnone | ⟨x, rest, rfl, hAx, hsome⟩
      · rw [hnone]
        exact .inl rfl
      · rw [hsome]
        rcases readTimes_cases h n (A ++ [x]) rest hAx with hnone | ⟨xs, rest, rfl, rfl, hxs, hsome⟩
        · exact .inl hnone
        · rw [List.append_assoc] at hxs hsome
          refine .inr ⟨x :: xs, rest, rfl, ?_, hxs, hsome⟩
          rw [List.flatMap_cons, List.append_assoc]

theorem mem_foldl_insert {V : Type} {l : List (ℕ × V)} {k : ℕ} (h : k ∈ l.map Prod.fst) :
    k ∈ l.foldl (fun t p => t.insert p.1 p.2) (∅ : Std.ExtTreeMap ℕ V) := by
  rw [foldl_insert_eq_insertMany, Std.ExtTreeMap.mem_insertMany_list]
  exact .inr (List.contains_iff_mem.mpr h)

section Cases

variable (side : ObSide) (price : ℕ) {E : List (ℕ × ObSide × ℕ)}

theorem readOrder_cases (level : Level) (b : Bytes) (ix : Index) :
    readOrder side price ⟨b, true⟩ (level, ix) = none ∨ ∃ o rest, o.id < 2 ^ 64 ∧ 0 < o.qty ∧
      o.qty < 2 ^ 64 ∧ o.id ∉ ix ∧ b = putOrder o ++ rest := by
  unfold readOrder
  dsimp only
  rcases u64_cases b with h1 | ⟨id, b1, hid, rfl⟩
  · rw [h1]
    exact .inl rfl
  rw [u64_putU64 hid]
  rcases u64_cases b1 with h2 | ⟨qty, rest, hq, rfl⟩
  · rw [h2]
    exact .inl rfl
  rw [u64_putU64 hq]
  dsimp only
  by_cases hguard : qty = 0 ∨ id ∈ ix
  · exact .inl (if_pos (by simpa using hguard))
  · rw [not_or] at hguard
    refine .inr ⟨⟨id, qty⟩, rest, hid, Nat.pos_of_ne_zero hguard.1, hq, hguard.2, ?_⟩
    unfold putOrder
    rw [List.append_assoc]

/-- The orders of a level. -/
theorem readOrders_cases (n : ℕ) (b : Bytes) (hE : (E.map Prod.fst).Nodup) :
    readTimes (fun _ => true) (readOrder side price) n ⟨b, true⟩ ([], built E) = none ∨
      ∃ (level : Level) (rest : Bytes), level.length = n ∧ b = level.flatMap putOrder ++ rest ∧
        (∀ o ∈ level, o.id < 2 ^ 64 ∧ 0 < o.qty ∧ o.qty < 2 ^ 64) ∧
        ((E ++ level.map (entry side price)).map Prod.fst).Nodup ∧
        readTimes (fun _ => true) (readOrder side price) n ⟨b, true⟩ ([], built E) =
          some (⟨rest, true⟩, level, built (E ++ level.map (entry side price))) := by
  have hone : ∀ (A : Level) (b : Bytes), (∀ o ∈ A, o.id < 2 ^ 64 ∧ 0 < o.qty ∧ o.qty < 2 ^ 64) ∧
      ((E ++ A.map (entry side price)).map Prod.fst).Nodup →
      readOrder side price ⟨b, true⟩ (A, built (E ++ A.map (entry side price))) = none ∨
      ∃ x rest, b = putOrder x ++ rest ∧
        ((∀ o ∈ A ++ [x], o.id < 2 ^ 64 ∧ 0 < o.qty ∧ o.qty < 2 ^ 64) ∧
          ((E ++ (A ++ [x]).map (entry side price)).map Prod.fst).Nodup) ∧
        readOrder side price ⟨b, true⟩ (A, built (E ++ A.map (entry side price))) =
          some (⟨rest, true⟩, A ++ [x], built (E ++ (A ++ [x]).map (entry side price))) := by
    rintro A b ⟨hA, hn⟩
    rcases readOrder_cases side price A b (built (E ++ A.map (entry side price))) with
      hnone | ⟨o, rest, hid, hpos, hq, hnew, rfl⟩
    · exact .inl hnone
    have hnew : o.id ∉ (E ++ A.map (entry side price)).map Prod.fst := fun hm => hnew (mem_foldl_insert hm)
    refine .inr ⟨o, rest, rfl, ⟨fun x hx => ?_, ?_⟩, ?_⟩
    · rcases List.mem_append.mp hx with hx | hx
      · exact hA x hx
      · obtain rfl := List.mem_singleton.mp hx
        exact ⟨hid, hpos, hq⟩
    · rw [List.map_append (f := entry side price), ← List.append_assoc, List.map_append]
      exact hn.append (List.nodup_singleton _) (List.disjoint_singleton.mpr hnew)
    · rw [readOrder_putOrder hid hpos hq hnew, List.map_append (f := entry side price), ← List.append_assoc]
      rfl
  have hstart : ((E ++ ([] : Level).map (entry side price)).map Prod.fst).Nodup := by
    rwa [List.map_nil, List.append_nil]
  rcases readTimes_cases hone n [] b ⟨fun _ h => (List.not_mem_nil h).elim, hstart⟩ with
    hnone | ⟨level, rest, hlen, hb, ⟨ho, hn⟩, hsome⟩
  · rw [List.map_nil, List.append_nil] at hnone
    exact .inl hnone
  · rw [List.map_nil, List.append_nil] at hsome
    exact .inr ⟨level, rest, hlen, hb, ho, hn, hsome⟩

theorem readLevel_cases (book : Book) (b : Bytes) (hE : (E.map Prod.fst).Nodup) :
    readLevel side ⟨b, true⟩ (book, built E) = none ∨ ∃ p rest, Readable p ∧ p.1 ∉ book ∧
      ((E ++ p.2.map (entry side p.1)).map Prod.fst).Nodup ∧ b = putLevelOrders p ++ rest := by
  unfold readLevel
  dsimp only
  rcases u64_cases b with h1 | ⟨price, b1, hp, rfl⟩
  · rw [h1]
    exact .inl rfl
  rw [u64_putU64 hp]
  rcases u64_cases b1 with h2 | ⟨n, b2, hn, rfl⟩
  · rw [h2]
    exact .inl rfl
  rw [u64_putU64 hn]
  dsimp only
  split_ifs with hguard
  · exact .inl rfl
  simp only [Bool.not_true, Bool.false_or, Bool.or_eq_true, decide_eq_true_eq, not_or] at hguard
  obtain ⟨⟨⟨hp0, hn0⟩, -⟩, hnew⟩ := hguard
  rcases readOrders_cases side price n b2 hE with
    hnone | ⟨level, rest, rfl, rfl, ho, hids, -⟩
  · rw [hnone]
    exact .inl rfl
  · refine .inr ⟨(price, level), rest, ⟨Nat.pos_of_ne_zero hp0, hp, ?_, hn, ho⟩, hnew, hids, ?_⟩
    · exact fun h0 => hn0 (List.length_eq_zero_iff.mpr h0)
    · unfold putLevelOrders
      simp only [List.append_assoc]

/-- **One of the two books.** -/
theorem readBook_cases (b : Bytes) (hE : (E.map Prod.fst).Nodup) :
    readBook side ⟨b, true⟩ (built E) = none ∨ ∃ ps rest, ps.length < 2 ^ 64 ∧ (∀ p ∈ ps, Readable p) ∧
      (ps.map Prod.fst).Nodup ∧ ((E ++ entries side ps).map Prod.fst).Nodup ∧ b = putLevels ps ++ rest := by
  have hone : ∀ (A : List (ℕ × Level)) (b : Bytes), (∀ p ∈ A, Readable p) ∧ (A.map Prod.fst).Nodup ∧
      ((E ++ entries side A).map Prod.fst).Nodup →
      readLevel side ⟨b, true⟩ (A.foldl (fun t p => t.insert p.1 p.2) ∅, built (E ++ entries side A)) = none ∨
      ∃ x rest, b = putLevelOrders x ++ rest ∧
        ((∀ p ∈ A ++ [x], Readable p) ∧ ((A ++ [x]).map Prod.fst).Nodup ∧
          ((E ++ entries side (A ++ [x])).map Prod.fst).Nodup) ∧
        readLevel side ⟨b, true⟩ (A.foldl (fun t p => t.insert p.1 p.2) ∅, built (E ++ entries side A)) =
          some (⟨rest, true⟩, (A ++ [x]).foldl (fun t p => t.insert p.1 p.2) ∅,
            built (E ++ entries side (A ++ [x]))) := by
    rintro A b ⟨hA, hk, hn⟩
    rcases readLevel_cases side (A.foldl (fun t p => t.insert p.1 p.2) ∅) b hn with
      hnone | ⟨p, rest, hp, hnew, hids, rfl⟩
    · exact .inl hnone
    have hentries : entries side (A ++ [p]) = entries side A ++ p.2.map (entry side p.1) := by
      rw [entries_append, entries_cons]
      exact congrArg _ (List.append_nil _)
    refine .inr ⟨p, rest, rfl, ⟨fun x hx => ?_, ?_, ?_⟩, ?_⟩
    · rcases List.mem_append.mp hx with hx | hx
      · exact hA x hx
      · obtain rfl := List.mem_singleton.mp hx
        exact hp
    · rw [List.map_append]
      exact hk.append (List.nodup_singleton _)
        (List.disjoint_singleton.mpr fun hm => hnew (mem_foldl_insert hm))
    · rwa [hentries, ← List.append_assoc]
    · rw [readLevel_putLevelOrders hp hnew hids, hentries, List.foldl_append, List.append_assoc]
      rfl
  unfold readBook
  dsimp only
  rcases u64_cases b with h | ⟨n, b1, hn, rfl⟩
  · rw [h]
    exact .inl rfl
  rw [u64_putU64 hn]
  dsimp only
  split_ifs
  · exact .inl rfl
  have hstart : ((E ++ entries side []).map Prod.fst).Nodup := by
    rwa [entries, List.flatMap_nil, List.append_nil]
  rcases readTimes_cases hone n [] b1 ⟨fun _ h => (List.not_mem_nil h).elim, List.nodup_nil, hstart⟩ with
    hnone | ⟨ps, rest, rfl, rfl, ⟨hp, hk, hids⟩, -⟩
  · rw [entries, List.flatMap_nil, List.append_nil] at hnone
    exact .inl hnone
  · refine .inr ⟨ps, rest, hn, hp, hk, hids, ?_⟩
    unfold putLevels
    rw [List.append_assoc]

theorem readSession_cases (sessions : SessionMap) (b : Bytes) :
    readSession ⟨b, true⟩ sessions = none ∨ ∃ p rest, Storable p ∧ b = putSession p ++ rest := by
  unfold readSession
  dsimp only
  rcases u64_cases b with h1 | ⟨c, b1, hc, rfl⟩
  · rw [h1]
    exact .inl rfl
  rw [u64_putU64 hc]
  rcases u64_cases b1 with h2 | ⟨n, b2, hn, rfl⟩
  · rw [h2]
    exact .inl rfl
  rw [u64_putU64 hn]
  rcases Reader.uint_cases 4 b2 with h3 | ⟨len, b3, hlen, rfl, h3⟩
  · rw [Reader.u32, h3]
    exact .inl rfl
  rw [Reader.u32, h3]
  dsimp only
  split_ifs with hguard
  · exact .inl rfl
  have hle : len ≤ b3.length := by
    simpa [Reader.remaining] using hguard
  have htake : (b3.take len).length = len := List.length_take_of_le hle
  refine .inr ⟨(c, ⟨n, b3.take len⟩), b3.drop len, ⟨hc, hn, htake.trans_lt hlen⟩, ?_⟩
  unfold putSession putU32
  dsimp only
  simp only [htake, List.append_assoc, List.take_append_drop]

theorem readSessions_cases (n : ℕ) (b : Bytes) :
    readTimes (fun _ => true) readSession n ⟨b, true⟩ ∅ = none ∨ ∃ (ps : List (ℕ × Session)) (rest : Bytes), ps.length = n ∧
      (∀ p ∈ ps, Storable p) ∧ b = ps.flatMap putSession ++ rest ∧ readTimes (fun _ => true) readSession n ⟨b, true⟩ ∅ =
        some (⟨rest, true⟩, ps.foldl (fun t p => t.insert p.1 p.2) ∅) := by
  have hone : ∀ (A : List (ℕ × Session)) (b : Bytes), (∀ p ∈ A, Storable p) →
      readSession ⟨b, true⟩ (A.foldl (fun t p => t.insert p.1 p.2) ∅) = none ∨
      ∃ x rest, b = putSession x ++ rest ∧ (∀ p ∈ A ++ [x], Storable p) ∧
        readSession ⟨b, true⟩ (A.foldl (fun t p => t.insert p.1 p.2) ∅) =
          some (⟨rest, true⟩, (A ++ [x]).foldl (fun t p => t.insert p.1 p.2) ∅) := by
    intro A b hA
    rcases readSession_cases (A.foldl (fun t p => t.insert p.1 p.2) ∅) b with hnone | ⟨p, rest, hp, rfl⟩
    · exact .inl hnone
    refine .inr ⟨p, rest, rfl, fun x hx => ?_, ?_⟩
    · rcases List.mem_append.mp hx with hx | hx
      · exact hA x hx
      · obtain rfl := List.mem_singleton.mp hx
        exact hp
    · rw [readSession_putSession hp, List.foldl_append]
      rfl
  rcases readTimes_cases hone n [] b fun _ h => (List.not_mem_nil h).elim with
    hnone | ⟨ps, rest, hlen, hb, hp, hsome⟩
  · exact .inl hnone
  · exact .inr ⟨ps, rest, hlen, hp, hb, hsome⟩

end Cases

/-- **What is accepted is the writing of a text.** -/
theorem exists_text {b : Bytes} {m₀ : OrderBookStateMachine} (h : (m₀.deserialize b).1 = true) :
    ∃ t : SnapshotText, t.Accepted ∧ t.bytes = b := by
  unfold OrderBookStateMachine.deserialize at h
  dsimp only at h
  rcases u64_cases b with h1 | ⟨next, b1, hnext, rfl⟩
  · rw [h1] at h
    cases h
  rw [u64_putU64 hnext] at h
  dsimp only at h
  rcases readBook_cases .bid (E := []) b1 List.nodup_nil with
    hnone | ⟨bids, b2, hblen, hb, hbk, hbn, rfl⟩
  · rw [show (∅ : Index) = built [] from rfl, hnone] at h
    cases h
  rw [show (∅ : Index) = built [] from rfl, readBook_putLevels hblen hb hbk hbn] at h
  dsimp only at h
  rcases readBook_cases .ask b2 hbn with hnone | ⟨asks, b3, halen, ha, hak, han, rfl⟩
  · rw [hnone] at h
    cases h
  rw [readBook_putLevels halen ha hak han] at h
  dsimp only at h
  rcases u64_cases b3 with h4 | ⟨n, b4, hn, rfl⟩
  · rw [h4] at h
    cases h
  rw [u64_putU64 hn] at h
  dsimp only at h
  split_ifs at h
  rcases readSessions_cases n b4 with hnone | ⟨sessions, b5, rfl, hs, rfl, hsome⟩
  · rw [hnone] at h
    cases h
  rw [hsome] at h
  dsimp only at h
  cases b5 with
  | cons x l => cases h
  | nil =>
      refine ⟨⟨next, bids, asks, sessions⟩, ⟨hnext, hblen, halen, hb, ha, hbk, hak, han, hn, hs⟩, ?_⟩
      unfold SnapshotText.bytes
      rw [List.append_nil]

/-! ## 4. The states of texts -/

namespace OrderBookStateMachine.SnapshotText

variable {t : SnapshotText}

def levels (t : SnapshotText) : ObSide → List (ℕ × Level)
  | .bid => t.bids
  | .ask => t.asks

theorem distinct {V : Type} {l : List (ℕ × V)} (h : (l.map Prod.fst).Nodup) :
    l.Pairwise fun a b => ¬ compare a.1 b.1 = .eq :=
  (List.pairwise_map.mp h).imp fun hne he => hne (Std.LawfulEqCmp.eq_of_compare he)

theorem Accepted.book_iff (h : t.Accepted) {side : ObSide} {price : ℕ} {level : Level} :
    (t.state.book side)[price]? = some level ↔ (price, level) ∈ t.levels side := by
  cases side with
  | bid => exact getElem?_foldl_insert (distinct h.bids_nodup) price level
  | ask => exact getElem?_foldl_insert (distinct h.asks_nodup) price level

theorem mem_lines_iff {side : ObSide} {price id : ℕ} : (id, side, price) ∈ t.lines ↔
    ∃ level, (price, level) ∈ t.levels side ∧ id ∈ level.map Resting.id := by
  unfold lines
  rw [List.mem_append, mem_entries_iff, mem_entries_iff]
  cases side with
  | bid => simp [levels]
  | ask => simp [levels]

theorem Accepted.hasOrder_iff (h : t.Accepted) {side : ObSide} {price id : ℕ} :
    HasOrder t.state side price id ↔ (id, side, price) ∈ t.lines := by
  unfold HasOrder
  rw [mem_lines_iff]
  simp only [h.book_iff]

theorem Accepted.readable (h : t.Accepted) {side : ObSide} : ∀ p ∈ t.levels side, Readable p := by
  cases side with
  | bid => exact h.bids_readable
  | ask => exact h.asks_readable

/-- The lines of a level are among all of them. -/
theorem level_sublist {side : ObSide} {p : ℕ × Level} (hp : p ∈ t.levels side) :
    (p.2.map (entry side p.1)).Sublist t.lines := by
  have hone : (p.2.map (entry side p.1)).Sublist (entries side (t.levels side)) := by
    unfold entries
    rw [List.flatMap_def]
    exact List.sublist_flatten_of_mem (List.mem_map_of_mem (f := fun p => p.2.map (entry side p.1)) hp)
  unfold lines
  cases side with
  | bid => exact hone.trans (List.sublist_append_left _ _)
  | ask => exact hone.trans (List.sublist_append_right _ _)

/-- **What is accepted has levels and an index that agree.** -/
theorem Accepted.bookInvariant (h : t.Accepted) : BookInvariant t.state := by
  refine ⟨fun side price level hl => ?_, fun id side price side' price' h1 h2 => ?_, fun id side price => ?_⟩
  · have hp := h.book_iff.mp hl
    have hr := h.readable _ hp
    refine ⟨hr.ne_nil, hr.price_pos, fun o ho => (hr.order o ho).2.1, ?_⟩
    have hn := h.ids_nodup.sublist ((level_sublist hp).map Prod.fst)
    rw [List.map_map] at hn
    exact hn
  · have he := List.inj_on_of_nodup_map h.ids_nodup (h.hasOrder_iff.mp h1) (h.hasOrder_iff.mp h2) rfl
    cases he
    exact ⟨rfl, rfl⟩
  · rw [h.hasOrder_iff]
    exact getElem?_foldl_insert (distinct h.ids_nodup) id (side, price)

/-- **What `deserialize` does not check**: the counter is above the ids, and the bids are below the asks. -/
structure Sound (t : SnapshotText) : Prop where
  below : ∀ p ∈ t.bids ++ t.asks, ∀ o ∈ p.2, o.id < t.nextId
  uncrossed : ∀ p ∈ t.bids, ∀ q ∈ t.asks, p.1 < q.1

theorem Accepted.mem_book_iff (h : t.Accepted) (side : ObSide) {price : ℕ} :
    price ∈ t.state.book side ↔ ∃ level, (price, level) ∈ t.levels side := by
  rw [Std.ExtTreeMap.mem_iff_isSome_getElem?, Option.isSome_iff_exists]
  simp only [h.book_iff]

theorem mem_levels {p : ℕ × Level} : p ∈ t.bids ++ t.asks ↔ ∃ side, p ∈ t.levels side := by
  rw [List.mem_append]
  constructor
  · rintro (hp | hp)
    · exact ⟨.bid, hp⟩
    · exact ⟨.ask, hp⟩
  · rintro ⟨side, hp⟩
    cases side with
    | bid => exact .inl hp
    | ask => exact .inr hp

/-- **An accepted text is one of a book that can be reached exactly if it is sound.** -/
theorem Accepted.fullInvariant_iff (h : t.Accepted) : FullInvariant t.state ↔ t.Sound := by
  constructor
  · intro hf
    have hlt := best_lt_iff.mp hf.uncrossed
    refine ⟨fun p hp o ho => ?_, fun p hp q hq => ?_⟩
    · obtain ⟨side, hp⟩ := mem_levels.mp hp
      exact hf.below side p.1 o.id ⟨p.2, h.book_iff.mpr hp, List.mem_map_of_mem ho⟩
    · exact hlt p.1 ((h.mem_book_iff .bid).mpr ⟨p.2, hp⟩) q.1
        ((h.mem_book_iff .ask).mpr ⟨q.2, hq⟩)
  · intro hs
    refine ⟨h.bookInvariant, fun side price id ho => ?_, best_lt_iff.mpr fun b hb a ha => ?_⟩
    · obtain ⟨level, hl, hid⟩ := ho
      obtain ⟨o, ho, rfl⟩ := List.mem_map.mp hid
      exact hs.below _ (mem_levels.mpr ⟨side, h.book_iff.mp hl⟩) o ho
    · obtain ⟨level, hb⟩ := (h.mem_book_iff .bid).mp hb
      obtain ⟨level', ha⟩ := (h.mem_book_iff .ask).mp ha
      exact hs.uncrossed _ hb _ ha

end OrderBookStateMachine.SnapshotText

/-- **A snapshot that is accepted is a sound state, and stays one, exactly if its ids are below its
    counter and its bids below its asks.** -/
theorem accepted_sound_iff (b : Bytes) (hb : (OrderBookStateMachine.deserialize {} b).1 = true) :
    (∃ t : SnapshotText, t.Accepted ∧ t.bytes = b) ∧
      ∀ t : SnapshotText, t.Accepted → t.bytes = b →
        (∀ m₀ : OrderBookStateMachine, m₀.deserialize b = (true, t.state)) ∧
        ∀ L : List Bytes, t.nextId + executedNews t.state L < 2 ^ 64 → (Keeps t.state L ↔ t.Sound) := by
  refine ⟨exists_text hb, ?_⟩
  rintro t ht rfl
  exact ⟨ht.deserialize, fun L hroom => (keeps_iff hroom).trans ht.fullInvariant_iff⟩

/-- One ask of five lots at 10, with the id 1, and a counter. -/
def askText (nextId : ℕ) : SnapshotText := ⟨nextId, [], [(10, [⟨1, 5⟩])], []⟩

theorem askText_accepted {nextId : ℕ} (h : nextId < 2 ^ 64) : (askText nextId).Accepted where
  next := h
  bids_length := Nat.two_pow_pos 64
  asks_length := Nat.one_lt_two_pow (by decide)
  bids_readable _ hp := (List.not_mem_nil hp).elim
  asks_readable p hp := by
    obtain rfl := List.mem_singleton.mp hp
    exact ⟨by decide, by decide, by decide, by decide, by decide⟩
  bids_nodup := List.nodup_nil
  asks_nodup := List.nodup_singleton _
  ids_nodup := List.nodup_singleton _
  sessions_length := Nat.two_pow_pos 64
  session _ hp := (List.not_mem_nil hp).elim

/-- With a counter of 2, another ask gets another id. -/
theorem accepted_sound_iff_askText : (OrderBookStateMachine.deserialize {} (askText 2).bytes).1 = true ∧
    Keeps (askText 2).state [encodeObNew 0 0 .ask 11 5] := by
  have hacc : (askText 2).Accepted := askText_accepted (by decide)
  have hb : (OrderBookStateMachine.deserialize {} (askText 2).bytes).1 = true := by decide +kernel
  refine ⟨hb, (((accepted_sound_iff _ hb).2 _ hacc rfl).2 _ (by decide +kernel)).mpr ⟨?_, ?_⟩⟩
  · intro p hp o ho
    obtain rfl := List.mem_singleton.mp hp
    obtain rfl := List.mem_singleton.mp ho
    decide
  · exact fun p hp => (List.not_mem_nil hp).elim

/-- A bid at 10 and an ask at 9. -/
def crossedText : SnapshotText := ⟨3, [(10, [⟨1, 1⟩])], [(9, [⟨2, 1⟩])], []⟩

/-- **A snapshot after which a NEW gets the id of an order that rests**: the counter is not above the id.
    Both orders are then in the book under one id, and `deserialize` refuses what `serialize` writes.
    And a snapshot with the best bid above the best ask, which is accepted too. -/
theorem accepted_snapshot_reuses_id :
    (OrderBookStateMachine.deserialize {} (askText 1).bytes).1 = true ∧
    ((OrderBookStateMachine.deserialize {} (askText 1).bytes).2.apply (encodeObNew 0 0 .ask 11 5)).map
      (fun x => (x.2, x.1.asks.toList, (OrderBookStateMachine.deserialize {} x.1.serialize).1)) =
        some (okResult 1 5 [], [(10, [⟨1, 5⟩]), (11, [⟨1, 5⟩])], false) ∧
    ¬ Keeps (askText 1).state [] ∧
    (OrderBookStateMachine.deserialize {} crossedText.bytes).1 = true ∧
    (OrderBookStateMachine.deserialize {} crossedText.bytes).2.bids.toList = [(10, [⟨1, 1⟩])] ∧
    (OrderBookStateMachine.deserialize {} crossedText.bytes).2.asks.toList = [(9, [⟨2, 1⟩])] := by
  have hacc : (askText 1).Accepted := askText_accepted (by decide)
  refine ⟨by decide +kernel, by decide +kernel, fun hk => ?_, by decide +kernel, by decide +kernel,
    by decide +kernel⟩
  have hs := hacc.fullInvariant_iff.mp ((keeps_iff (by decide)).mp hk)
  exact absurd (hs.below (10, [⟨1, 5⟩]) (by simp [askText]) ⟨1, 5⟩ List.mem_cons_self) (by decide)

end Rsm.StateMachine
