/-
  File:      RaftRsm/StateMachine/BookView.lean
  Subject:   How the maps of the matching engine READ as a list of resting orders, and that each of
             its commands does on the maps what `PriceTime` says on the list.

  * `Shows m L` -- the levels of `m` are the orders of `L` by side and price, and whatever the
    locator index says is so;
  * `Indexed m L` -- the ids are distinct and the index has every one of them;
  * `applyPayload_steps` -- every branch of `apply` comes to an end, misses nothing, and is one step
    of price-time priority. This does not need `Indexed`: if the id counter wraps and an id comes
    twice, the index forgets an order, but it never names one that is gone.
-/
import RaftRsm.StateMachine.PriceTime

namespace Rsm.StateMachine

open Rsm.Rpc Selection

/-! ## 1. Maps and levels -/

theorem getElem?_insert_nat {V : Type} (b : Std.ExtTreeMap ℕ V) (p q : ℕ) (v : V) :
    (b.insert p v)[q]? = if p = q then some v else b[q]? := by
  rw [Std.ExtTreeMap.getElem?_insert]
  simp only [Std.LawfulEqCmp.compare_eq_iff_eq]

theorem getElem?_erase_nat {V : Type} (b : Std.ExtTreeMap ℕ V) (p q : ℕ) :
    (b.erase p)[q]? = if p = q then none else b[q]? := by
  rw [Std.ExtTreeMap.getElem?_erase]
  simp only [Std.LawfulEqCmp.compare_eq_iff_eq]

/-- A level as its map has it: an empty one is not there. -/
def present (level : Level) : Option Level := if level.isEmpty then none else some level

@[simp] theorem present_nil : present [] = none := rfl

@[simp] theorem present_cons (o : Resting) (l : Level) : present (o :: l) = some (o :: l) := rfl

theorem present_eq_some {l l' : Level} : present l = some l' ↔ l = l' ∧ l ≠ [] := by
  cases l with
  | nil => simp
  | cons o l => simp

theorem isSome_present {l : Level} : (present l).isSome = true ↔ l ≠ [] := by
  cases l <;> simp

theorem getElem?_putLevel (b : Book) (p q : ℕ) (l : Level) :
    (putLevel b p l)[q]? = if p = q then present l else b[q]? := by
  cases l with
  | nil => exact getElem?_erase_nat b p q
  | cons o l => exact getElem?_insert_nat b p q (o :: l)

theorem keys_sorted (b : Book) : b.keys.Pairwise (· < ·) :=
  Std.ExtTreeMap.ordered_keys.imp fun h => Std.compare_eq_lt.mp h

/-- The best price is a price of the book, and there is none better. -/
theorem bestPrice_eq_some {taker : ObSide} {b : Book} {p : ℕ} (h : bestPrice taker b = some p) :
    p ∈ b ∧ ∀ q ∈ b, rank taker p ≤ rank taker q := by
  have hs := keys_sorted b
  cases taker with
  | bid =>
      obtain ⟨l, hl⟩ := List.head?_eq_some_iff.mp h
      rw [hl, List.pairwise_cons] at hs
      refine ⟨Std.ExtTreeMap.mem_keys.mp (by simp [hl]), fun q hq => ?_⟩
      have hq := Std.ExtTreeMap.mem_keys.mpr hq
      rw [hl] at hq
      rcases List.mem_cons.mp hq with rfl | hq
      · exact le_refl _
      · have := hs.1 q hq
        simp only [rank]
        omega
  | ask =>
      obtain ⟨l, hl⟩ := List.getLast?_eq_some_iff.mp h
      rw [hl, List.pairwise_append] at hs
      refine ⟨Std.ExtTreeMap.mem_keys.mp (by simp [hl]), fun q hq => ?_⟩
      have hq := Std.ExtTreeMap.mem_keys.mpr hq
      rw [hl] at hq
      rcases List.mem_append.mp hq with hq | hq
      · have := hs.2.2 q hq p (List.mem_singleton_self p)
        simp only [rank]
        omega
      · rw [List.mem_singleton.mp hq]

theorem bestPrice_eq_none {taker : ObSide} {b : Book} (h : bestPrice taker b = none) (q : ℕ) :
    b[q]? = none := by
  have hk : b.keys = [] := by
    cases taker with
    | bid => exact List.head?_eq_none_iff.mp h
    | ask => exact List.getLast?_eq_none_iff.mp h
  refine Std.ExtTreeMap.getElem?_eq_none fun hq => ?_
  rw [← Std.ExtTreeMap.mem_keys, hk] at hq
  exact List.not_mem_nil hq

/-- An order as its level has it. -/
def Quote.resting (e : Quote) : Resting := ⟨e.id, e.qty⟩

/-- The orders of one side and price, oldest first. -/
def levelOf (L : List Quote) (side : ObSide) (price : ℕ) : Level :=
  (L.filter fun e => e.side = side ∧ e.price = price).map Quote.resting

section Levels

variable {A B L : List Quote} {e : Quote} {side : ObSide} {price : ℕ}

@[simp] theorem levelOf_nil : levelOf [] side price = [] := rfl

@[simp] theorem levelOf_append :
    levelOf (A ++ B) side price = levelOf A side price ++ levelOf B side price := by
  simp [levelOf]

theorem levelOf_cons : levelOf (e :: B) side price =
    (if e.side = side ∧ e.price = price then [e.resting] else []) ++ levelOf B side price := by
  unfold levelOf
  by_cases h : e.side = side ∧ e.price = price <;> simp [h]

@[simp] theorem levelOf_cons_self :
    levelOf (e :: B) e.side e.price = e.resting :: levelOf B e.side e.price := by
  simp [levelOf_cons]

theorem levelOf_cons_of_ne (h : ¬ (side = e.side ∧ price = e.price)) :
    levelOf (e :: B) side price = levelOf B side price := by
  rw [levelOf_cons, if_neg fun hh => h ⟨hh.1.symm, hh.2.symm⟩, List.nil_append]

theorem mem_levelOf {o : Resting} :
    o ∈ levelOf L side price ↔ ∃ e ∈ L, e.side = side ∧ e.price = price ∧ e.resting = o := by
  simp [levelOf, and_assoc]

theorem levelOf_ne_nil (he : e ∈ L) : levelOf L e.side e.price ≠ [] :=
  List.ne_nil_of_mem (mem_levelOf.mpr ⟨e, he, rfl, rfl, rfl⟩)

/-- The front of a level is the oldest order of its side and price. -/
theorem split_of_front {o : Resting} {l : Level} (h : levelOf L side price = o :: l) :
    ∃ A e B, L = A ++ e :: B ∧ e.side = side ∧ e.price = price ∧ e.resting = o ∧
      (∀ x ∈ A, ¬ (x.side = side ∧ x.price = price)) ∧ levelOf B side price = l := by
  obtain ⟨e, l', hf, he, hl⟩ := List.map_eq_cons_iff.mp h
  obtain ⟨A, B, hL, hA, hok, hB⟩ := List.filter_eq_cons_iff.mp hf
  rw [decide_eq_true_eq] at hok
  refine ⟨A, e, B, hL, hok.1, hok.2, he, fun x hx hn => hA x hx (decide_eq_true hn), ?_⟩
  unfold levelOf
  rw [hB, hl]

theorem levelOf_eq_nil (h : ∀ x ∈ L, ¬ (x.side = side ∧ x.price = price)) :
    levelOf L side price = [] := by
  simpa [levelOf] using h

end Levels

/-! ## 2. The engine's state as a book -/

namespace OrderBookStateMachine

variable {m : OrderBookStateMachine} {s t : ObSide} {b : Book}

@[simp] theorem book_setBook_self : (m.setBook s b).book s = b := by cases s <;> rfl

theorem book_setBook_ne (h : s ≠ t) : (m.setBook s b).book t = m.book t := by
  cases s <;> cases t <;> first | rfl | exact absurd rfl h

@[simp] theorem index_setBook : (m.setBook s b).index = m.index := by cases s <;> rfl

@[simp] theorem nextOrderId_setBook : (m.setBook s b).nextOrderId = m.nextOrderId := by
  cases s <;> rfl

@[simp] theorem sessions_setBook : (m.setBook s b).sessions = m.sessions := by cases s <;> rfl

/-- A state with another index, counter or session table has the same books. -/
theorem book_congr {m m' : OrderBookStateMachine} (hb : m'.bids = m.bids) (ha : m'.asks = m.asks) :
    m'.book s = m.book s := by
  cases s
  · exact hb
  · exact ha

end OrderBookStateMachine

open OrderBookStateMachine

/-- **The engine's maps show the book `L`.** -/
structure Shows (m : OrderBookStateMachine) (L : List Quote) : Prop where
  level : ∀ side price, (m.book side)[price]? = present (levelOf L side price)
  located : ∀ id side price, m.index[id]? = some (side, price) →
    ∃ e ∈ L, e.id = id ∧ e.side = side ∧ e.price = price

/-- The ids of the book are distinct, and the index has them all. -/
structure Indexed (m : OrderBookStateMachine) (L : List Quote) : Prop where
  nodup : (L.map Quote.id).Nodup
  index : ∀ e ∈ L, m.index[e.id]? = some (e.side, e.price)

section Views

variable {m m' : OrderBookStateMachine} {A B L M : List Quote} {e : Quote}

theorem Shows.mem_book (h : Shows m L) (he : e ∈ L) : e.price ∈ m.book e.side := by
  obtain ⟨o, l, hol⟩ := List.exists_cons_of_ne_nil (levelOf_ne_nil he)
  rw [Std.ExtTreeMap.mem_iff_isSome_getElem?, h.level, hol]
  rfl

theorem shows_init : Shows {} [] :=
  ⟨fun side price => by cases side <;> simp [book], fun id side price h => by simp at h⟩

/-- The counter is no part of what the maps show. -/
theorem Shows.renumber (h : Shows m L) (next : ℕ) : Shows { m with nextOrderId := next } L :=
  ⟨fun s p => by rw [book_congr rfl rfl]; exact h.level s p, h.located⟩

theorem indexed_init : Indexed {} [] := ⟨List.nodup_nil, fun _ h => (List.not_mem_nil h).elim⟩

/-- One level is replaced, and the book changes only there. -/
theorem level_set {side : ObSide} {price : ℕ}
    (h : ∀ s p, (m.book s)[p]? = present (levelOf L s p))
    (ho : ∀ s p, ¬ (s = side ∧ p = price) → levelOf M s p = levelOf L s p) (s : ObSide) (p : ℕ) :
    ((m.setBook side (putLevel (m.book side) price (levelOf M side price))).book s)[p]? =
      present (levelOf M s p) := by
  by_cases hs : side = s
  · subst hs
    rw [book_setBook_self, getElem?_putLevel]
    by_cases hp : price = p
    · subst hp
      rw [if_pos rfl]
    · rw [if_neg hp, h, ho side p fun hh => hp hh.2.symm]
  · rw [book_setBook_ne hs, h, ho s p fun hh => hs hh.1.symm]

/-- An order leaves the book. -/
theorem Shows.drop (h : Shows m (A ++ e :: B)) : Shows
    { m.setBook e.side (putLevel (m.book e.side) e.price (levelOf (A ++ B) e.side e.price)) with
      index := m.index.erase e.id } (A ++ B) := by
  refine ⟨fun s p => ?_, fun id side price hi => ?_⟩
  · rw [book_congr rfl rfl]
    refine level_set h.level (fun s p hn => ?_) s p
    rw [levelOf_append, levelOf_append, levelOf_cons_of_ne hn]
  · dsimp only at hi
    rw [getElem?_erase_nat] at hi
    split_ifs at hi with hid
    obtain ⟨x, hx, hxid, hxs⟩ := h.located id side price hi
    refine ⟨x, ?_, hxid, hxs⟩
    rcases List.mem_append.mp hx with hx | hx
    · exact List.mem_append_left _ hx
    · rcases List.mem_cons.mp hx with rfl | hx
      · exact absurd hxid hid
      · exact List.mem_append_right _ hx

theorem Indexed.drop (h : Indexed m (A ++ e :: B)) (hm : m'.index = m.index.erase e.id) :
    Indexed m' (A ++ B) := by
  have hn := h.nodup
  rw [List.map_append, List.map_cons, List.nodup_middle, List.nodup_cons, ← List.map_append] at hn
  refine ⟨hn.2, fun x hx => ?_⟩
  have hne : e.id ≠ x.id := fun hid => hn.1 (hid ▸ List.mem_map_of_mem hx)
  rw [hm, getElem?_erase_nat, if_neg hne]
  exact h.index x
    (mem_of_taken hx)

/-- An order gets another quantity where it stands. -/
theorem Shows.setQty (h : Shows m (A ++ e :: B)) (q : ℕ) : Shows
    (m.setBook e.side (putLevel (m.book e.side) e.price
      (levelOf (A ++ { e with qty := q } :: B) e.side e.price))) (A ++ { e with qty := q } :: B) := by
  refine ⟨level_set h.level fun s p hn => ?_, fun id side price hi => ?_⟩
  · have hn' : ¬ (s = ({ e with qty := q } : Quote).side ∧ p = ({ e with qty := q } : Quote).price) :=
      hn
    rw [levelOf_append, levelOf_append, levelOf_cons_of_ne hn, levelOf_cons_of_ne hn']
  · rw [index_setBook] at hi
    obtain ⟨x, hx, hxid⟩ := h.located id side price hi
    rcases List.mem_append.mp hx with hx | hx
    · exact ⟨x, List.mem_append_left _ hx, hxid⟩
    · rcases List.mem_cons.mp hx with rfl | hx
      · exact ⟨{ x with qty := q }, by simp, hxid⟩
      · exact ⟨x, by simp [hx], hxid⟩

theorem Indexed.setQty (h : Indexed m (A ++ e :: B)) (q : ℕ) (hm : m'.index = m.index) :
    Indexed m' (A ++ { e with qty := q } :: B) := by
  refine ⟨?_, fun x hx => ?_⟩
  · simpa using h.nodup
  · rw [hm]
    rcases List.mem_append.mp hx with hx | hx
    · exact h.index x (List.mem_append_left _ hx)
    · rcases List.mem_cons.mp hx with rfl | hx
      · exact h.index e (by simp)
      · exact h.index x (by simp [hx])

/-- An order comes to rest. -/
theorem Shows.rest (h : Shows m L) (e : Quote) :
    Shows (m.rest e.side e.price e.id e.qty) (L ++ [e]) := by
  have hlevel : (m.book e.side).getD e.price [] = levelOf L e.side e.price := by
    rw [Std.ExtTreeMap.getD_eq_getD_getElem?, h.level]
    cases levelOf L e.side e.price <;> rfl
  have hput : (m.book e.side).insert e.price (levelOf L e.side e.price ++ [⟨e.id, e.qty⟩]) =
      putLevel (m.book e.side) e.price (levelOf (L ++ [e]) e.side e.price) := by
    rw [levelOf_append, levelOf_cons_self]
    unfold putLevel
    rw [if_neg (by simp)]
    rfl
  refine ⟨fun s p => ?_, fun id side price hi => ?_⟩
  · unfold OrderBookStateMachine.rest
    rw [hlevel, hput, book_congr rfl rfl]
    refine level_set h.level (fun s p hn => ?_) s p
    rw [levelOf_append, levelOf_cons_of_ne hn, levelOf_nil, List.append_nil]
  · have hi : (m.index.insert e.id (e.side, e.price))[id]? = some (side, price) := hi
    rw [getElem?_insert_nat] at hi
    split_ifs at hi with hid
    · cases hi
      exact ⟨e, by simp, hid, rfl, rfl⟩
    · obtain ⟨x, hx, hxid⟩ := h.located id side price hi
      exact ⟨x, List.mem_append_left _ hx, hxid⟩

theorem Indexed.rest (h : Indexed m L) (hn : e.id ∉ L.map Quote.id) :
    Indexed (m.rest e.side e.price e.id e.qty) (L ++ [e]) := by
  refine ⟨?_, fun x hx => ?_⟩
  · rw [List.map_append]
    exact List.nodup_append.mpr ⟨h.nodup, List.nodup_singleton _, fun a ha b hb => by
      rw [List.map_singleton, List.mem_singleton] at hb
      rintro rfl
      exact hn (hb ▸ ha)⟩
  · show (m.index.insert e.id (e.side, e.price))[x.id]? = _
    rw [getElem?_insert_nat]
    rcases List.mem_append.mp hx with hx | hx
    · have hne : e.id ≠ x.id := fun hid => hn (hid ▸ List.mem_map_of_mem hx)
      rw [if_neg hne]
      exact h.index x hx
    · rw [List.mem_singleton.mp hx, if_pos rfl]

end Views

/-! ## 3. The match loop -/

/-- Everything but the book is as before. -/
structure SameRest (m m' : OrderBookStateMachine) : Prop where
  nextOrderId : m'.nextOrderId = m.nextOrderId
  sessions : m'.sessions = m.sessions

theorem SameRest.trans {m m' m'' : OrderBookStateMachine} (h : SameRest m m')
    (h' : SameRest m' m'') : SameRest m m'' :=
  ⟨h'.nextOrderId.trans h.nextOrderId, h'.sessions.trans h.sessions⟩

section Matching

variable {m : OrderBookStateMachine} {L : List Quote} {taker : ObSide} {limit p : ℕ}

/-- **The front of the best level is the order that the taker meets first.** -/
theorem Shows.best (h : Shows m L) (hp : bestPrice taker (m.book taker.opposite) = some p) :
    ∃ A e B, L = A ++ e :: B ∧ Best taker A e B ∧ e.side = taker.opposite ∧ e.price = p ∧
      (m.book e.side).getD e.price [] = e.resting :: levelOf B e.side e.price ∧
      levelOf A e.side e.price = [] := by
  obtain ⟨hmem, hleast⟩ := bestPrice_eq_some hp
  have hlevel := h.level taker.opposite p
  rw [Std.ExtTreeMap.getElem?_eq_some_getElem hmem] at hlevel
  obtain ⟨hl, hne⟩ := present_eq_some.mp hlevel.symm
  obtain ⟨o, l, hol⟩ := List.exists_cons_of_ne_nil hne
  obtain ⟨A, e, B, rfl, hs, rfl, rfl, hA, hB⟩ := split_of_front hol
  rw [← hs] at hA hB hol
  refine ⟨A, e, B, rfl, ⟨hs, fun x hx hxs => ?_, fun x hx hxs => ?_⟩, hs, rfl, ?_, ?_⟩
  · have hxp := h.mem_book (List.mem_append_left _ hx)
    rw [hxs] at hxp
    exact lt_of_le_of_ne (hleast _ hxp) fun he => hA x hx ⟨hxs.trans hs.symm, (rank_inj he).symm⟩
  · have hxp := h.mem_book (List.mem_append_right _ (List.mem_cons_of_mem _ hx))
    rw [hxs] at hxp
    exact hleast _ hxp
  · rw [Std.ExtTreeMap.getD_eq_getD_getElem?, h.level, hol, hB]
    rfl
  · exact levelOf_eq_nil hA

theorem Shows.no_opposite (h : Shows m L) (hp : bestPrice taker (m.book taker.opposite) = none) :
    ∀ x ∈ L, x.side ≠ taker.opposite := by
  intro x hx hxs
  have hxp := h.mem_book hx
  rw [hxs, Std.ExtTreeMap.mem_iff_isSome_getElem?, bestPrice_eq_none hp] at hxp
  cases hxp

/-- A taker that is filled goes no further. -/
theorem matchLoop_filled {fuel : ℕ} (hf : 0 < fuel) (m : OrderBookStateMachine)
    (fills : List ObFill) : matchLoop taker limit fuel m 0 fills = some (m, 0, fills) := by
  obtain ⟨fuel, rfl⟩ := Nat.exists_eq_add_of_lt hf
  unfold matchLoop
  simp

/-- **The loop comes to its end and trades by price and time.** -/
theorem matchLoop_trade (taker : ObSide) (limit fuel : ℕ) : ∀ {m : OrderBookStateMachine}
    {L : List Quote} (q : ℕ) (fills : List ObFill), Shows m L → (∀ x ∈ L, 0 < x.qty) → q < fuel →
    ∃ m' L' r fs, matchLoop taker limit fuel m q fills = some (m', r, fills ++ fs) ∧
      Trade taker limit L q fs L' r ∧ Shows m' L' ∧ SameRest m m' ∧
      (Indexed m L → Indexed m' L') := by
  induction fuel with
  | zero => exact fun _ _ _ _ hq => absurd hq (Nat.not_lt_zero _)
  | succ fuel ih =>
      intro m L q fills h hpos hq
      unfold matchLoop
      by_cases h0 : q = 0
      · subst h0
        exact ⟨m, L, 0, [], by simp, .filled, h, ⟨rfl, rfl⟩, fun hi => hi⟩
      rw [if_neg h0]
      have hq0 : 0 < q := Nat.pos_of_ne_zero h0
      cases hb : bestPrice taker (m.book taker.opposite) with
      | none =>
          have hno := h.no_opposite hb
          exact ⟨m, L, q, [], by simp, .away hq0 fun x hx hxs => absurd hxs (hno x hx), h,
            ⟨rfl, rfl⟩, fun hi => hi⟩
      | some p =>
          obtain ⟨A, e, B, rfl, hbest, hs, rfl, hlevel, hA⟩ := h.best hb
          dsimp only
          by_cases hc : crosses taker e.price limit = true
          · -- the front of the best level is the maker
            rw [hc, Bool.not_true, if_neg Bool.false_ne_true, ← hs, hlevel]
            dsimp only
            have hcr := crosses_iff.mp hc
            have hepos : 0 < e.qty := hpos e (by simp)
            by_cases hlt : q < e.qty
            · -- it is filled in part, and the taker is done
              have hrest : e.resting.qty - q ≠ 0 := Nat.sub_ne_zero_of_lt hlt
              have hput : (⟨e.resting.id, e.resting.qty - q⟩ : Resting) :: levelOf B e.side e.price =
                  levelOf (A ++ { e with qty := e.qty - q } :: B) e.side e.price := by
                have := levelOf_cons_self (e := { e with qty := e.qty - q }) (B := B)
                rw [levelOf_append, hA, List.nil_append]
                exact this.symm
              rw [if_pos (show q < e.resting.qty from hlt), if_neg hrest, hput]
              rw [Nat.sub_self, matchLoop_filled (by omega)]
              exact ⟨_, _, 0, [⟨e.id, e.price, q⟩], rfl, .part hq0 rfl hbest hcr hlt,
                h.setQty (e.qty - q), ⟨nextOrderId_setBook, sessions_setBook⟩,
                fun hi => hi.setQty _ index_setBook⟩
            · -- it is filled and leaves the book
              have hle : e.qty ≤ q := Nat.le_of_not_lt hlt
              have hput : levelOf B e.side e.price = levelOf (A ++ B) e.side e.price := by
                rw [levelOf_append, hA, List.nil_append]
              rw [if_neg (show ¬ q < e.resting.qty from hlt), if_pos (Nat.sub_self _), hput]
              obtain ⟨m', L', r, fs, hrun, ht, hS', hsame, hidx⟩ :=
                ih (q - e.qty) (fills ++ [⟨e.id, e.price, e.qty⟩]) h.drop
                  (fun x hx => hpos x (mem_of_taken hx)) (by omega)
              refine ⟨m', L', r, ⟨e.id, e.price, e.qty⟩ :: fs, ?_, .take hq0 rfl hbest hcr hle ht,
                hS', ⟨hsame.nextOrderId.trans nextOrderId_setBook,
                  hsame.sessions.trans sessions_setBook⟩, fun hi => hidx (hi.drop rfl)⟩
              rw [List.append_assoc] at hrun
              exact hrun
          · -- not even the best price crosses
            rw [Bool.not_eq_true] at hc
            rw [hc, Bool.not_false, if_pos rfl]
            refine ⟨m, _, q, [], by simp, .away hq0 fun x hx hxs => ?_, h, ⟨rfl, rfl⟩, fun hi => hi⟩
            have hfar : rank taker limit < rank taker e.price := by
              rw [← not_le, ← crosses_iff, hc]
              exact Bool.false_ne_true
            exact lt_of_lt_of_le hfar (hbest.least hx hxs)

/-- A taker that trades and rests. -/
theorem execute_placed (h : Shows m L) (hpos : ∀ x ∈ L, 0 < x.qty) (side : ObSide)
    (price id qty : ℕ) : ∃ m' M r fs, m.execute side price id qty = some (m', okResult id r fs) ∧
      Placed side price id qty L fs M r ∧ Shows m' M ∧ SameRest m m' ∧
      (Indexed m L → id ∉ L.map Quote.id → Indexed m' M) := by
  obtain ⟨m', L', r, fs, hrun, ht, hS, hsame, hidx⟩ :=
    matchLoop_trade side price (qty + 1) qty [] h hpos
      (Nat.lt_succ_self qty)
  rw [List.nil_append] at hrun
  refine ⟨if r > 0 then m'.rest side price id r else m', _, r, fs, ?_, ⟨L', ht, rfl⟩, ?_, ?_, ?_⟩
  · unfold execute match_
    rw [hrun]
  · split
    · exact hS.rest ⟨id, side, price, r⟩
    · exact hS
  · split
    · exact ⟨hsame.nextOrderId ▸ nextOrderId_setBook, hsame.sessions ▸ sessions_setBook⟩
    · exact hsame
  · intro hi hn
    split
    · exact (hidx hi).rest (e := ⟨id, side, price, r⟩) fun hm => hn (ht.ids.subset hm)
    · exact hidx hi

end Matching

/-! ## 4. Orders found by their id -/

section Level

variable {X Y : Level} {o : Resting}

theorem find?_level (h : ∀ x ∈ X, x.id ≠ o.id) : (X ++ o :: Y).find? (·.id = o.id) = some o :=
  List.find?_eq_some_iff_append.mpr ⟨by simp, X, Y, rfl, fun x hx => by simp [h x hx]⟩

theorem eraseP_level (h : ∀ x ∈ X, x.id ≠ o.id) : (X ++ o :: Y).eraseP (·.id = o.id) = X ++ Y := by
  rw [List.eraseP_append_right (o :: Y) fun x hx => by simp [h x hx]]
  simp

theorem setQty_level (q : ℕ) (h : ∀ x ∈ X, x.id ≠ o.id) :
    setQty o.id q (X ++ o :: Y) = X ++ ⟨o.id, q⟩ :: Y := by
  induction X with
  | nil => simp [setQty]
  | cons x X ih =>
      rw [List.cons_append, setQty, if_neg (h x List.mem_cons_self),
        ih fun y hy => h y (List.mem_cons_of_mem _ hy), List.cons_append]

end Level

section Located

/-- The index names the order `e` of the book `A ++ e :: B`, and it is the first with its id in its
    level. -/
structure Located (m : OrderBookStateMachine) (A : List Quote) (e : Quote) (B : List Quote) :
    Prop where
  index : m.index[e.id]? = some (e.side, e.price)
  first : ∀ x ∈ levelOf A e.side e.price, x.id ≠ e.id
  level : (m.book e.side)[e.price]? =
    some (levelOf A e.side e.price ++ e.resting :: levelOf B e.side e.price)

variable {m : OrderBookStateMachine} {L A B : List Quote} {e : Quote} {id price : ℕ} {side : ObSide}

/-- **What the index names is in its level.** -/
theorem Shows.locate (h : Shows m L) (hi : m.index[id]? = some (side, price)) :
    ∃ A e B, L = A ++ e :: B ∧ e.id = id ∧ e.side = side ∧ e.price = price ∧ Located m A e B := by
  obtain ⟨x, hx, hxid⟩ := h.located id side price hi
  have hsome : (L.find? fun x => x.id = id ∧ x.side = side ∧ x.price = price).isSome = true :=
    List.find?_isSome.mpr ⟨x, hx, decide_eq_true hxid⟩
  obtain ⟨e, he⟩ := Option.isSome_iff_exists.mp hsome
  obtain ⟨hok, A, B, rfl, hA⟩ := List.find?_eq_some_iff_append.mp he
  rw [decide_eq_true_eq] at hok
  obtain ⟨rfl, rfl, rfl⟩ := hok
  refine ⟨A, e, B, rfl, rfl, rfl, rfl, hi, fun y hy hyid => ?_, ?_⟩
  · obtain ⟨z, hz, hzs, hzp, rfl⟩ := mem_levelOf.mp hy
    have := hA z hz
    simp only [Bool.not_eq_true', decide_eq_false_iff_not] at this
    exact this ⟨hyid, hzs, hzp⟩
  · rw [h.level, levelOf_append, levelOf_cons_self, present_eq_some]
    simp

/-- The scan of a level finds the order. -/
theorem Located.find (h : Located m A e B) : (levelOf A e.side e.price ++ e.resting ::
    levelOf B e.side e.price).find? (·.id = e.id) = some e.resting :=
  find?_level (o := e.resting) h.first

/-- `remove` takes the order out of the book. -/
theorem Located.remove (h : Located m A e B) (hS : Shows m (A ++ e :: B)) :
    ∃ m', m.remove e.id = some (m', e.qty) ∧ Shows m' (A ++ B) ∧ SameRest m m' ∧
      (Indexed m (A ++ e :: B) → Indexed m' (A ++ B)) := by
  refine ⟨_, ?_, hS.drop, ⟨nextOrderId_setBook, sessions_setBook⟩, fun hx => hx.drop rfl⟩
  have he := eraseP_level (o := e.resting) (Y := levelOf B e.side e.price) h.first
  rw [show e.resting.id = e.id from rfl] at he
  unfold OrderBookStateMachine.remove
  rw [h.index]
  dsimp only
  rw [h.level]
  dsimp only
  rw [h.find, he, levelOf_append]
  rfl

/-- The amendment in place. -/
theorem Located.setQty (h : Located m A e B) (q : ℕ) :
    (m.book e.side).insert e.price (setQty e.id q (levelOf A e.side e.price ++ e.resting ::
      levelOf B e.side e.price)) = putLevel (m.book e.side) e.price
        (levelOf (A ++ { e with qty := q } :: B) e.side e.price) := by
  have hset := setQty_level (o := e.resting) (Y := levelOf B e.side e.price) q h.first
  have hcons : levelOf ({ e with qty := q } :: B) e.side e.price =
      ⟨e.id, q⟩ :: levelOf B e.side e.price :=
    levelOf_cons_self (e := { e with qty := q }) (B := B)
  rw [show e.resting.id = e.id from rfl] at hset
  rw [hset, levelOf_append, hcons]
  unfold putLevel
  rw [if_neg (by simp)]

end Located

/-! ## 5. Commands -/

/-- The order-id counter after a command. -/
def ObPayload.nextId (next : ℕ) : ObPayload → ℕ
  | .new _ _ _ => (next + 1) % 2 ^ 64
  | _ => next

section Commands

variable {m : OrderBookStateMachine} {L A B : List Quote} {e : Quote}

theorem mem_index_iff {id : ℕ} : id ∈ m.index ↔ ∃ sp, m.index[id]? = some sp := by
  rw [Std.ExtTreeMap.mem_iff_isSome_getElem?, Option.isSome_iff_exists]

/-- The outcome `x` of the command `p`, in a state that shows the book `L`. -/
def Steps (m : OrderBookStateMachine) (L : List Quote) (p : ObPayload)
    (x : Option (OrderBookStateMachine × Bytes)) : Prop :=
  ∃ m' M r, x = some (m', r) ∧ Does (· ∈ m.index) m.nextOrderId L p M r ∧ Shows m' M ∧
    m'.nextOrderId = p.nextId m.nextOrderId ∧ m'.sessions = m.sessions ∧
    (Indexed m L → (p.isNew = true → m.nextOrderId ∉ L.map Quote.id) → Indexed m' M)

theorem applyNew_steps (h : Shows m L) (hpos : ∀ x ∈ L, 0 < x.qty) (side : ObSide)
    (price qty : ℕ) : Steps m L (.new side price qty) (m.applyNew side price qty) := by
  obtain ⟨m', M, r, fs, hrun, hp, hS, hsame, hidx⟩ :=
    execute_placed (h.renumber _) hpos side price m.nextOrderId qty
  exact ⟨m', M, _, hrun, .new hp, hS, hsame.nextOrderId, hsame.sessions,
    fun hi hn => hidx ⟨hi.nodup, hi.index⟩ (hn rfl)⟩

theorem applyCancel_steps (h : Shows m L) (id : ℕ) :
    Steps m L (.cancel id) (m.applyCancel id) := by
  unfold applyCancel
  by_cases hk : id ∈ m.index
  · obtain ⟨⟨side, price⟩, hi⟩ := mem_index_iff.mp hk
    obtain ⟨A, e, B, rfl, rfl, rfl, rfl, hloc⟩ := h.locate hi
    obtain ⟨m', hrun, hS, hsame, hidx⟩ := hloc.remove h
    rw [if_neg (not_not.mpr hk), hrun]
    exact ⟨m', A ++ B, _, rfl, .cancel hk rfl, hS, hsame.nextOrderId, hsame.sessions,
      fun hi _ => hidx hi⟩
  · rw [if_pos hk]
    exact ⟨m, L, _, rfl, .cancelUnknown hk, h, rfl, rfl, fun hi _ => hi⟩

/-- Price change or quantity increase. -/
theorem cancelReplace_steps (h : Shows m (A ++ e :: B)) (hpos : ∀ x ∈ A ++ e :: B, 0 < x.qty)
    (hloc : Located m A e B) (price qty : ℕ) (hq : ¬ (price = e.price ∧ qty ≤ e.qty)) :
    Steps m (A ++ e :: B) (.amend e.id price qty) (m.cancelReplace e.side e.id price qty) := by
  have hk : e.id ∈ m.index := mem_index_iff.mpr ⟨_, hloc.index⟩
  obtain ⟨m₁, hrun₁, hS₁, hsame₁, hidx₁⟩ := hloc.remove h
  have hpos₁ : ∀ x ∈ A ++ B, 0 < x.qty := fun x hx => hpos x (mem_of_taken hx)
  obtain ⟨m', M, r, fs, hrun, hp, hS, hsame, hidx⟩ :=
    execute_placed hS₁ hpos₁ e.side price e.id qty
  unfold cancelReplace
  rw [hrun₁]
  refine ⟨m', M, _, hrun, .amendMove hk rfl hq hp, hS, (hsame₁.trans hsame).nextOrderId,
    (hsame₁.trans hsame).sessions, fun hi _ => hidx (hidx₁ hi) ?_⟩
  have hn := hi.nodup
  rw [List.map_append, List.map_cons, List.nodup_middle, List.nodup_cons, ← List.map_append] at hn
  exact hn.1

theorem applyAmend_steps (h : Shows m L) (hpos : ∀ x ∈ L, 0 < x.qty) (id price qty : ℕ) :
    Steps m L (.amend id price qty) (m.applyAmend id price qty) := by
  unfold applyAmend
  cases hi : m.index[id]? with
  | none =>
      have hk : id ∉ m.index := fun hk => by
        obtain ⟨sp, hsp⟩ := mem_index_iff.mp hk
        rw [hi] at hsp
        cases hsp
      exact ⟨m, L, _, rfl, .amendUnknown hk, h, rfl, rfl, fun hi _ => hi⟩
  | some sp =>
      obtain ⟨A, e, B, rfl, rfl, hs, hp, hloc⟩ := h.locate hi
      obtain rfl : sp = (e.side, e.price) := by rw [hs, hp]
      dsimp only
      by_cases hpr : price = e.price
      · subst hpr
        rw [if_pos rfl, hloc.level]
        dsimp only
        rw [hloc.find]
        dsimp only
        by_cases hq : qty ≤ e.resting.qty
        · rw [if_pos hq, hloc.setQty]
          exact ⟨_, _, _, rfl, .amendKeep (mem_index_iff.mpr ⟨_, hi⟩) rfl hq, h.setQty qty,
            nextOrderId_setBook, sessions_setBook, fun hx _ => hx.setQty qty index_setBook⟩
        · rw [if_neg hq]
          exact cancelReplace_steps h hpos hloc e.price qty fun hn => hq hn.2
      · rw [if_neg hpr]
        exact cancelReplace_steps h hpos hloc price qty fun hn => hpr hn.1

/-- **Every command comes to an end, misses nothing, and does what price-time priority says.** -/
theorem applyPayload_steps (h : Shows m L) (hpos : ∀ x ∈ L, 0 < x.qty) (p : ObPayload) :
    Steps m L p (m.applyPayload p) := by
  cases p with
  | new side price qty => exact applyNew_steps h hpos side price qty
  | cancel id => exact applyCancel_steps h id
  | amend id price qty => exact applyAmend_steps h hpos id price qty

end Commands

end Rsm.StateMachine
