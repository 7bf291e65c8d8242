/-
  File:      RaftRsm/StateMachine/Matching.lean
  Subject:   WHAT A TAKER DOES TO THE BOOK: no quantity is made or lost, and nothing but the makers and
             the taker changes.

  A maker is a resting order, not an id: if the id counter has wrapped, two of them can have the same.

  * `Settles l fs l'` -- the fills `fs` are taken from the front of the level `l` and leave `l'`;
  * `Conserved` -- quantities, makers and the rest of the book, between the state a taker meets and the
    state it leaves;
  * `Without` -- the state that the taker of a cancel-replace meets: the amended order is gone;
  * `matching_conserves` -- every NEW and every cancel-replace AMEND, after any run.
-/
import RaftRsm.StateMachine.BookRuns

namespace Rsm.StateMachine

open Rsm.Rpc Selection OrderBookStateMachine

/-! ## 1. Trades -/

/-- **Fills against one level**: each takes the whole order at the front, only the last may take a
    part of it. -/
inductive Settles : Level → List ObFill → Level → Prop where
  | done {l} : Settles l [] l
  | full {o l f fs l'} (hid : f.makerOrderId = o.id) (hq : f.qty = o.qty) (h : Settles l fs l') :
      Settles (o :: l) (f :: fs) l'
  | part {o l f} (hid : f.makerOrderId = o.id) (hq : f.qty < o.qty) :
      Settles (o :: l) [f] (⟨o.id, o.qty - f.qty⟩ :: l)

/-- Before the best order there is none of its side and price. -/
theorem Best.level_front {taker : ObSide} {A B : List Quote} {e : Quote} (h : Best taker A e B) :
    levelOf A taker.opposite e.price = [] := by
  refine levelOf_eq_nil fun x hx hn => ?_
  have := h.before x hx hn.1
  rw [hn.2] at this
  exact lt_irrefl _ this

theorem levelOf_of_side_ne {B : List Quote} {e : Quote} {side : ObSide} {price : ℕ}
    (h : e.side ≠ side) : levelOf (e :: B) side price = levelOf B side price :=
  levelOf_cons_of_ne fun hn => h hn.1.symm

namespace Trade

variable {taker : ObSide} {limit q r : ℕ} {L M : List Quote} {fs : List ObFill}

/-- **No quantity is made or lost.** -/
theorem sum (h : Trade taker limit L q fs M r) : (fs.map ObFill.qty).sum + r = q := by
  induction h with
  | filled => rfl
  | away => exact Nat.zero_add _
  | take hq hL hb hc he ht ih =>
      rw [List.map_cons, List.sum_cons]
      dsimp only
      omega
  | part => rfl

/-- **Every fill is against an order of the book**, for its quantity or a part of it. -/
theorem fill_maker (h : Trade taker limit L q fs M r) : ∀ f ∈ fs, ∃ e ∈ L,
    f.makerOrderId = e.id ∧ f.price = e.price ∧ f.qty ≤ e.qty ∧ (0 < e.qty → 0 < f.qty) := by
  induction h with
  | filled => exact fun _ hf => (List.not_mem_nil hf).elim
  | away => exact fun _ hf => (List.not_mem_nil hf).elim
  | @take L A e B q fs L' r hq hL hb hc he ht ih =>
      subst hL
      refine List.forall_mem_cons.mpr ⟨⟨e, by simp, rfl, rfl, Nat.le_refl _, id⟩, fun f hf => ?_⟩
      obtain ⟨x, hx, hfx⟩ := ih f hf
      exact ⟨x, mem_of_taken hx, hfx⟩
  | @part L A e B q hq hL hb hc he =>
      subst hL
      exact List.forall_mem_singleton.mpr ⟨e, by simp, rfl, rfl, Nat.le_of_lt he, fun _ => hq⟩

theorem fills_pos (h : Trade taker limit L q fs M r) (hpos : ∀ x ∈ L, 0 < x.qty) :
    ∀ f ∈ fs, 0 < f.qty := by
  intro f hf
  obtain ⟨e, he, -, -, -, hq⟩ := h.fill_maker f hf
  exact hq (hpos e he)

/-- **Each level of the other side loses its fills from the front.** -/
theorem settles (h : Trade taker limit L q fs M r) (p : ℕ) :
    Settles (levelOf L taker.opposite p) (fs.filter fun f => f.price = p)
      (levelOf M taker.opposite p) := by
  induction h with
  | filled => exact .done
  | away => exact .done
  | @take L A e B q fs L' r hq hL hb hc he ht ih =>
      subst hL
      have hs := hb.admissible
      rw [levelOf_append] at ih ⊢
      by_cases hp : e.price = p
      · subst hp
        rw [hb.level_front, List.nil_append, ← hs, levelOf_cons_self, List.filter_cons_of_pos (by simp), hs]
        rw [hb.level_front, List.nil_append] at ih
        exact .full rfl rfl ih
      · rw [levelOf_cons_of_ne fun hn => hp hn.2.symm, List.filter_cons_of_neg (by simpa using hp)]
        exact ih
  | @part L A e B q hq hL hb hc he =>
      subst hL
      have hs := hb.admissible
      rw [levelOf_append, levelOf_append]
      by_cases hp : e.price = p
      · subst hp
        have hput : levelOf ({ e with qty := e.qty - q } :: B) e.side e.price =
            ⟨e.id, e.qty - q⟩ :: levelOf B e.side e.price :=
          levelOf_cons_self (e := { e with qty := e.qty - q })
        rw [hb.level_front, List.nil_append, List.nil_append, ← hs, levelOf_cons_self, hput,
          List.filter_cons_of_pos (by simp)]
        exact .part rfl he
      · have hne : ¬ (taker.opposite = e.side ∧ p = e.price) := fun hn => hp hn.2.symm
        have hne' : ¬ (taker.opposite = ({ e with qty := e.qty - q } : Quote).side ∧
            p = ({ e with qty := e.qty - q } : Quote).price) := hne
        rw [levelOf_cons_of_ne hne, levelOf_cons_of_ne hne', List.filter_cons_of_neg (by simpa using hp)]
        exact .done

/-- The taker's own side stays as it is. -/
theorem own_side (h : Trade taker limit L q fs M r) (p : ℕ) :
    levelOf M taker p = levelOf L taker p := by
  induction h with
  | filled => rfl
  | away => rfl
  | take hq hL hb hc he ht ih =>
      have hs : _ ≠ taker := hb.admissible ▸ taker.opposite_ne
      rw [ih, hL, levelOf_append, levelOf_append, levelOf_of_side_ne hs]
  | @part L A e B q hq hL hb hc he =>
      have hs : e.side ≠ taker := hb.admissible ▸ taker.opposite_ne
      have hs' : ({ e with qty := e.qty - q } : Quote).side ≠ taker := hs
      rw [hL, levelOf_append, levelOf_append, levelOf_of_side_ne hs, levelOf_of_side_ne hs']

theorem makers_mem (h : Trade taker limit L q fs M r) :
    ∀ f ∈ fs, f.makerOrderId ∈ L.map Quote.id := by
  intro f hf
  obtain ⟨e, he, hid, -⟩ := h.fill_maker f hf
  exact hid ▸ List.mem_map_of_mem he

/-- In a book of distinct ids the makers have distinct ids. -/
theorem makers_nodup (h : Trade taker limit L q fs M r) (hL : (L.map Quote.id).Nodup) :
    (fs.map ObFill.makerOrderId).Nodup := by
  induction h with
  | filled => exact List.nodup_nil
  | away => exact List.nodup_nil
  | @take L A e B q fs L' r hq he' hb hc he ht ih =>
      rw [he', List.map_append, List.map_cons, List.nodup_middle, List.nodup_cons, ← List.map_append] at hL
      refine List.nodup_cons.mpr ⟨fun hm => ?_, ih hL.2⟩
      obtain ⟨f, hf, hid⟩ := List.mem_map.mp hm
      dsimp only at hid
      exact hL.1 (hid ▸ ht.makers_mem f hf)
  | part hq hL hb hc he => exact List.nodup_singleton _

end Trade

/-! ## 2. The state a taker meets and the state it leaves -/

/-- The orders at one price, front first; none if there is no level. -/
def OrderBookStateMachine.levelAt (m : OrderBookStateMachine) (side : ObSide) (price : ℕ) : Level :=
  (m.book side).getD price []

/-- **Conservation and frame**: a taker of `qty` that is reported as resting with `residual`. -/
structure Conserved (m m' : OrderBookStateMachine) (taker : ObSide) (limit id qty : ℕ)
    (fills : List ObFill) (residual : ℕ) : Prop where
  sum : (fills.map ObFill.qty).sum + residual = qty
  fills_pos : ∀ f ∈ fills, 1 ≤ f.qty
  makers : ∀ price, Settles (m.levelAt taker.opposite price) (fills.filter fun f => f.price = price)
    (m'.levelAt taker.opposite price)
  own : ∀ price, m'.levelAt taker price =
    m.levelAt taker price ++ if price = limit ∧ 0 < residual then [⟨id, residual⟩] else []

/-- The order `o` with the id `id` is gone from `m`, and nothing else has moved. -/
def Without (m : OrderBookStateMachine) (id : ℕ) (o : RestingOrder) (m' : OrderBookStateMachine) : Prop :=
  ∀ side price, m'.levelAt side price =
    if side = o.side ∧ price = o.price then (m.levelAt side price).eraseP (·.id = id)
    else m.levelAt side price

section States

variable {m m' : OrderBookStateMachine} {L A B M : List Quote} {e : Quote} {taker : ObSide}
  {limit id qty r : ℕ} {fs : List ObFill}

theorem Shows.levelAt (h : Shows m L) (side : ObSide) (price : ℕ) :
    m.levelAt side price = levelOf L side price := by
  rw [OrderBookStateMachine.levelAt, Std.ExtTreeMap.getD_eq_getD_getElem?, h.level]
  cases levelOf L side price <;> rfl

theorem conserved_of_placed (h : Shows m L) (h' : Shows m' M) (hpos : ∀ x ∈ L, 0 < x.qty)
    (hp : Placed taker limit id qty L fs M r) : Conserved m m' taker limit id qty fs r := by
  obtain ⟨N, ht, rfl⟩ := hp
  -- what rests is on the taker's side, at its limit
  have hrest : ∀ side price, levelOf (if r > 0 then N ++ [⟨id, taker, limit, r⟩] else N) side price =
      levelOf N side price ++
        if (side = taker ∧ price = limit) ∧ 0 < r then [⟨id, r⟩] else [] := by
    intro side price
    by_cases hr : r > 0
    · rw [if_pos hr, levelOf_append, levelOf_cons, levelOf_nil, List.append_nil]
      by_cases hn : side = taker ∧ price = limit
      · rw [if_pos ⟨hn.1.symm, hn.2.symm⟩, if_pos ⟨hn, hr⟩]
        rfl
      · rw [if_neg fun hh => hn ⟨hh.1.symm, hh.2.symm⟩, if_neg fun hh => hn hh.1]
    · rw [if_neg hr, if_neg fun hh => hr hh.2, List.append_nil]
  refine ⟨ht.sum, ht.fills_pos hpos, fun price => ?_, fun price => ?_⟩
  · rw [h.levelAt, h'.levelAt, hrest, if_neg fun hh => taker.opposite_ne hh.1.1, List.append_nil]
    exact ht.settles price
  · rw [h.levelAt, h'.levelAt, hrest, ht.own_side]
    congr 1
    exact if_congr (by simp) rfl rfl

theorem Located.order (h : Located m A e B) : m.order e.id = some ⟨e.side, e.price, e.qty⟩ := by
  unfold OrderBookStateMachine.order
  rw [h.index]
  dsimp only
  rw [h.level]
  dsimp only
  rw [h.find]
  rfl

/-- What `order` finds. -/
theorem Shows.located_of_order (h : Shows m L) {o : RestingOrder} (ho : m.order id = some o) :
    ∃ A e B, L = A ++ e :: B ∧ e.id = id ∧ o = ⟨e.side, e.price, e.qty⟩ ∧ Located m A e B := by
  cases hi : m.index[id]? with
  | none =>
      unfold order at ho
      rw [hi] at ho
      cases ho
  | some sp =>
      obtain ⟨A, e, B, rfl, rfl, hs, hp, hloc⟩ := h.locate hi
      exact ⟨A, e, B, rfl, rfl, Option.some.inj (ho.symm.trans hloc.order), hloc⟩

/-- `remove` takes out one order and moves none. -/
theorem Located.without (h : Located m A e B) (hS : Shows m (A ++ e :: B)) (hS' : Shows m' (A ++ B)) :
    Without m e.id ⟨e.side, e.price, e.qty⟩ m' := by
  intro side price
  rw [hS.levelAt, hS'.levelAt, levelOf_append, levelOf_append]
  by_cases hn : side = e.side ∧ price = e.price
  · obtain ⟨rfl, rfl⟩ := hn
    rw [if_pos ⟨rfl, rfl⟩, levelOf_cons_self]
    exact (eraseP_level (o := e.resting) h.first).symm
  · rw [if_neg hn, levelOf_cons_of_ne hn]

/-- An AMEND that moves the price or increases the quantity is a cancel-replace. -/
theorem Located.applyAmend_replace (h : Located m A e B) {price : ℕ}
    (hq : ¬ (price = e.price ∧ qty ≤ e.qty)) :
    m.applyAmend e.id price qty = m.cancelReplace e.side e.id price qty := by
  unfold OrderBookStateMachine.applyAmend
  rw [h.index]
  dsimp only
  by_cases hp : price = e.price
  · subst hp
    rw [if_pos rfl, h.level]
    dsimp only
    rw [h.find]
    dsimp only
    rw [if_neg fun hle : qty ≤ e.resting.qty => hq ⟨rfl, hle⟩]
  · rw [if_neg hp]

/-- An AMEND at the price of the order to no larger quantity changes the quantity only. -/
theorem Located.applyAmend_keep (h : Located m A e B) (hq : qty ≤ e.qty) :
    m.applyAmend e.id e.price qty = some (m.setBook e.side (putLevel (m.book e.side) e.price
      (levelOf (A ++ { e with qty := qty } :: B) e.side e.price)), okResult e.id qty []) := by
  unfold OrderBookStateMachine.applyAmend
  rw [h.index]
  dsimp only
  rw [if_pos rfl, h.level]
  dsimp only
  rw [h.find]
  dsimp only
  rw [if_pos (show qty ≤ e.resting.qty from hq), h.setQty]

end States

/-! ## 3. Commands after any run -/

/-- What is recorded of a command does not touch the levels. -/
theorem levelAt_recordResult (m : OrderBookStateMachine) (c n : ℕ) (r : Bytes) (side : ObSide) (price : ℕ) :
    (m.recordResult c n r).levelAt side price = m.levelAt side price := by
  obtain ⟨-, hb, ha, -⟩ := recordResult_index m c n r
  unfold levelAt
  rw [book_congr hb ha]

theorem Conserved.recordResult {m m' : OrderBookStateMachine} {taker : ObSide} {limit id qty r : ℕ}
    {fs : List ObFill} (h : Conserved m m' taker limit id qty fs r) (c n : ℕ) (b : Bytes) :
    Conserved m (m'.recordResult c n b) taker limit id qty fs r := by
  refine ⟨h.sum, h.fills_pos, fun price => ?_, fun price => ?_⟩
  · rw [levelAt_recordResult]
    exact h.makers price
  · rw [levelAt_recordResult]
    exact h.own price

theorem apply_executed {m m' : OrderBookStateMachine} {cmd r : Bytes} {hd : ObHeader} {p : ObPayload}
    (hp : parseOb cmd = some (hd, p)) (hc : m.cachedResult hd.clientId hd.seqNo = none)
    (hrun : m.applyPayload p = some (m', r)) :
    m.apply cmd = some (m'.recordResult hd.clientId hd.seqNo r, r) := by
  rw [apply_new hp hc, hrun]
  rfl

/-- **Quantity conservation and frame of matching**, for every command that is executed after any run:
    a NEW meets the book as it is, a cancel-replace AMEND meets it without the amended order. As long
    as fewer than `2 ^ 64` NEWs have counted the makers have distinct ids. -/
theorem matching_conserves {L : List Bytes} {m : OrderBookStateMachine} {cmd : Bytes} {hd : ObHeader}
    {p : ObPayload} (hL : OrderBookStateMachine.after L = some m) (hp : parseOb cmd = some (hd, p))
    (hc : m.cachedResult hd.clientId hd.seqNo = none) :
    (∀ side price qty, p = .new side price qty → ∃ m' fills residual,
      m.apply cmd = some (m', okResult m.nextOrderId residual fills) ∧
      Conserved m m' side price m.nextOrderId qty fills residual ∧
      (acceptedNews L < 2 ^ 64 → (fills.map ObFill.makerOrderId).Nodup)) ∧
    (∀ id price qty o, p = .amend id price qty → m.order id = some o →
      ¬ (price = o.price ∧ qty ≤ o.qty) → ∃ m₁ m' fills residual,
      m.remove id = some (m₁, o.qty) ∧ Without m id o m₁ ∧
      m.apply cmd = some (m', okResult id residual fills) ∧
      Conserved m₁ m' o.side price id qty fills residual ∧
      (acceptedNews L < 2 ^ 64 → (fills.map ObFill.makerOrderId).Nodup)) := by
  obtain ⟨m₀, Q, h⟩ := exists_reached L
  obtain rfl : m₀ = m := Option.some.inj (h.after.symm.trans hL)
  refine ⟨fun side price qty hpay => ?_, fun id price qty o hpay ho hq => ?_⟩
  · subst hpay
    obtain ⟨m', M, r, fs, hrun, hpl, hS, -⟩ :=
      execute_placed (h.shows.renumber _) h.sound.qty side price m₀.nextOrderId qty
    have hcons := conserved_of_placed h.shows hS h.sound.qty hpl
    refine ⟨_, fs, r, apply_executed hp hc hrun, hcons.recordResult _ _ _, fun hlt => ?_⟩
    obtain ⟨N, ht, -⟩ := hpl
    exact ht.makers_nodup (h.indexed hlt).1.nodup
  · subst hpay
    obtain ⟨A, e, B, rfl, rfl, rfl, hloc⟩ := h.shows.located_of_order ho
    obtain ⟨m₁, hrem, hS₁, -⟩ := hloc.remove h.shows
    have hpos : ∀ x ∈ A ++ B, 0 < x.qty := h.sound.drop.qty
    obtain ⟨m', M, r, fs, hrun, hpl, hS, -⟩ := execute_placed hS₁ hpos e.side price e.id qty
    have hpay : m₀.applyPayload (.amend e.id price qty) = some (m', okResult e.id r fs) := by
      show m₀.applyAmend e.id price qty = _
      rw [hloc.applyAmend_replace hq, cancelReplace, hrem]
      exact hrun
    have hcons := conserved_of_placed hS₁ hS hpos hpl
    refine ⟨m₁, _, fs, r, hrem, hloc.without h.shows hS₁, apply_executed hp hc hpay,
      hcons.recordResult _ _ _, fun hlt => ?_⟩
    obtain ⟨N, ht, -⟩ := hpl
    have hn := (h.indexed hlt).1.nodup
    rw [List.map_append, List.map_cons, List.nodup_middle, List.nodup_cons, ← List.map_append] at hn
    exact ht.makers_nodup hn.2

/-- A bid of 7 that takes an ask of 5 at 10 and part of one of 4 at 11, after those two NEWs. -/
theorem matching_conserves_sweep : ∃ m m' fills residual,
    OrderBookStateMachine.after [encodeObNew 0 0 .ask 10 5, encodeObNew 0 0 .ask 11 4] = some m ∧
      m.apply (encodeObNew 0 0 .bid 12 7) = some (m', okResult m.nextOrderId residual fills) ∧
      Conserved m m' .bid 12 m.nextOrderId 7 fills residual := by
  obtain ⟨m, Q, h⟩ := exists_reached [encodeObNew 0 0 .ask 10 5, encodeObNew 0 0 .ask 11 4]
  have hp : parseOb (encodeObNew 0 0 .bid 12 7) = some (⟨0, 0, .new⟩, .new .bid 12 7) := by decide +kernel
  obtain ⟨m', fills, residual, hr, hcons, -⟩ := (matching_conserves h.after hp rfl).1 .bid 12 7 rfl
  exact ⟨m, m', fills, residual, h.after, hr, hcons⟩

end Rsm.StateMachine
