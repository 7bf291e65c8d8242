/-
  File:      RaftRsm/StateMachine/PriceTime.lean
  Subject:   PRICE-TIME PRIORITY, without levels, indices or stamps: the book as the list of its
             resting orders, oldest first, and what the commands of the order book mean on it.

  * `Best` -- the order a taker meets first: of the best price, and of those the oldest;
  * `Trade` -- a taker that takes one best order after the other;
  * `Does` -- one command, from the book before it to the book after it and the result;
  * `Trade.unique`, `Does.unique` -- price-time priority leaves no choice;
  * `Sound`, `Does.sound` -- prices and quantities stay positive and the book stays uncrossed.
-/
import RaftRsm.Selection.FirstLeast
import RaftRsm.StateMachine.OrderBook
import Mathlib.Data.Int.Order.Basic

namespace Rsm.StateMachine

open Rsm.Rpc Selection

/-! ## 1. Orders and their priority -/

structure Quote where
  id : ℕ
  side : ObSide
  price : ℕ
  qty : ℕ
  deriving DecidableEq, Repr

@[simp] theorem ObSide.opposite_opposite (s : ObSide) : s.opposite.opposite = s := by cases s <;> rfl

theorem ObSide.opposite_ne (s : ObSide) : s.opposite ≠ s := by cases s <;> decide

theorem ObSide.eq_opposite_iff {s t : ObSide} : s = t.opposite ↔ s ≠ t := by
  cases s <;> cases t <;> decide

/-- How far a price is from what a taker wants: the smaller the better. -/
def rank (taker : ObSide) (price : ℕ) : ℤ :=
  match taker with
  | .bid => price
  | .ask => -price

theorem rank_inj {taker : ObSide} {p q : ℕ} (h : rank taker p = rank taker q) : p = q := by
  cases taker <;> unfold rank at h <;> dsimp only at h <;> omega

theorem crosses_iff {taker : ObSide} {price limit : ℕ} :
    crosses taker price limit = true ↔ rank taker price ≤ rank taker limit := by
  cases taker <;> simp [crosses, rank]

theorem rank_opposite {taker : ObSide} {p q : ℕ} :
    rank taker.opposite p < rank taker.opposite q ↔ rank taker q < rank taker p := by
  cases taker <;> simp [rank, ObSide.opposite]

/-- In the book `A ++ e :: B` the taker meets `e` first. -/
abbrev Best (taker : ObSide) : List Quote → Quote → List Quote → Prop :=
  FirstLeast (fun x => x.side = taker.opposite) fun x => rank taker x.price

/-! ## 2. Trades -/

/-- The taker trades `qty` down to `r` against the book `L`, which leaves `L'`. -/
inductive Trade (taker : ObSide) (limit : ℕ) :
    List Quote → ℕ → List ObFill → List Quote → ℕ → Prop where
  | filled {L} : Trade taker limit L 0 [] L 0
  | away {L q} (hq : 0 < q)
      (h : ∀ x ∈ L, x.side = taker.opposite → rank taker limit < rank taker x.price) :
      Trade taker limit L q [] L q
  | take {L A e B q fs L' r} (hq : 0 < q) (hL : L = A ++ e :: B) (hb : Best taker A e B)
      (hc : rank taker e.price ≤ rank taker limit) (he : e.qty ≤ q)
      (ht : Trade taker limit (A ++ B) (q - e.qty) fs L' r) :
      Trade taker limit L q (⟨e.id, e.price, e.qty⟩ :: fs) L' r
  | part {L A e B q} (hq : 0 < q) (hL : L = A ++ e :: B) (hb : Best taker A e B)
      (hc : rank taker e.price ≤ rank taker limit) (he : q < e.qty) :
      Trade taker limit L q [⟨e.id, e.price, q⟩] (A ++ { e with qty := e.qty - q } :: B) 0

namespace Trade

variable {taker : ObSide} {limit q r r' : ℕ} {L L' M M' : List Quote} {fs fs' : List ObFill}

theorem not_away {A B : List Quote} {e : Quote} (hb : Best taker A e B)
    (hc : rank taker e.price ≤ rank taker limit) (h : ∀ x ∈ A ++ e :: B, x.side = taker.opposite →
      rank taker limit < rank taker x.price) : False :=
  absurd (h e (by simp) hb.admissible) (not_lt_of_ge hc)

/-- **Price-time priority leaves no choice.** -/
theorem unique (h : Trade taker limit L q fs M r) : ∀ {fs' M' r'}, Trade taker limit L q fs' M' r' →
    fs = fs' ∧ M = M' ∧ r = r' := by
  induction h with
  | filled =>
      intro fs' M' r' h'
      cases h' with
      | filled => exact ⟨rfl, rfl, rfl⟩
      | away hq => cases hq
      | take hq => cases hq
      | part hq => cases hq
  | away hq h =>
      intro fs' M' r' h'
      cases h' with
      | filled => cases hq
      | away => exact ⟨rfl, rfl, rfl⟩
      | take _ hL hb hc => exact (not_away hb hc (hL ▸ h)).elim
      | part _ hL hb hc => exact (not_away hb hc (hL ▸ h)).elim
  | take hq hL hb hc he ht ih =>
      intro fs' M' r' h'
      cases h' with
      | filled => cases hq
      | away _ h => exact (not_away hb hc (hL ▸ h)).elim
      | take _ hL' hb' _ _ ht' =>
          obtain ⟨rfl, rfl, rfl⟩ := hb.unique hb' (hL.symm.trans hL')
          obtain ⟨rfl, rfl, rfl⟩ := ih ht'
          exact ⟨rfl, rfl, rfl⟩
      | part _ hL' hb' _ he' =>
          obtain ⟨-, rfl, -⟩ := hb.unique hb' (hL.symm.trans hL')
          exact absurd he (Nat.not_le_of_lt he')
  | part hq hL hb hc he =>
      intro fs' M' r' h'
      cases h' with
      | filled => cases hq
      | away _ h => exact (not_away hb hc (hL ▸ h)).elim
      | take _ hL' hb' _ he' =>
          obtain ⟨-, rfl, -⟩ := hb.unique hb' (hL.symm.trans hL')
          exact absurd he' (Nat.not_le_of_lt he)
      | part _ hL' hb' =>
          obtain ⟨rfl, rfl, rfl⟩ := hb.unique hb' (hL.symm.trans hL')
          exact ⟨rfl, rfl, rfl⟩

/-- A taker stops when it is filled, or when nothing crosses any more. -/
theorem stops (h : Trade taker limit L q fs M r) : r = 0 ∨
    ∀ x ∈ M, x.side = taker.opposite → rank taker limit < rank taker x.price := by
  induction h with
  | filled => exact .inl rfl
  | away hq h => exact .inr h
  | take hq hL hb hc he ht ih => exact ih
  | part => exact .inl rfl

/-- What is left of an order is the order with a quantity that is no larger, and not none of it. -/
theorem mem (h : Trade taker limit L q fs M r) : ∀ x ∈ M, ∃ y ∈ L, x = { y with qty := x.qty } ∧
    x.qty ≤ y.qty ∧ (0 < y.qty → 0 < x.qty) := by
  have hself : ∀ x : Quote, x = { x with qty := x.qty } ∧ x.qty ≤ x.qty ∧ (0 < x.qty → 0 < x.qty) :=
    fun x => ⟨rfl, Nat.le_refl _, fun h => h⟩
  induction h with
  | filled => exact fun x hx => ⟨x, hx, hself x⟩
  | away => exact fun x hx => ⟨x, hx, hself x⟩
  | take hq hL hb hc he ht ih =>
      intro x hx
      obtain ⟨y, hy, h⟩ := ih x hx
      refine ⟨y, ?_, h⟩
      rw [hL]
      exact mem_of_taken hy
  | @part L A e B q hq hL hb hc he =>
      intro x hx
      rcases List.mem_append.mp hx with hx | hx
      · exact ⟨x, by simp [hL, hx], hself x⟩
      · rcases List.mem_cons.mp hx with rfl | hx
        · refine ⟨e, by simp [hL], rfl, Nat.sub_le _ _, fun _ => Nat.sub_pos_of_lt he⟩
        · exact ⟨x, by simp [hL, hx], hself x⟩

/-- The ids keep their order, and none is added. -/
theorem ids (h : Trade taker limit L q fs M r) : (M.map Quote.id).Sublist (L.map Quote.id) := by
  induction h with
  | filled => exact List.Sublist.refl _
  | away => exact List.Sublist.refl _
  | take hq hL hb hc he ht ih =>
      refine ih.trans ?_
      rw [hL, List.map_append, List.map_append]
      exact List.Sublist.append_left (List.sublist_cons_self _ _) _
  | part hq hL hb hc he =>
      rw [hL, List.map_append, List.map_append]
      exact List.Sublist.refl _

end Trade

/-! ## 3. Commands -/

/-- A taker trades, and rests behind all others with what is left of it. -/
def Placed (side : ObSide) (price id qty : ℕ) (L : List Quote) (fs : List ObFill) (M : List Quote)
    (r : ℕ) : Prop :=
  ∃ L', Trade side price L qty fs L' r ∧ M = if r > 0 then L' ++ [⟨id, side, price, r⟩] else L'

/-- One command on the book `L`, where the next order gets the id `next` and the ids that can be
    found are those that are `Known`. -/
inductive Does (Known : ℕ → Prop) (next : ℕ) (L : List Quote) :
    ObPayload → List Quote → Bytes → Prop where
  | new {side price qty fs M r} (h : Placed side price next qty L fs M r) :
      Does Known next L (.new side price qty) M (okResult next r fs)
  | cancelUnknown {id} (hk : ¬ Known id) : Does Known next L (.cancel id) L [kObReject]
  | cancel {A e B} (hk : Known e.id) (hL : L = A ++ e :: B) :
      Does Known next L (.cancel e.id) (A ++ B) (okResult e.id e.qty [])
  | amendUnknown {id price qty} (hk : ¬ Known id) :
      Does Known next L (.amend id price qty) L [kObReject]
  | amendKeep {A e B qty} (hk : Known e.id) (hL : L = A ++ e :: B) (hq : qty ≤ e.qty) :
      Does Known next L (.amend e.id e.price qty) (A ++ { e with qty := qty } :: B)
        (okResult e.id qty [])
  | amendMove {A e B price qty fs M r} (hk : Known e.id) (hL : L = A ++ e :: B)
      (hq : ¬ (price = e.price ∧ qty ≤ e.qty)) (h : Placed e.side price e.id qty (A ++ B) fs M r) :
      Does Known next L (.amend e.id price qty) M (okResult e.id r fs)

/-- The only order with its id, in a book of distinct ids. -/
theorem split_unique {A A' B B' : List Quote} {e e' : Quote}
    (hn : ((A ++ e :: B).map Quote.id).Nodup) (hs : A ++ e :: B = A' ++ e' :: B')
    (hid : e.id = e'.id) : A = A' ∧ e = e' ∧ B = B' := by
  have h1 : (A ++ e :: B).map Quote.id = A.map Quote.id ++ e.id :: B.map Quote.id := by simp
  have h2 : (A ++ e :: B).map Quote.id = A'.map Quote.id ++ e.id :: B'.map Quote.id := by
    rw [hs, hid]; simp
  rw [h1, List.nodup_middle, List.nodup_cons, List.mem_append, not_or] at hn
  obtain ⟨⟨hA, hB⟩, -⟩ := hn
  have hlen : A.length = A'.length := by
    have := (List.append_cons_inj_of_notMem hA hB).mp (h1.symm.trans h2)
    simpa using congrArg List.length this.1
  obtain ⟨hA, heB⟩ := List.append_inj hs hlen
  exact ⟨hA, List.cons.inj heB⟩

theorem Placed.unique {side : ObSide} {price id qty r r' : ℕ} {L M M' : List Quote}
    {fs fs' : List ObFill} (h : Placed side price id qty L fs M r)
    (h' : Placed side price id qty L fs' M' r') : fs = fs' ∧ M = M' ∧ r = r' := by
  obtain ⟨N, ht, rfl⟩ := h
  obtain ⟨N', ht', rfl⟩ := h'
  obtain ⟨rfl, rfl, rfl⟩ := ht.unique ht'
  exact ⟨rfl, rfl, rfl⟩

/-- **A command has one outcome**, if the ids that can be found are those of the book and distinct. -/
theorem Does.unique {Known : ℕ → Prop} {next : ℕ} {L M M' : List Quote} {p : ObPayload}
    {r r' : Bytes} (hn : (L.map Quote.id).Nodup) (hd : Does Known next L p M r)
    (hd' : Does Known next L p M' r') : M = M' ∧ r = r' := by
  cases hd with
  | new h =>
      cases hd' with
      | new h' =>
          obtain ⟨rfl, rfl, rfl⟩ := h.unique h'
          exact ⟨rfl, rfl⟩
  | cancelUnknown hk =>
      cases hd' with
      | cancelUnknown => exact ⟨rfl, rfl⟩
      | cancel hk' => exact absurd hk' hk
  | @cancel A e B hk hL =>
      generalize hid : e.id = i at hk hd'
      cases hd' with
      | cancelUnknown hk' => exact absurd hk hk'
      | cancel hk' hL' =>
          obtain ⟨rfl, rfl, rfl⟩ := split_unique (hL ▸ hn) (hL.symm.trans hL') hid
          exact ⟨rfl, rfl⟩
  | amendUnknown hk =>
      cases hd' with
      | amendUnknown => exact ⟨rfl, rfl⟩
      | amendKeep hk' => exact absurd hk' hk
      | amendMove hk' => exact absurd hk' hk
  | @amendKeep A e B qty hk hL hq =>
      generalize hid : e.id = i at hk hd'
      generalize hpr : e.price = c at hd'
      cases hd' with
      | amendUnknown hk' => exact absurd hk hk'
      | amendKeep hk' hL' hq' =>
          obtain ⟨rfl, rfl, rfl⟩ := split_unique (hL ▸ hn) (hL.symm.trans hL') hid
          exact ⟨rfl, rfl⟩
      | amendMove hk' hL' hq' h' =>
          obtain ⟨rfl, rfl, rfl⟩ := split_unique (hL ▸ hn) (hL.symm.trans hL') hid
          exact absurd ⟨hpr.symm, hq⟩ hq'
  | @amendMove A e B price qty fs M r hk hL hq h =>
      generalize hid : e.id = i at hk hd'
      cases hd' with
      | amendUnknown hk' => exact absurd hk hk'
      | amendKeep hk' hL' hq' =>
          obtain ⟨rfl, rfl, rfl⟩ := split_unique (hL ▸ hn) (hL.symm.trans hL') hid
          exact absurd ⟨rfl, hq'⟩ hq
      | amendMove hk' hL' hq' h' =>
          obtain ⟨rfl, rfl, rfl⟩ := split_unique (hL ▸ hn) (hL.symm.trans hL') hid
          obtain ⟨rfl, rfl, rfl⟩ := h.unique h'
          exact ⟨rfl, rfl⟩

def ObPayload.isNew : ObPayload → Bool
  | .new _ _ _ => true
  | _ => false

theorem Placed.ids {side : ObSide} {price id qty r : ℕ} {L M : List Quote} {fs : List ObFill}
    (h : Placed side price id qty L fs M r) : ∀ x ∈ M, x.id ∈ L.map Quote.id ∨ x.id = id := by
  obtain ⟨N, ht, rfl⟩ := h
  intro x hx
  have hN : ∀ y ∈ N, y.id ∈ L.map Quote.id := fun y hy => ht.ids.subset (List.mem_map_of_mem hy)
  split at hx
  · rcases List.mem_append.mp hx with hx | hx
    · exact .inl (hN x hx)
    · rw [List.mem_singleton.mp hx]
      exact .inr rfl
  · exact .inl (hN x hx)

/-- Only NEW adds an id, the next one. -/
theorem Does.ids {Known : ℕ → Prop} {next : ℕ} {L M : List Quote} {p : ObPayload} {r : Bytes}
    (h : Does Known next L p M r) :
    ∀ x ∈ M, x.id ∈ L.map Quote.id ∨ p.isNew = true ∧ x.id = next := by
  cases h with
  | new h => exact fun x hx => (h.ids x hx).imp_right fun hid => ⟨rfl, hid⟩
  | cancelUnknown => exact fun x hx => .inl (List.mem_map_of_mem hx)
  | cancel hk hL =>
      subst hL
      intro x hx
      left
      rw [List.mem_map]
      exact ⟨x, mem_of_taken hx, rfl⟩
  | amendUnknown => exact fun x hx => .inl (List.mem_map_of_mem hx)
  | amendKeep hk hL hq =>
      subst hL
      intro x hx
      left
      have := List.mem_map_of_mem (f := Quote.id) hx
      simpa using this
  | amendMove hk hL hq h =>
      subst hL
      intro x hx
      left
      have := h.ids x hx
      simp only [List.map_append, List.mem_append, List.map_cons, List.mem_cons] at this ⊢
      tauto

/-! ## 4. Sound books -/

/-- Prices and quantities are positive, and no two orders of opposite sides cross. -/
structure Sound (L : List Quote) : Prop where
  price : ∀ x ∈ L, 0 < x.price
  qty : ∀ x ∈ L, 0 < x.qty
  uncrossed : ∀ x ∈ L, ∀ y ∈ L, y.side = x.side.opposite → rank x.side x.price < rank x.side y.price

namespace Sound

variable {L M : List Quote}

theorem nil : Sound [] :=
  ⟨fun _ h => (List.not_mem_nil h).elim, fun _ h => (List.not_mem_nil h).elim,
    fun _ h => (List.not_mem_nil h).elim⟩

/-- Orders that are left, perhaps with another quantity, are still sound. -/
theorem of_mem (h : Sound L)
    (hM : ∀ x ∈ M, 0 < x.qty ∧ ∃ y ∈ L, x = { y with qty := x.qty }) : Sound M := by
  have hM' : ∀ x ∈ M, ∃ y ∈ L, y.side = x.side ∧ y.price = x.price := by
    intro x hx
    obtain ⟨-, y, hy, he⟩ := hM x hx
    exact ⟨y, hy, by rw [he], by rw [he]⟩
  refine ⟨fun x hx => ?_, fun x hx => (hM x hx).1, fun x hx y hy hxy => ?_⟩
  · obtain ⟨x', hx', -, hp⟩ := hM' x hx
    exact hp ▸ h.price x' hx'
  · obtain ⟨x', hx', hs, hp⟩ := hM' x hx
    obtain ⟨y', hy', hs', hp'⟩ := hM' y hy
    rw [← hs, ← hp, ← hp']
    exact h.uncrossed x' hx' y' hy' (by rw [hs', hs, hxy])

theorem trade (h : Sound L) {taker : ObSide} {limit q r : ℕ} {fs : List ObFill}
    (ht : Trade taker limit L q fs M r) : Sound M := by
  refine h.of_mem fun x hx => ?_
  obtain ⟨y, hy, he, -, hpos⟩ := ht.mem x hx
  exact ⟨hpos (h.qty y hy), y, hy, he⟩

/-- An order that crosses nothing may rest. -/
theorem rest (h : Sound L) {e : Quote} (hp : 0 < e.price) (hq : 0 < e.qty)
    (he : ∀ x ∈ L, x.side = e.side.opposite → rank e.side e.price < rank e.side x.price) :
    Sound (L ++ [e]) := by
  refine ⟨fun x hx => ?_, fun x hx => ?_, fun x hx y hy hxy => ?_⟩
  · rcases List.mem_append.mp hx with hx | hx
    · exact h.price x hx
    · rwa [List.mem_singleton.mp hx]
  · rcases List.mem_append.mp hx with hx | hx
    · exact h.qty x hx
    · rwa [List.mem_singleton.mp hx]
  · rcases List.mem_append.mp hx with hxL | hxe
    · rcases List.mem_append.mp hy with hyL | hye
      · exact h.uncrossed x hxL y hyL hxy
      · rw [List.mem_singleton.mp hye] at hxy ⊢
        have hxs : x.side = e.side.opposite := by rw [hxy, ObSide.opposite_opposite]
        rw [hxs]
        exact rank_opposite.mpr (he x hxL hxs)
    · rw [List.mem_singleton.mp hxe] at hxy ⊢
      rcases List.mem_append.mp hy with hyL | hye
      · exact he y hyL hxy
      · rw [List.mem_singleton.mp hye] at hxy
        exact absurd hxy.symm e.side.opposite_ne

theorem placed (h : Sound L) {side : ObSide} {price id qty r : ℕ} {fs : List ObFill}
    (hp : 0 < price) (ht : Placed side price id qty L fs M r) : Sound M := by
  obtain ⟨N, ht, rfl⟩ := ht
  have hN := h.trade ht
  split
  · rename_i hr
    refine hN.rest hp hr ?_
    rcases ht.stops with h0 | h0
    · exact absurd h0 (Nat.pos_iff_ne_zero.mp hr)
    · exact h0
  · exact hN

theorem drop {A B : List Quote} {e : Quote} (h : Sound (A ++ e :: B)) : Sound (A ++ B) := by
  refine h.of_mem fun x hx => ?_
  have hx' : x ∈ A ++ e :: B :=
    mem_of_taken hx
  exact ⟨h.qty x hx', x, hx', rfl⟩

theorem setQty {A B : List Quote} {e : Quote} {q : ℕ} (h : Sound (A ++ e :: B)) (hq : 0 < q) :
    Sound (A ++ { e with qty := q } :: B) := by
  refine h.of_mem fun x hx => ?_
  rcases List.mem_append.mp hx with hx | hx
  · have hx' : x ∈ A ++ e :: B := List.mem_append_left _ hx
    exact ⟨h.qty x hx', x, hx', rfl⟩
  · rcases List.mem_cons.mp hx with rfl | hx
    · exact ⟨hq, e, by simp, rfl⟩
    · have hx' : x ∈ A ++ e :: B := List.mem_append_right _ (List.mem_cons_of_mem _ hx)
      exact ⟨h.qty x hx', x, hx', rfl⟩

end Sound

/-- What a payload that is read carries. -/
def ObPayload.Positive : ObPayload → Prop
  | .new _ price qty => 0 < price ∧ 0 < qty
  | .cancel _ => True
  | .amend _ price qty => 0 < price ∧ 0 < qty

/-- **A command keeps the book sound**: it never comes to be crossed. -/
theorem Does.sound {Known : ℕ → Prop} {next : ℕ} {L M : List Quote} {p : ObPayload} {r : Bytes}
    (h : Does Known next L p M r) (hL : Sound L) (hp : p.Positive) : Sound M := by
  cases h with
  | new h => exact hL.placed hp.1 h
  | cancelUnknown => exact hL
  | cancel hk he => exact (he ▸ hL).drop
  | amendUnknown => exact hL
  | amendKeep hk he hq => exact (he ▸ hL).setQty hp.2
  | amendMove hk he hq h => exact (he ▸ hL).drop.placed hp.1 h

end Rsm.StateMachine
