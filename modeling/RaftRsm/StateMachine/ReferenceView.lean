/-
  File:      RaftRsm/StateMachine/ReferenceView.lean
  Subject:   How the flat vector of the reference matcher READS as the book of `PriceTime`, and that
             each of its commands does there what `PriceTime` says.

  * `readHeader_eq`, `readPayload_eq` -- both matchers read the same commands;
  * `scan_best` -- the scan by price and stamp finds the best order, if stamps grow along the vector;
  * `fillLoop_trade`, `applyOp_steps`, `applyOp_malformed` -- the loop and the commands.
-/
import RaftRsm.StateMachine.BookView
import RaftRsm.StateMachine.ReferenceMatcher

namespace ObRef

open Rsm.Rpc Rsm.StateMachine Selection

/-! ## 1. Reading commands -/

theorem readAt_le {n pos v pos' : ℕ} {b : Bytes} (h : readAt n b pos = some (v, pos')) :
    pos' ≤ b.length := by
  unfold readAt at h
  split_ifs at h with hc
  cases h
  omega

theorem uint_at {n : ℕ} (hn : 0 < n) (b : Bytes) (pos : ℕ) :
    Reader.uint n ⟨b.drop pos, true⟩ = match readAt n b pos with
      | some (v, pos') => (v, ⟨b.drop pos', true⟩)
      | none => (0, ⟨b.drop pos, false⟩) := by
  unfold Reader.uint Reader.readBytes Reader.remaining readAt
  by_cases hc : pos + n > b.length
  · have hlt : b.length - pos < n := by omega
    simp [hc, hlt]
  · have hle : ¬ b.length - pos < n := by omega
    simp [hc, hle]

theorem u64_at (b : Bytes) (pos : ℕ) : Reader.u64 ⟨b.drop pos, true⟩ = match u64 b pos with
    | some (v, pos') => (v, ⟨b.drop pos', true⟩)
    | none => (0, ⟨b.drop pos, false⟩) := uint_at (by decide) b pos

theorem u8_at (b : Bytes) (pos : ℕ) : Reader.u8 ⟨b.drop pos, true⟩ = match u8 b pos with
    | some (v, pos') => (v, ⟨b.drop pos', true⟩)
    | none => (0, ⟨b.drop pos, false⟩) := uint_at (by decide) b pos

@[simp] theorem u64_failed (rest : Bytes) : Reader.u64 ⟨rest, false⟩ = (0, ⟨rest, false⟩) :=
  Reader.uint_failed 8 rest

@[simp] theorem u8_failed (rest : Bytes) : Reader.u8 ⟨rest, false⟩ = (0, ⟨rest, false⟩) :=
  Reader.uint_failed 1 rest

theorem ofByte_eq_none {op : ℕ} : ObOp.ofByte op = none ↔ op < 1 ∨ op > 3 := by
  match op with
  | 0 => simp [ObOp.ofByte]
  | 1 => simp [ObOp.ofByte]
  | 2 => simp [ObOp.ofByte]
  | 3 => simp [ObOp.ofByte]
  | n + 4 => simp [ObOp.ofByte]

theorem ofByte_eq_some {op : ℕ} {o : ObOp} (h : ObOp.ofByte op = some o) : op = o.toByte := by
  match op with
  | 0 => cases h
  | 1 => cases h; rfl
  | 2 => cases h; rfl
  | 3 => cases h; rfl
  | n + 4 => cases h

/-- **Both matchers read the same identities.** -/
theorem readHeader_eq (cmd : Bytes) : readHeader cmd = (readIdentity cmd).bind fun x =>
    (ObOp.ofByte x.2.2.1).map fun op => (⟨x.1, x.2.1, op⟩, ⟨cmd.drop x.2.2.2, true⟩) := by
  unfold readHeader readIdentity
  have h0 : (⟨cmd, true⟩ : Reader) = ⟨cmd.drop 0, true⟩ := by simp
  rw [h0]
  dsimp only
  rw [u64_at]
  cases u64 cmd 0 with
  | none => simp
  | some x =>
      obtain ⟨c, p⟩ := x
      simp only [u64_at, Option.bind_eq_bind, Option.bind_some]
      cases u64 cmd p with
      | none => simp
      | some x =>
          obtain ⟨s, p⟩ := x
          simp only [u8_at, Option.bind_some]
          cases u8 cmd p with
          | none => simp
          | some x =>
              obtain ⟨op, p⟩ := x
              simp only [Bool.not_true, Bool.false_eq_true, if_false, Option.bind_some]
              cases ho : ObOp.ofByte op with
              | none =>
                  rw [if_pos (ofByte_eq_none.mp ho)]
                  rfl
              | some o =>
                  have hn : ¬ (op < 1 ∨ op > 3) := by
                    rw [← ofByte_eq_none, ho]
                    simp
                  rw [if_neg hn, Option.bind_some, ho]
                  rfl

/-- A reader that has come to a position is at the end if the position is. -/
theorem not_exhausted {b : Bytes} {pos : ℕ} (h : pos ≤ b.length) :
    (!Reader.ok ⟨b.drop pos, true⟩ || !Reader.exhausted ⟨b.drop pos, true⟩) = true ↔
      pos ≠ b.length := by
  simp [Reader.exhausted]
  omega

/-- The payload as the reference reads it. -/
def readPayloadAt (op : ObOp) (cmd : Bytes) (pos : ℕ) : Option ObPayload :=
  match op with
  | .new => (readNew cmd pos).bind fun x => (ObSide.ofByte x.1).map fun s => .new s x.2.1 x.2.2
  | .cancel => (readCancel cmd pos).map .cancel
  | .amend => (readAmend cmd pos).map fun x => .amend x.1 x.2.1 x.2.2

theorem sideOfByte_eq_none {side : ℕ} : ObSide.ofByte side = none ↔ side > 1 := by
  match side with
  | 0 => simp [ObSide.ofByte]
  | 1 => simp [ObSide.ofByte]
  | n + 2 => simp [ObSide.ofByte]

/-- **Both matchers read the same payloads.** -/
theorem readPayload_eq (op : ObOp) (cmd : Bytes) (pos : ℕ) :
    readPayload op ⟨cmd.drop pos, true⟩ = readPayloadAt op cmd pos := by
  unfold readPayload readPayloadAt
  cases op with
  | new =>
      dsimp only
      unfold readNew
      rw [u8_at]
      cases u8 cmd pos with
      | none => simp
      | some x =>
          obtain ⟨side, p⟩ := x
          simp only [u64_at, Option.bind_eq_bind, Option.bind_some]
          cases u64 cmd p with
          | none => simp
          | some x =>
              obtain ⟨price, p⟩ := x
              simp only [u64_at, Option.bind_some]
              cases hq : u64 cmd p with
              | none => simp
              | some x =>
                  obtain ⟨qty, p'⟩ := x
                  have hle : p' ≤ cmd.length := readAt_le hq
                  simp only [not_exhausted hle, Option.bind_some]
                  by_cases he : p' = cmd.length
                  · cases hs : ObSide.ofByte side with
                    | none => simp [he, sideOfByte_eq_none.mp hs]
                    | some s =>
                        have hn : ¬ side > 1 := by
                          rw [← sideOfByte_eq_none, hs]
                          simp
                        by_cases h0 : price = 0 ∨ qty = 0 <;> simp [he, hs, hn, h0]
                  · simp [he]
  | cancel =>
      dsimp only
      unfold readCancel
      rw [u64_at]
      cases hq : u64 cmd pos with
      | none => simp
      | some x =>
          obtain ⟨id, p'⟩ := x
          have hle : p' ≤ cmd.length := readAt_le hq
          simp only [not_exhausted hle, Option.bind_eq_bind, Option.bind_some]
          by_cases he : p' = cmd.length <;> simp [he]
  | amend =>
      dsimp only
      unfold readAmend
      rw [u64_at]
      cases u64 cmd pos with
      | none => simp
      | some x =>
          obtain ⟨id, p⟩ := x
          simp only [u64_at, Option.bind_eq_bind, Option.bind_some]
          cases u64 cmd p with
          | none => simp
          | some x =>
              obtain ⟨price, p⟩ := x
              simp only [u64_at, Option.bind_some]
              cases hq : u64 cmd p with
              | none => simp
              | some x =>
                  obtain ⟨qty, p'⟩ := x
                  have hle : p' ≤ cmd.length := readAt_le hq
                  simp only [not_exhausted hle, Option.bind_some]
                  by_cases he : p' = cmd.length
                  · by_cases h0 : price = 0 ∨ qty = 0 <;> simp [he, h0]
                  · simp [he]

/-! ## 2. The vector as a book -/

def sideOf (side : ℕ) : ObSide := if side = 0 then .bid else .ask

def Order.quote (o : Order) : Quote := ⟨o.id, sideOf o.side, o.price, o.qty⟩

/-- What never changes in an order of the vector. -/
def Order.stamp (o : Order) : ℕ × ℕ := (o.side, o.arrival)

/-- The orders stand in the vector as they arrived, and have one of the two sides. -/
structure Stamped (l : List (ℕ × ℕ)) : Prop where
  sides : ∀ x ∈ l, x.1 ≤ 1
  arrivals : l.Pairwise fun x y => x.2 < y.2

theorem Stamped.sublist {l l' : List (ℕ × ℕ)} (h : Stamped l) (hl : l'.Sublist l) : Stamped l' :=
  ⟨fun x hx => h.sides x (hl.subset hx), h.arrivals.sublist hl⟩

theorem sideOfByte_eq_some {n : ℕ} {s : ObSide} (h : ObSide.ofByte n = some s) :
    n ≤ 1 ∧ sideOf n = s := by
  match n with
  | 0 => cases h; exact ⟨Nat.zero_le _, rfl⟩
  | 1 => cases h; exact ⟨Nat.le_refl _, rfl⟩
  | n + 2 => cases h

theorem sideOf_eq_opposite {s t : ℕ} (hs : s ≤ 1) (ht : t ≤ 1) :
    sideOf s = (sideOf t).opposite ↔ s ≠ t := by
  have hs' : s = 0 ∨ s = 1 := by omega
  have ht' : t = 0 ∨ t = 1 := by omega
  rcases hs' with rfl | rfl <;> rcases ht' with rfl | rfl <;> decide

theorem crosses_at {side price p : ℕ} (hs : side ≤ 1) :
    (if side = 0 then p ≤ price else p ≥ price : Bool) = true ↔
      rank (sideOf side) p ≤ rank (sideOf side) price := by
  have hs' : side = 0 ∨ side = 1 := by omega
  rcases hs' with rfl | rfl <;> simp [sideOf, rank]

/-- What a taker can trade with. -/
def Tradable (side price : ℕ) (o : Order) : Prop :=
  o.quote.side = (sideOf side).opposite ∧ rank (sideOf side) o.quote.price ≤ rank (sideOf side) price

/-- Where the best order of a vector is. -/
def BestAt (side price : ℕ) (P : List Order) : Option (ℕ × Order) → Prop
  | none => ∀ o ∈ P, ¬ Tradable side price o
  | some (i, e) => ∃ A B, P = A ++ e :: B ∧ i = A.length ∧
      FirstLeast (Tradable side price) (fun o => rank (sideOf side) o.quote.price) A e B

section Scan

variable {side price : ℕ} {P book : List Order} {o : Order} {best : Option (ℕ × Order)}

theorem BestAt.skip (h : BestAt side price P best) (ho : ¬ Tradable side price o) :
    BestAt side price (P ++ [o]) best := by
  match best with
  | none =>
      intro x hx
      rcases List.mem_append.mp hx with hx | hx
      · exact h x hx
      · rwa [List.mem_singleton.mp hx]
  | some (i, e) =>
      obtain ⟨A, B, rfl, rfl, hf⟩ := h
      exact ⟨A, B ++ [o], by simp, rfl, hf.keep fun hok => absurd hok ho⟩

/-- A later order is better only if its price is. -/
theorem better_iff {e : Order} (hs : side ≤ 1) (ha : e.arrival < o.arrival) :
    better .none side o e = true ↔
      rank (sideOf side) o.quote.price < rank (sideOf side) e.quote.price := by
  have hs' : side = 0 ∨ side = 1 := by omega
  have hna : ¬ o.arrival < e.arrival := by omega
  unfold better
  by_cases hp : o.price = e.price
  · rcases hs' with rfl | rfl <;> simp [hp, hna, Order.quote]
  · rcases hs' with rfl | rfl <;> simp [hp, sideOf, rank, Order.quote]

theorem BestAt.offer (h : BestAt side price P best) (hs : side ≤ 1) (ho : Tradable side price o)
    (ha : ∀ x ∈ P, x.arrival < o.arrival) :
    BestAt side price (P ++ [o]) (bestOf .none side P.length o best) := by
  match best with
  | none => exact ⟨P, [], rfl, rfl, firstLeast_snoc h ho⟩
  | some (i, e) =>
      obtain ⟨A, B, rfl, rfl, hf⟩ := h
      have hb := better_iff (o := o) hs (ha e (by simp))
      dsimp only [bestOf]
      split
      · rename_i hbet
        exact ⟨A ++ e :: B, [], rfl, rfl, hf.improve ho (hb.mp hbet)⟩
      · rename_i hbet
        exact ⟨A, B ++ [o], by simp, rfl, hf.keep fun _ => not_lt.mp (mt hb.mpr hbet)⟩

/-- **The scan finds the best order.** -/
theorem scan_best (price : ℕ) (hs : side ≤ 1) : ∀ {book P : List Order} {best : Option (ℕ × Order)},
    Stamped ((P ++ book).map Order.stamp) → BestAt side price P best →
      BestAt side price (P ++ book) (scan .none side price P.length best book) := by
  intro book
  induction book with
  | nil =>
      intro P best _ h
      rw [List.append_nil]
      exact h
  | cons o book ih =>
      intro P best hst h
      have hlen : P.length + 1 = (P ++ [o]).length := by simp
      have hsplit : P ++ o :: book = P ++ [o] ++ book := by simp
      have hos : o.side ≤ 1 := hst.sides o.stamp (by simp)
      have hst' : Stamped ((P ++ [o] ++ book).map Order.stamp) := hsplit ▸ hst
      rw [hsplit]
      unfold scan
      rw [hlen]
      by_cases hside : o.side = side
      · rw [if_pos hside]
        refine ih hst' (h.skip fun ht => ?_)
        exact (sideOf_eq_opposite hos hs).mp ht.1 hside
      rw [if_neg hside]
      by_cases hc : (if side = 0 then o.price ≤ price else o.price ≥ price : Bool) = true
      · rw [hc, Bool.not_true, if_neg Bool.false_ne_true, if_neg (by decide)]
        have ha : ∀ x ∈ P, x.arrival < o.arrival := by
          have := hst.arrivals
          rw [List.map_append, List.pairwise_append] at this
          exact fun x hx => this.2.2 x.stamp (List.mem_map_of_mem hx) o.stamp (by simp)
        exact ih hst'
          (h.offer hs ⟨(sideOf_eq_opposite hos hs).mpr hside, (crosses_at hs).mp hc⟩ ha)
      · rw [Bool.not_eq_true] at hc
        rw [hc, Bool.not_false, if_pos rfl]
        refine ih hst' (h.skip fun ht => ?_)
        rw [(crosses_at (p := o.price) hs).mpr ht.2] at hc
        cases hc

theorem scan_none (hs : side ≤ 1) (hst : Stamped (book.map Order.stamp))
    (h : scan .none side price 0 none book = none) : ∀ q ∈ book.map Order.quote,
      q.side = (sideOf side).opposite → rank (sideOf side) price < rank (sideOf side) q.price := by
  have hb : BestAt side price book (scan .none side price 0 none book) :=
    scan_best price hs (P := []) hst fun _ h => (List.not_mem_nil h).elim
  rw [h] at hb
  intro q hq hqs
  obtain ⟨o, ho, rfl⟩ := List.mem_map.mp hq
  exact not_le.mp fun hle => hb o ho ⟨hqs, hle⟩

theorem scan_some (hs : side ≤ 1) (hst : Stamped (book.map Order.stamp)) {i : ℕ} {e : Order}
    (h : scan .none side price 0 none book = some (i, e)) : ∃ A B, book = A ++ e :: B ∧
      i = A.length ∧ Best (sideOf side) (A.map Order.quote) e.quote (B.map Order.quote) ∧
      rank (sideOf side) e.quote.price ≤ rank (sideOf side) price := by
  have hb : BestAt side price book (scan .none side price 0 none book) :=
    scan_best price hs (P := []) hst fun _ h => (List.not_mem_nil h).elim
  rw [h] at hb
  obtain ⟨A, B, hA, hi, hf⟩ := hb
  obtain ⟨hf, hle⟩ := (FirstLeast.within _).mp hf
  exact ⟨A, B, hA, hi, hf.map, hle⟩

end Scan

/-! ## 3. Trades -/

theorem set_at {α : Type} (A B : List α) (e x : α) :
    (A ++ e :: B).set A.length x = A ++ x :: B := by
  simp

theorem eraseIdx_at {α : Type} (A B : List α) (e : α) :
    (A ++ e :: B).eraseIdx A.length = A ++ B := by
  simp [List.eraseIdx_append_of_length_le]

/-- What the loop of `execute` has made of its state. -/
structure Filled (s s' : Filling) (fs : List ObFill) : Prop where
  fills : s'.fills = s.fills ++ fs.flatMap putFill
  nFills : s'.nFills = (s.nFills + fs.length) % 2 ^ 32
  stamps : (s'.book.map Order.stamp).Sublist (s.book.map Order.stamp)

theorem fillLoop_of_filled {bug : Bug} {side price fuel : ℕ} {s : Filling} (hf : 0 < fuel)
    (hs : s.qty = 0) : fillLoop bug side price fuel s = some s := by
  match fuel, hf with
  | fuel + 1, _ => exact if_pos hs

/-- **The loop comes to its end and trades by price and time.** -/
theorem fillLoop_trade {side : ℕ} (hs : side ≤ 1) (price fuel : ℕ) : ∀ {s : Filling},
    Stamped (s.book.map Order.stamp) → (∀ o ∈ s.book, 0 < o.qty) → s.nFills < 2 ^ 32 →
    s.qty < fuel → ∃ s' fs, fillLoop .none side price fuel s = some s' ∧
      Trade (sideOf side) price (s.book.map Order.quote) s.qty fs (s'.book.map Order.quote) s'.qty ∧
      Filled s s' fs := by
  induction fuel with
  | zero => exact fun _ _ _ hq => absurd hq (Nat.not_lt_zero _)
  | succ fuel ih =>
      intro s hst hpos hn hq
      have hdone : Filled s s [] :=
        ⟨by simp, (Nat.mod_eq_of_lt hn).symm, List.Sublist.refl _⟩
      unfold fillLoop
      by_cases h0 : s.qty = 0
      · rw [if_pos h0]
        exact ⟨s, [], rfl, by rw [h0]; exact .filled, hdone⟩
      rw [if_neg h0]
      have hq0 : 0 < s.qty := Nat.pos_of_ne_zero h0
      cases hscan : scan .none side price 0 none s.book with
      | none => exact ⟨s, [], rfl, .away hq0 (scan_none hs hst hscan), hdone⟩
      | some ie =>
          obtain ⟨i, e⟩ := ie
          obtain ⟨A, B, hA, rfl, hbest, hc⟩ := scan_some hs hst hscan
          have hmap : s.book.map Order.quote = A.map Order.quote ++ e.quote :: B.map Order.quote := by
            simp [hA]
          have hepos : 0 < e.qty := hpos e (by simp [hA])
          dsimp only
          rw [if_neg (by decide : ¬ Bug.none = Bug.takerPrice)]
          by_cases hlt : s.qty < e.qty
          · -- the order is filled in part, and the taker is done
            have hleft : e.qty - s.qty ≠ 0 := Nat.sub_ne_zero_of_lt hlt
            rw [Nat.min_eq_left (Nat.le_of_lt hlt), if_neg hleft]
            refine ⟨_, [⟨e.id, e.price, s.qty⟩], fillLoop_of_filled (by omega) (Nat.sub_self _), ?_,
              ?_, ?_, ?_⟩
            · dsimp only
              rw [Nat.sub_self, hmap, hA, set_at, List.map_append, List.map_cons]
              exact .part hq0 rfl hbest hc hlt
            · simp [putFill]
            · rfl
            · dsimp only
              rw [hA, set_at, List.map_append, List.map_append]
              exact List.Sublist.refl _
          · -- it is filled and leaves the vector
            have hle : e.qty ≤ s.qty := Nat.le_of_not_lt hlt
            have hsub : ((A ++ B).map Order.stamp).Sublist (s.book.map Order.stamp) := by
              rw [hA, List.map_append, List.map_append]
              exact List.Sublist.append_left (List.sublist_cons_self _ _) _
            rw [Nat.min_eq_right hle, Nat.sub_self, if_pos rfl]
            have hbook : s.book.eraseIdx A.length = A ++ B := by rw [hA, eraseIdx_at]
            rw [hbook]
            obtain ⟨s', fs, hrun, ht, hf⟩ := ih
              (s := ⟨A ++ B, s.qty - e.qty, s.fills ++ putU64 e.id ++ putU64 e.price ++ putU64 e.qty,
                (s.nFills + 1) % 2 ^ 32⟩)
              (hst.sublist hsub)
              (fun o ho => hpos o (by
                rw [hA]
                exact mem_of_taken ho))
              (Nat.mod_lt _ (by decide)) (show s.qty - e.qty < fuel by omega)
            refine ⟨s', ⟨e.id, e.price, e.qty⟩ :: fs, hrun, ?_, ?_, ?_, hf.stamps.trans hsub⟩
            · rw [hmap]
              refine .take hq0 rfl hbest hc hle ?_
              rw [← List.map_append]
              exact ht
            · rw [hf.fills]
              simp [putFill]
            · rw [hf.nFills]
              simp only [List.length_cons]
              omega

/-! ## 4. Commands -/

/-- The vector in the order of its stamps, all of them below the next one. -/
structure RefOk (m : ReferenceMatcher) : Prop where
  stamped : Stamped (m.book.map Order.stamp)
  below : ∀ x ∈ m.book.map Order.stamp, x.2 < m.arrival

/-- The rest of the matcher. -/
structure SameOther (m m' : ReferenceMatcher) : Prop where
  bug : m'.bug = m.bug
  nextId : m'.nextId = m.nextId
  sessions : m'.sessions = m.sessions

section Commands

variable {m m' : ReferenceMatcher}

theorem RefOk.drop (h : RefOk m) (hb : (m'.book.map Order.stamp).Sublist (m.book.map Order.stamp))
    (ha : m'.arrival = m.arrival) : RefOk m' :=
  ⟨h.stamped.sublist hb, fun x hx => ha ▸ h.below x (hb.subset hx)⟩

/-- A number of 32 bits is written as it is. -/
theorem putU32_mod (v : ℕ) : putU32 (v % 2 ^ 32) = Rsm.StateMachine.putU32 v := leBytes_mod 4 v

theorem execute_placed (h : RefOk m) (hb : m.bug = .none) (hpos : ∀ o ∈ m.book, 0 < o.qty)
    {side : ℕ} (hs : side ≤ 1) (id price qty : ℕ) :
    ∃ m' r fs, m.execute id side price qty = some (m', okResult id r fs) ∧
      Placed (sideOf side) price id qty (m.book.map Order.quote) fs (m'.book.map Order.quote) r ∧
      SameOther m m' ∧ m'.arrival ≤ m.arrival + 1 ∧ (m.arrival + 1 < 2 ^ 64 → RefOk m') := by
  obtain ⟨s, fs, hrun, ht, hf⟩ := fillLoop_trade hs price (qty + 1)
    (s := { book := m.book, qty := qty }) h.stamped hpos (Nat.two_pow_pos 32)
    (Nat.lt_succ_self qty)
  rw [← hb] at hrun
  have hres : 79 :: (putU64 id ++ putU64 s.qty ++ putU32 s.nFills ++ s.fills) =
      okResult id s.qty fs := by
    have hn : s.nFills = fs.length % 2 ^ 32 := by rw [hf.nFills, Nat.zero_add]
    have hfl : s.fills = fs.flatMap putFill := by rw [hf.fills, List.nil_append]
    rw [hn, putU32_mod, hfl]
    rfl
  have hle : (m.arrival + 1) % 2 ^ 64 ≤ m.arrival + 1 := Nat.mod_le _ _
  unfold ReferenceMatcher.execute
  rw [hrun]
  dsimp only
  rw [hres]
  refine ⟨_, s.qty, fs, rfl, ⟨s.book.map Order.quote, ht, ?_⟩, ?_, ?_, fun hlt => ?_⟩
  · split
    · simp [Order.quote]
    · rfl
  · split <;> exact ⟨rfl, rfl, rfl⟩
  · split
    · exact hle
    · exact Nat.le_succ _
  · have hst : RefOk { m with book := s.book } := h.drop hf.stamps rfl
    split
    · -- the order that rests has the latest stamp
      refine ⟨⟨fun x hx => ?_, ?_⟩, fun x hx => ?_⟩
      · rw [List.map_append] at hx
        rcases List.mem_append.mp hx with hx | hx
        · exact hst.stamped.sides x hx
        · rw [List.map_singleton, List.mem_singleton] at hx
          rw [hx]
          exact hs
      · rw [List.map_append, List.pairwise_append]
        refine ⟨hst.stamped.arrivals, List.pairwise_singleton _ _, fun x hx y hy => ?_⟩
        rw [List.map_singleton, List.mem_singleton] at hy
        rw [hy]
        exact hst.below x hx
      · rw [List.map_append] at hx
        show x.2 < (m.arrival + 1) % 2 ^ 64
        rw [Nat.mod_eq_of_lt hlt]
        rcases List.mem_append.mp hx with hx | hx
        · exact Nat.lt_succ_of_lt (hst.below x hx)
        · rw [List.map_singleton, List.mem_singleton] at hx
          rw [hx]
          exact Nat.lt_succ_self _
    · exact hst

theorem find_eq_some {id : ℕ} : ∀ {book : List Order} {i j : ℕ} {o : Order},
    find id i book = some (j, o) → ∃ A B, book = A ++ o :: B ∧ j = i + A.length ∧ o.id = id := by
  intro book
  induction book with
  | nil => exact fun h => by cases h
  | cons x book ih =>
      intro i j o h
      unfold find at h
      split_ifs at h with hx
      · cases h
        exact ⟨[], book, rfl, rfl, hx⟩
      · obtain ⟨A, B, rfl, rfl, ho⟩ := ih h
        exact ⟨x :: A, B, rfl, by simp; omega, ho⟩

theorem find_eq_none {id : ℕ} : ∀ {book : List Order} {i : ℕ},
    find id i book = none → ∀ o ∈ book, o.id ≠ id := by
  intro book
  induction book with
  | nil => exact fun _ _ h => (List.not_mem_nil h).elim
  | cons x book ih =>
      intro i h o ho
      unfold find at h
      split_ifs at h with hx
      rcases List.mem_cons.mp ho with rfl | ho
      · exact hx
      · exact ih h o ho

/-- How many stamps a command can take. -/
def stampsOf : ObPayload → ℕ
  | .cancel _ => 0
  | _ => 1

/-- The outcome `x` of the command `p` on the vector. -/
def RefSteps (m : ReferenceMatcher) (p : ObPayload)
    (x : Option (Option (ReferenceMatcher × Bytes))) : Prop :=
  ∃ m' r, x = some (some (m', r)) ∧
    Does (· ∈ (m.book.map Order.quote).map Quote.id) m.nextId (m.book.map Order.quote) p
      (m'.book.map Order.quote) r ∧
    m'.bug = m.bug ∧ m'.nextId = p.nextId m.nextId ∧ m'.sessions = m.sessions ∧
    m'.arrival ≤ m.arrival + stampsOf p ∧ (m.arrival + stampsOf p < 2 ^ 64 → RefOk m')

theorem not_known {id : ℕ} (h : find id 0 m.book = none) :
    id ∉ (m.book.map Order.quote).map Quote.id := by
  rw [List.map_map]
  intro hm
  obtain ⟨o, ho, hid⟩ := List.mem_map.mp hm
  exact find_eq_none h o ho hid

theorem found {id i : ℕ} {o : Order} (h : find id 0 m.book = some (i, o)) : ∃ A B,
    m.book = A ++ o :: B ∧ i = A.length ∧ o.quote.id = id ∧
      m.book.map Order.quote = A.map Order.quote ++ o.quote :: B.map Order.quote ∧
      o.quote.id ∈ (m.book.map Order.quote).map Quote.id := by
  obtain ⟨A, B, hA, rfl, hid⟩ := find_eq_some h
  exact ⟨A, B, hA, Nat.zero_add _, hid, by simp [hA], by simp [hA]⟩

theorem plainResult_eq (id qty : ℕ) : ReferenceMatcher.plainResult id qty = okResult id qty [] := by
  simp [ReferenceMatcher.plainResult, okResult, kObOk, putU32, Rsm.StateMachine.putU32]

/-- **Every command of the reference does what price-time priority says.** -/
theorem applyOp_steps (h : RefOk m) (hb : m.bug = .none) (hpos : ∀ o ∈ m.book, 0 < o.qty) {o : ObOp}
    {op pos : ℕ} {cmd : Bytes} {p : ObPayload} (ho : ObOp.ofByte op = some o)
    (hp : readPayloadAt o cmd pos = some p) : RefSteps m p (m.applyOp op cmd pos) := by
  unfold ReferenceMatcher.applyOp
  unfold readPayloadAt at hp
  cases o with
  | new =>
      obtain rfl : op = 1 := ofByte_eq_some ho
      obtain ⟨⟨side, price, qty⟩, hr, hside⟩ := Option.bind_eq_some_iff.mp hp
      obtain ⟨s, hs, rfl⟩ := Option.map_eq_some_iff.mp hside
      obtain ⟨hle, rfl⟩ := sideOfByte_eq_some hs
      rw [if_pos rfl, hr]
      dsimp only
      obtain ⟨m', r, fs, hrun, hpl, hsame, harr, hok⟩ :=
        execute_placed (m := { m with nextId := (m.nextId + 1) % 2 ^ 64 }) ⟨h.stamped, h.below⟩ hb
          hpos hle m.nextId price qty
      rw [hrun]
      exact ⟨m', _, rfl, .new hpl, hsame.bug, hsame.nextId, hsame.sessions, harr, hok⟩
  | cancel =>
      obtain rfl : op = 2 := ofByte_eq_some ho
      obtain ⟨id, hr, rfl⟩ := Option.map_eq_some_iff.mp hp
      rw [if_neg (by decide), if_pos rfl, hr]
      dsimp only
      cases hf : find id 0 m.book with
      | none =>
          exact ⟨m, _, rfl, .cancelUnknown (not_known hf), rfl, rfl, rfl, Nat.le_refl _, fun _ => h⟩
      | some io =>
          obtain ⟨A, B, hA, hi, rfl, hmap, hk⟩ := found hf
          dsimp only
          have hbook : m.book.eraseIdx io.1 = A ++ B := by rw [hi, hA, eraseIdx_at]
          rw [plainResult_eq]
          refine ⟨_, _, rfl, ?_, rfl, rfl, rfl, Nat.le_refl _, fun _ => h.drop ?_ rfl⟩
          · dsimp only
            rw [hbook, List.map_append]
            exact .cancel hk hmap
          · dsimp only
            rw [hbook, hA]
            exact (List.Sublist.append_left (List.sublist_cons_self _ _) _).map _
  | amend =>
      obtain rfl : op = 3 := ofByte_eq_some ho
      obtain ⟨⟨id, price, qty⟩, hr, rfl⟩ := Option.map_eq_some_iff.mp hp
      rw [if_neg (by decide), if_neg (by decide), hr]
      dsimp only
      cases hf : find id 0 m.book with
      | none =>
          exact ⟨m, _, rfl, .amendUnknown (not_known hf), rfl, rfl, rfl, Nat.le_succ _, fun _ => h⟩
      | some io =>
          obtain ⟨i, o⟩ := io
          obtain ⟨A, B, hA, rfl, rfl, hmap, hk⟩ := found hf
          dsimp only
          by_cases hkeep : price = o.price ∧ qty ≤ o.qty
          · have hbook : m.book.set A.length { o with qty := qty } = A ++ { o with qty := qty } :: B := by
              rw [hA, set_at]
            rw [if_pos hkeep, plainResult_eq, hbook, hkeep.1]
            refine ⟨_, _, rfl, ?_, rfl, rfl, rfl, Nat.le_succ _, fun _ => h.drop ?_ rfl⟩
            · dsimp only
              rw [List.map_append, List.map_cons]
              exact .amendKeep hk hmap hkeep.2
            · dsimp only
              rw [hA, List.map_append, List.map_append]
              exact List.Sublist.refl _
          · have hbook : m.book.eraseIdx A.length = A ++ B := by rw [hA, eraseIdx_at]
            have hsub : ((A ++ B).map Order.stamp).Sublist (m.book.map Order.stamp) := by
              rw [hA]
              exact (List.Sublist.append_left (List.sublist_cons_self _ _) _).map _
            have hos : o.side ≤ 1 := h.stamped.sides o.stamp (List.mem_map_of_mem (by simp [hA]))
            rw [if_neg hkeep, hbook]
            obtain ⟨m', r, fs, hrun, hpl, hsame, harr, hok⟩ :=
              execute_placed (m := { m with book := A ++ B }) (h.drop hsub rfl) hb
                (fun x hx => hpos x (by
                  rw [hA]
                  exact mem_of_taken hx))
                hos o.quote.id price qty
            rw [hrun]
            refine ⟨m', _, rfl, ?_, hsame.bug, hsame.nextId, hsame.sessions, harr, hok⟩
            rw [List.map_append] at hpl
            exact .amendMove hk hmap hkeep hpl

/-- A payload that the reference cannot read. -/
theorem applyOp_malformed {o : ObOp} {op pos : ℕ} {cmd : Bytes} (ho : ObOp.ofByte op = some o)
    (hp : readPayloadAt o cmd pos = none) : m.applyOp op cmd pos = some none := by
  unfold ReferenceMatcher.applyOp
  unfold readPayloadAt at hp
  cases o with
  | new =>
      obtain rfl : op = 1 := ofByte_eq_some ho
      rw [if_pos rfl]
      cases hr : readNew cmd pos with
      | none => rfl
      | some x =>
          -- the reference has checked the side already
          have hside : ¬ x.1 > 1 := by
            unfold readNew at hr
            simp only [Option.bind_eq_bind, Option.bind_eq_some_iff] at hr
            obtain ⟨_, _, _, _, _, _, hr⟩ := hr
            split_ifs at hr with hn
            cases hr
            exact fun hgt => hn (.inr (.inl hgt))
          rw [hr] at hp
          exact absurd (sideOfByte_eq_none.mp (Option.map_eq_none_iff.mp hp)) hside
  | cancel =>
      obtain rfl : op = 2 := ofByte_eq_some ho
      rw [if_neg (by decide), if_pos rfl, Option.map_eq_none_iff.mp hp]
  | amend =>
      obtain rfl : op = 3 := ofByte_eq_some ho
      rw [if_neg (by decide), if_neg (by decide), Option.map_eq_none_iff.mp hp]

end Commands

end ObRef
