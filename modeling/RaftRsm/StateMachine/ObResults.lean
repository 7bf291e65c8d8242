/-
  File:      RaftRsm/StateMachine/ObResults.lean
  Subject:   THE RESULT STRINGS of the order book: `decodeObResult` reads what `apply` has written.

  Three branches of `apply` write a result by hand, and the session table may answer with an old one.
  The numbers in it are those of a book that a run has reached, so they are of 64 bits; the number of
  fills has 32.

  * `readFills_flatMap`, `exists_fills` -- the loop over the fills, on written fills and on any bytes;
  * `decode_okResult`, `decode_isSome_iff` -- what is decoded, and that it is written as it was;
  * `Yields` -- status, order id, quantity and fills of the execution of a command;
  * `results_decode` -- every answer of every run decodes to those of the execution it reports.
-/
import RaftRsm.StateMachine.Grammar

namespace Rsm.StateMachine

open Rsm.Rpc Linear OrderBookStateMachine

/-! ## 1. The decoder -/

structure ObResult where
  status : UInt8 := 0
  orderId : ℕ := 0
  restingQty : ℕ := 0
  fills : List ObFill := []
  deriving DecidableEq, Repr

def readFill (rd : Reader) : ObFill × Reader :=
  let (makerOrderId, rd) := rd.u64
  let (price, rd) := rd.u64
  let (qty, rd) := rd.u64
  (⟨makerOrderId, price, qty⟩, rd)

/-- The loop over the `n` fills. -/
def readFills : ℕ → Reader → List ObFill × Reader
  | 0, rd => ([], rd)
  | n + 1, rd =>
      let (f, rd) := readFill rd
      let (fills, rd) := readFills n rd
      (f :: fills, rd)

def decodeObResult (result : Bytes) : Option ObResult :=
  match result with
  | [] => none
  | status :: rest =>
      if status = kObReject ∨ status = kObMalformed then
        if result.length ≠ 1 then none else some { status := status }
      else if status ≠ kObOk then none
      else
        let rd : Reader := ⟨rest, true⟩
        let (orderId, rd) := rd.u64
        let (restingQty, rd) := rd.u64
        let (n, rd) := rd.u32
        if !rd.ok || n > rd.remaining / 24 then none
        else
          let (fills, rd) := readFills n rd
          if !rd.ok || !rd.exhausted then none else some ⟨status, orderId, restingQty, fills⟩

/-- A result as it is written. -/
def ObResult.bytes (r : ObResult) : Bytes :=
  if r.status = kObOk then okResult r.orderId r.restingQty r.fills else [r.status]

def ObFill.Sized (f : ObFill) : Prop := f.makerOrderId < 2 ^ 64 ∧ f.price < 2 ^ 64 ∧ f.qty < 2 ^ 64

theorem length_putFill (f : ObFill) : (putFill f).length = 24 := by
  simp only [putFill, List.length_append, length_putU64]

theorem readFill_putFill {f : ObFill} (h : f.Sized) (rest : Bytes) :
    readFill ⟨putFill f ++ rest, true⟩ = (f, ⟨rest, true⟩) := by
  obtain ⟨h1, h2, h3⟩ := h
  unfold readFill putFill
  rw [List.append_assoc, List.append_assoc, u64_putU64 h1]
  dsimp only
  rw [u64_putU64 h2]
  dsimp only
  rw [u64_putU64 h3]

theorem readFills_flatMap : ∀ {fs : List ObFill}, (∀ f ∈ fs, f.Sized) → ∀ rest,
    readFills fs.length ⟨fs.flatMap putFill ++ rest, true⟩ = (fs, ⟨rest, true⟩)
  | [], _, _ => rfl
  | f :: fs, h, rest => by
      obtain ⟨hf, hfs⟩ := List.forall_mem_cons.mp h
      rw [List.flatMap_cons, List.append_assoc, List.length_cons, readFills, readFill_putFill hf]
      dsimp only
      rw [readFills_flatMap hfs]

/-- Any `24 * n` bytes are `n` fills. -/
theorem exists_fills : ∀ {n : ℕ} {b : Bytes}, b.length = 24 * n →
    ∃ fs : List ObFill, fs.length = n ∧ (∀ f ∈ fs, f.Sized) ∧ b = fs.flatMap putFill
  | 0, b, hb => ⟨[], rfl, fun _ h => (List.not_mem_nil h).elim, List.length_eq_zero_iff.mp hb⟩
  | n + 1, b, hb => by
      obtain ⟨id, b1, hid, rfl⟩ := exists_leBytes (n := 8) (b := b) (by omega)
      rw [List.length_append, length_leBytes] at hb
      obtain ⟨price, b2, hp, rfl⟩ := exists_leBytes (n := 8) (b := b1) (by omega)
      rw [List.length_append, length_leBytes] at hb
      obtain ⟨qty, b3, hq, rfl⟩ := exists_leBytes (n := 8) (b := b2) (by omega)
      rw [List.length_append, length_leBytes] at hb
      obtain ⟨fs, hlen, hfs, rfl⟩ := exists_fills (n := n) (b := b3) (by omega)
      refine ⟨⟨id, price, qty⟩ :: fs, by rw [List.length_cons, hlen], ?_, ?_⟩
      · exact List.forall_mem_cons.mpr ⟨⟨hid, hp, hq⟩, hfs⟩
      · rw [List.flatMap_cons, putFill, List.append_assoc, List.append_assoc]
        rfl

theorem length_fills (fs : List ObFill) : (fs.flatMap putFill).length = 24 * fs.length := by
  induction fs with
  | nil => rfl
  | cons f fs ih =>
      rw [List.flatMap_cons, List.length_append, length_putFill, ih, List.length_cons]
      omega

/-- The guard of the loop lets through as many fills as there are bytes for. -/
theorem guard_iff {n : ℕ} {b : Bytes} : (!(Reader.mk b true).ok || decide (n > (Reader.mk b true).remaining / 24)) =
    true ↔ b.length < 24 * n := by
  unfold Reader.remaining
  rw [Bool.not_true, Bool.false_or, decide_eq_true_eq]
  dsimp only
  omega

/-- **A written result is read.** -/
theorem decode_okResult {id qty : ℕ} {fs : List ObFill} (hid : id < 2 ^ 64) (hq : qty < 2 ^ 64)
    (hlen : fs.length < 2 ^ 32) (hfs : ∀ f ∈ fs, f.Sized) :
    decodeObResult (okResult id qty fs) = some ⟨kObOk, id, qty, fs⟩ := by
  have hread := readFills_flatMap hfs []
  rw [List.append_nil] at hread
  have hroom := mt (guard_iff (n := fs.length) (b := fs.flatMap putFill)).mp (by rw [length_fills]; omega)
  unfold decodeObResult okResult
  dsimp only
  rw [if_neg (by decide), if_neg (by decide), List.append_assoc, List.append_assoc, u64_putU64 hid]
  dsimp only
  rw [u64_putU64 hq]
  dsimp only
  rw [u32_putU32 hlen]
  dsimp only
  rw [if_neg hroom, hread]
  rfl

/-- **What is read is a written result.** -/
theorem decode_cases {b : Bytes} {r : ObResult} (h : decodeObResult b = some r) :
    (r = { status := kObReject } ∧ b = [kObReject]) ∨ (r = { status := kObMalformed } ∧ b = [kObMalformed]) ∨
    ∃ id qty fs, id < 2 ^ 64 ∧ qty < 2 ^ 64 ∧ fs.length < 2 ^ 32 ∧ r = ⟨kObOk, id, qty, fs⟩ ∧
      b = okResult id qty fs := by
  cases b with
  | nil => cases h
  | cons status rest =>
      unfold decodeObResult at h
      dsimp only at h
      by_cases hone : status = kObReject ∨ status = kObMalformed
      · rw [if_pos hone] at h
        cases rest with
        | cons x rest =>
            rw [if_pos (by simp)] at h
            cases h
        | nil =>
            rw [if_neg (by simp)] at h
            cases h
            rcases hone with rfl | rfl
            · exact .inl ⟨rfl, rfl⟩
            · exact .inr (.inl ⟨rfl, rfl⟩)
      rw [if_neg hone] at h
      by_cases hok : status = kObOk
      swap
      · rw [if_pos hok] at h
        cases h
      subst hok
      rw [if_neg (not_not.mpr rfl)] at h
      rcases u64_cases rest with hfail | ⟨id, b1, hid, rfl⟩
      · rw [hfail] at h
        cases h
      rw [u64_putU64 hid] at h
      dsimp only at h
      rcases u64_cases b1 with hfail | ⟨qty, b2, hq, rfl⟩
      · rw [hfail] at h
        cases h
      rw [u64_putU64 hq] at h
      dsimp only at h
      rcases Reader.uint_cases 4 b2 with hfail | ⟨n, b3, hn, rfl, hread⟩
      · rw [Reader.u32, hfail] at h
        cases h
      rw [Reader.u32, hread] at h
      dsimp only at h
      by_cases hroom : b3.length < 24 * n
      · rw [if_pos (guard_iff.mpr hroom)] at h
        cases h
      rw [if_neg (mt guard_iff.mp hroom)] at h
      -- the bytes that are left begin with `n` fills, and must end there
      have htake : (b3.take (24 * n)).length = 24 * n := List.length_take_of_le (Nat.le_of_not_lt hroom)
      obtain ⟨fs, rfl, hfs, hbytes⟩ := exists_fills htake
      rw [← List.take_append_drop (24 * fs.length) b3, hbytes, readFills_flatMap hfs] at h
      dsimp only at h
      cases hrest : b3.drop (24 * fs.length) with
      | cons x l =>
          rw [hrest] at h
          cases h
      | nil =>
          rw [hrest] at h
          cases h
          refine .inr (.inr ⟨id, qty, fs, hid, hq, hn, rfl, ?_⟩)
          rw [← List.take_append_drop (24 * fs.length) b3, hbytes, hrest, List.append_nil, okResult, putU32,
            List.append_assoc, List.append_assoc]

theorem bytes_of_decode {b : Bytes} {r : ObResult} (h : decodeObResult b = some r) : r.bytes = b := by
  rcases decode_cases h with ⟨rfl, rfl⟩ | ⟨rfl, rfl⟩ | ⟨id, qty, fs, -, -, -, rfl, rfl⟩
  · rfl
  · rfl
  · exact if_pos rfl

/-- Which strings are results. -/
theorem decode_isSome_iff (b : Bytes) : (decodeObResult b).isSome = true ↔
    b = [kObReject] ∨ b = [kObMalformed] ∨ ∃ id qty n fills, id < 2 ^ 64 ∧ qty < 2 ^ 64 ∧ n < 2 ^ 32 ∧
      fills.length = 24 * n ∧ b = kObOk :: (putU64 id ++ putU64 qty ++ putU32 n ++ fills) := by
  constructor
  · intro h
    obtain ⟨r, hr⟩ := Option.isSome_iff_exists.mp h
    rcases decode_cases hr with ⟨-, rfl⟩ | ⟨-, rfl⟩ | ⟨id, qty, fs, hid, hq, hn, -, rfl⟩
    · exact .inl rfl
    · exact .inr (.inl rfl)
    · exact .inr (.inr ⟨id, qty, fs.length, _, hid, hq, hn, length_fills fs, rfl⟩)
  · rintro (rfl | rfl | ⟨id, qty, n, fills, hid, hq, hn, hlen, rfl⟩)
    · rfl
    · rfl
    · obtain ⟨fs, rfl, hfs, rfl⟩ := exists_fills hlen
      have hread := decode_okResult hid hq hn hfs
      unfold okResult at hread
      rw [hread]
      rfl

/-! ## 2. Executions and what they yield -/

/-- **Executing a command yields** a status, an order id, the quantity that rests or was removed, and
    fills. -/
inductive Yields (m : OrderBookStateMachine) : ObPayload → ObResult → Prop where
  | new {side price qty m' residual fills}
      (h : { m with nextOrderId := (m.nextOrderId + 1) % 2 ^ 64 }.match_ side price qty =
        some (m', residual, fills)) :
      Yields m (.new side price qty) ⟨kObOk, m.nextOrderId, residual, fills⟩
  | cancelUnknown {id} (h : id ∉ m.index) : Yields m (.cancel id) { status := kObReject }
  | cancel {id m' removed} (h : id ∈ m.index) (hr : m.remove id = some (m', removed)) :
      Yields m (.cancel id) ⟨kObOk, id, removed, []⟩
  | amendUnknown {id price qty} (h : id ∉ m.index) : Yields m (.amend id price qty) { status := kObReject }
  | amendKeep {id price qty o} (h : m.order id = some o) (hq : price = o.price ∧ qty ≤ o.qty) :
      Yields m (.amend id price qty) ⟨kObOk, id, qty, []⟩
  | amendMove {id price qty o m₁ removed m' residual fills} (h : m.order id = some o)
      (hq : ¬ (price = o.price ∧ qty ≤ o.qty)) (hr : m.remove id = some (m₁, removed))
      (hm : m₁.match_ o.side price qty = some (m', residual, fills)) :
      Yields m (.amend id price qty) ⟨kObOk, id, residual, fills⟩

/-- The numbers of a result are of 64 bits. -/
structure ObResult.Sized (r : ObResult) : Prop where
  orderId : r.orderId < 2 ^ 64
  restingQty : r.restingQty < 2 ^ 64
  fills : ∀ f ∈ r.fills, f.Sized

theorem sized_status (c : UInt8) : ObResult.Sized { status := c } :=
  ⟨Nat.two_pow_pos 64, Nat.two_pow_pos 64, fun _ h => (List.not_mem_nil h).elim⟩

theorem Trade.fills_sized {taker : ObSide} {limit q r : ℕ} {Q M : List Quote} {fs : List ObFill}
    (h : Trade taker limit Q q fs M r) (hQ : ∀ e ∈ Q, e.Sized) : ∀ f ∈ fs, f.Sized := by
  intro f hf
  obtain ⟨e, he, hid, hprice, hle, -⟩ := h.fill_maker f hf
  obtain ⟨h1, h2, h3⟩ := hQ e he
  exact ⟨hid ▸ h1, hprice ▸ h2, Nat.lt_of_le_of_lt hle h3⟩

section Yields

variable {m : OrderBookStateMachine} {Q A B : List Quote} {e : Quote}

/-- A taker: what `match` gives, in numbers of 64 bits. -/
theorem match_sized (h : Shows m Q) (hpos : ∀ x ∈ Q, 0 < x.qty) (hQ : ∀ e ∈ Q, e.Sized) (side : ObSide)
    (price : ℕ) {qty : ℕ} (hq : qty < 2 ^ 64) : ∃ m' residual fills,
      m.match_ side price qty = some (m', residual, fills) ∧ residual < 2 ^ 64 ∧ ∀ f ∈ fills, f.Sized := by
  obtain ⟨m', Q', r, fs, hrun, ht, -⟩ :=
    matchLoop_trade side price (qty + 1) qty [] h hpos (Nat.lt_succ_self qty)
  have := ht.sum
  exact ⟨m', r, fs, hrun, by omega, ht.fills_sized hQ⟩

theorem execute_of_match {m' : OrderBookStateMachine} {side : ObSide} {price qty residual : ℕ}
    {fills : List ObFill} (id : ℕ) (h : m.match_ side price qty = some (m', residual, fills)) :
    ∃ m'', m.execute side price id qty = some (m'', okResult id residual fills) := by
  unfold execute
  rw [h]
  exact ⟨_, rfl⟩

/-- An AMEND of a resting order. -/
theorem amend_yields (h : Shows m (A ++ e :: B)) (hpos : ∀ x ∈ A ++ e :: B, 0 < x.qty)
    (hQ : ∀ x ∈ A ++ e :: B, x.Sized) (hloc : Located m A e B) (price : ℕ) {qty : ℕ} (hq : qty < 2 ^ 64) :
    ∃ m' r, m.applyAmend e.id price qty = some (m', r.bytes) ∧ Yields m (.amend e.id price qty) r ∧ r.Sized := by
  have hid := (hQ e (by simp)).1
  by_cases hkeep : price = e.price ∧ qty ≤ e.qty
  · obtain ⟨rfl, hle⟩ := hkeep
    exact ⟨_, _, hloc.applyAmend_keep hle, .amendKeep hloc.order ⟨rfl, hle⟩,
      ⟨hid, hq, fun _ hf => (List.not_mem_nil hf).elim⟩⟩
  · obtain ⟨m₁, hrem, hS₁, -⟩ := hloc.remove h
    have hsub : ∀ x ∈ A ++ B, x ∈ A ++ e :: B := fun x hx =>
      Selection.mem_of_taken hx
    obtain ⟨m₂, residual, fills, hm, hres, hfills⟩ := match_sized hS₁ (fun x hx => hpos x (hsub x hx))
      (fun x hx => hQ x (hsub x hx)) e.side price hq
    obtain ⟨m', hrun⟩ := execute_of_match e.id hm
    refine ⟨m', _, ?_, .amendMove hloc.order hkeep hrem hm, ⟨hid, hres, hfills⟩⟩
    rw [hloc.applyAmend_replace hkeep, cancelReplace, hrem]
    exact hrun

/-- **Every command yields a result**, and the string is that result as it is written. -/
theorem exists_yields (h : Shows m Q) (hpos : ∀ x ∈ Q, 0 < x.qty) (hQ : ∀ e ∈ Q, e.Sized)
    (hn : m.nextOrderId < 2 ^ 64) {p : ObPayload} (hp : p.Sized) :
    ∃ m' r, m.applyPayload p = some (m', r.bytes) ∧ Yields m p r ∧ r.Sized := by
  cases p with
  | new side price qty =>
      obtain ⟨m₁, residual, fills, hm, hres, hfills⟩ := match_sized
        (h.renumber ((m.nextOrderId + 1) % 2 ^ 64)) hpos hQ side price hp.2
      obtain ⟨m', hrun⟩ := execute_of_match m.nextOrderId hm
      exact ⟨m', ⟨kObOk, m.nextOrderId, residual, fills⟩, hrun, .new hm, ⟨hn, hres, hfills⟩⟩
  | cancel id =>
      by_cases hk : id ∈ m.index
      · obtain ⟨⟨side, price⟩, hi⟩ := mem_index_iff.mp hk
        obtain ⟨A, e, B, rfl, rfl, rfl, rfl, hloc⟩ := h.locate hi
        obtain ⟨m', hrem, -⟩ := hloc.remove h
        obtain ⟨hid, -, hqty⟩ := hQ e (by simp)
        refine ⟨m', _, ?_, .cancel hk hrem, ⟨hid, hqty, fun _ hf => (List.not_mem_nil hf).elim⟩⟩
        show m.applyCancel e.id = _
        rw [applyCancel, if_neg (not_not.mpr hk), hrem]
        rfl
      · refine ⟨m, _, ?_, .cancelUnknown hk, sized_status _⟩
        show m.applyCancel id = _
        rw [applyCancel, if_pos hk]
        rfl
  | amend id price qty =>
      cases hi : m.index[id]? with
      | none =>
          have hk : id ∉ m.index := fun hk => by
            obtain ⟨sp, hsp⟩ := mem_index_iff.mp hk
            rw [hi] at hsp
            cases hsp
          refine ⟨m, _, ?_, .amendUnknown hk, sized_status _⟩
          show m.applyAmend id price qty = _
          rw [applyAmend, hi]
          rfl
      | some sp =>
          obtain ⟨A, e, B, rfl, rfl, -, -, hloc⟩ := h.locate hi
          exact amend_yields h hpos hQ hloc price hp.2

end Yields

theorem decode_bytes {r : ObResult} (hr : r.Sized) (hlen : r.fills.length < 2 ^ 32)
    (hs : r.status = kObOk ∨ r = { status := kObReject }) : decodeObResult r.bytes = some r := by
  rcases hs with hs | rfl
  · obtain ⟨status, id, qty, fs⟩ := r
    dsimp only at hs
    subst hs
    rw [ObResult.bytes, if_pos rfl]
    exact decode_okResult hr.orderId hr.restingQty hlen hr.fills
  · rfl

theorem Yields.status {m : OrderBookStateMachine} {p : ObPayload} {r : ObResult} (h : Yields m p r) :
    r.status = kObOk ∨ r = { status := kObReject } := by
  cases h with
  | new => exact .inl rfl
  | cancelUnknown => exact .inr rfl
  | cancel => exact .inl rfl
  | amendUnknown => exact .inr rfl
  | amendKeep => exact .inl rfl
  | amendMove => exact .inl rfl

theorem mem_index_of_order {m : OrderBookStateMachine} {id : ℕ} {o : RestingOrder} (h : m.order id = some o) :
    id ∈ m.index := by
  cases hi : m.index[id]? with
  | none =>
      unfold order at h
      rw [hi] at h
      cases h
  | some sp => exact mem_index_iff.mpr ⟨sp, hi⟩

/-- An execution yields one result. -/
theorem Yields.unique {m : OrderBookStateMachine} {p : ObPayload} {r r' : ObResult} (h : Yields m p r)
    (h' : Yields m p r') : r = r' := by
  cases h with
  | new hm =>
      cases h' with
      | new hm' =>
          obtain ⟨-, rfl, rfl⟩ : _ ∧ _ ∧ _ := by simpa using hm.symm.trans hm'
          rfl
  | cancelUnknown hk =>
      cases h' with
      | cancelUnknown => rfl
      | cancel hk' => exact absurd hk' hk
  | cancel hk hr =>
      cases h' with
      | cancelUnknown hk' => exact absurd hk hk'
      | cancel _ hr' =>
          obtain ⟨-, rfl⟩ : _ ∧ _ := by simpa using hr.symm.trans hr'
          rfl
  | amendUnknown hk =>
      cases h' with
      | amendUnknown => rfl
      | amendKeep ho => exact absurd (mem_index_of_order ho) hk
      | amendMove ho => exact absurd (mem_index_of_order ho) hk
  | amendKeep ho hq =>
      cases h' with
      | amendUnknown hk => exact absurd (mem_index_of_order ho) hk
      | amendKeep => rfl
      | amendMove ho' hq' =>
          obtain rfl := Option.some.inj (ho.symm.trans ho')
          exact absurd hq hq'
  | amendMove ho hq hr hm =>
      cases h' with
      | amendUnknown hk => exact absurd (mem_index_of_order ho) hk
      | amendKeep ho' hq' =>
          obtain rfl := Option.some.inj (ho.symm.trans ho')
          exact absurd hq' hq
      | amendMove ho' _ hr' hm' =>
          obtain rfl := Option.some.inj (ho.symm.trans ho')
          obtain ⟨rfl, -⟩ : _ ∧ _ := by simpa using hr.symm.trans hr'
          obtain ⟨-, rfl, rfl⟩ : _ ∧ _ ∧ _ := by simpa using hm.symm.trans hm'
          rfl

/-! ## 3. The answers of a run -/

/-- **The result that the answer to `cmd` reports**, after the commands `L`: that of its own execution,
    that of the execution its session remembers, or that it is malformed. -/
inductive Reports (L : List Bytes) (cmd : Bytes) : ObResult → Prop where
  | executed {m h p r} (hL : OrderBookStateMachine.after L = some m) (hp : parseOb cmd = some (h, p))
      (hc : m.cachedResult h.clientId h.seqNo = none) (hy : Yields m p r) : Reports L cmd r
  | replayed {m h rd s P mP cmd' h' p' m' r} (hL : OrderBookStateMachine.after L = some m)
      (hh : readHeader cmd = some (h, rd)) (h0 : h.clientId ≠ 0) (hs : m.sessions[h.clientId]? = some s)
      (hle : h.seqNo ≤ s.lastSeq) (hmem : P ++ [cmd'] <+: L) (hP : OrderBookStateMachine.after P = some mP)
      (hp : parseOb cmd' = some (h', p')) (hid : h'.clientId = h.clientId ∧ h'.seqNo = s.lastSeq)
      (hans : mP.applyPayload p' = some (m', s.lastResult)) (hy : Yields mP p' r) : Reports L cmd r
  | malformed {m} (hL : OrderBookStateMachine.after L = some m) (hp : parseOb cmd = none)
      (hc : ∀ h rd, readHeader cmd = some (h, rd) → m.cachedResult h.clientId h.seqNo = none) :
      Reports L cmd { status := kObMalformed }

/-- Every command of a run yields a result. -/
theorem exists_yields_after {L : List Bytes} {m : OrderBookStateMachine} {p : ObPayload}
    (hL : OrderBookStateMachine.after L = some m) (hp : p.Sized) :
    ∃ m' r, m.applyPayload p = some (m', r.bytes) ∧ Yields m p r ∧ r.Sized := by
  obtain ⟨m₀, Q, h, hQ, -⟩ := exists_sized L
  obtain rfl := Option.some.inj (h.after.symm.trans hL)
  have hn : m₀.nextOrderId < 2 ^ 64 := by
    rw [h.next]
    exact Nat.mod_lt _ (Nat.two_pow_pos 64)
  exact exists_yields h.shows h.sound.qty hQ hn hp

/-- The string is the result as it is written, and decodes to it. -/
theorem Yields.decode {L : List Bytes} {m m' : OrderBookStateMachine} {p : ObPayload} {s : Bytes} {r : ObResult}
    (hy : Yields m p r) (hL : OrderBookStateMachine.after L = some m) (hp : p.Sized)
    (hrun : m.applyPayload p = some (m', s)) :
    s = r.bytes ∧ (r.fills.length < 2 ^ 32 → decodeObResult s = some r) := by
  obtain ⟨m₁, r₀, hrun₀, hy₀, hsized⟩ := exists_yields_after hL hp
  obtain rfl := hy.unique hy₀
  obtain ⟨-, rfl⟩ := Prod.mk.inj (Option.some.inj (hrun.symm.trans hrun₀))
  exact ⟨rfl, fun hlen => decode_bytes hsized hlen hy.status⟩

theorem sized_of_parseOb {cmd : Bytes} {h : ObHeader} {p : ObPayload} (hp : parseOb cmd = some (h, p)) : p.Sized := by
  obtain ⟨rd, -, hpay⟩ := parseOb_eq_some hp
  exact sized_of_readPayload hpay

theorem exists_reports (L : List Bytes) (cmd : Bytes) : ∃ r, Reports L cmd r := by
  obtain ⟨m, hL⟩ := Option.isSome_iff_exists.mp (after_isSome L)
  by_cases hcached : ∃ h rd s, readHeader cmd = some (h, rd) ∧ m.cachedResult h.clientId h.seqNo = some s
  · obtain ⟨h, rd, a, hh, hc⟩ := hcached
    obtain ⟨h0, s, hs, hle, rfl⟩ := cachedResult_eq_some_iff.mp hc
    obtain ⟨P, mP, cmd', h', p', m', hmem, hP, hp, hid, hseq, -, hans⟩ := exists_recorded hL hs
    obtain ⟨-, r, -, hy, -⟩ := exists_yields_after hP (sized_of_parseOb hp)
    exact ⟨r, .replayed hL hh h0 hs hle hmem hP hp ⟨hid, hseq⟩ hans hy⟩
  · have hnone : ∀ h rd, readHeader cmd = some (h, rd) → m.cachedResult h.clientId h.seqNo = none := by
      intro h rd hh
      by_contra hne
      obtain ⟨a, ha⟩ := Option.ne_none_iff_exists'.mp hne
      exact hcached ⟨h, rd, a, hh, ha⟩
    cases hp : parseOb cmd with
    | none => exact ⟨_, .malformed hL hp hnone⟩
    | some x =>
        obtain ⟨rd, hh, -⟩ := parseOb_eq_some hp
        obtain ⟨-, r, -, hy, -⟩ := exists_yields_after hL (sized_of_parseOb hp)
        exact ⟨r, .executed hL hp (hnone x.1 rd hh) hy⟩

/-- **The result format.** After any commands, the answer to any command reports an execution, freshly
    made or remembered, or that the command is malformed; the string is that result as it is written,
    and if it has fewer than `2 ^ 32` fills it decodes to it. A byte string decodes exactly if it is "N",
    "E", or "O" with an id, a quantity, a count and that many fills of 24 bytes, and what it decodes to
    is written as the same bytes. -/
theorem results_decode (L : List Bytes) (cmd : Bytes) :
    (∃ r, Reports L cmd r) ∧
    (∀ r, Reports L cmd r → ∃ m m' s, OrderBookStateMachine.after L = some m ∧ m.apply cmd = some (m', s) ∧
      s = r.bytes ∧ (r.fills.length < 2 ^ 32 → decodeObResult s = some r)) ∧
    (∀ b, (decodeObResult b).isSome = true ↔
      b = [kObReject] ∨ b = [kObMalformed] ∨ ∃ id qty n fills, id < 2 ^ 64 ∧ qty < 2 ^ 64 ∧ n < 2 ^ 32 ∧
        fills.length = 24 * n ∧ b = kObOk :: (putU64 id ++ putU64 qty ++ putU32 n ++ fills)) ∧
    ∀ b r, decodeObResult b = some r → r.bytes = b := by
  refine ⟨exists_reports L cmd, fun r hr => ?_, decode_isSome_iff, fun b r => bytes_of_decode⟩
  cases hr with
  | @executed m h p r hL hp hc hy =>
      obtain ⟨m₀, Q, hreach⟩ := exists_reached L
      obtain rfl := Option.some.inj (hreach.after.symm.trans hL)
      obtain ⟨⟨m', s⟩, happ⟩ := Option.isSome_iff_exists.mp (hreach.neverMisses.apply cmd)
      refine ⟨m₀, m', s, hL, happ, ?_⟩
      rw [apply_new hp hc] at happ
      obtain ⟨⟨m₁, s₁⟩, hrun, heq⟩ := Option.map_eq_some_iff.mp happ
      obtain ⟨-, rfl⟩ := Prod.mk.inj heq
      exact hy.decode hL (sized_of_parseOb hp) hrun
  | @replayed m h rd s P mP cmd' h' p' m' r hL hh h0 hs hle hmem hP hp hid hans hy =>
      have hcached := cachedResult_eq_some_iff.mpr ⟨h0, s, hs, hle, rfl⟩
      exact ⟨m, m, s.lastResult, hL, apply_cached hh hcached, hy.decode hP (sized_of_parseOb hp) hans⟩
  | @malformed m hL hp hc =>
      exact ⟨m, m, [kObMalformed], hL, apply_malformed_new hp hc, rfl, fun _ => rfl⟩

end Rsm.StateMachine
