/-
  File:      RaftRsm/StateMachine/TimePriority.lean
  Subject:   PRICE-TIME PRIORITY OVER WHOLE RUNS: the makers of a command are the crossing orders by best
             price, and within a price by the position in the run of the command that last queued them.

  A level of the engine has no times. So the run carries them along, as a history: every resting order
  with the position of the command that put it at the end of its queue.

  * `Queued`, `Turn` -- an order with its position, and which position a command gives to which order;
  * `Ran L m S` -- after the commands `L` the engine is in the state `m`, and `S` are its orders with
    their positions; `exists_ran` -- there is such a history of every run;
  * `Served` -- makers in a given order, and the fills they give;
  * `price_time_priority` -- the theorem.
-/
import RaftRsm.StateMachine.Matching

namespace Rsm.StateMachine

open Rsm.Rpc Selection OrderBookStateMachine

/-! ## 1. Orders and their positions in the run -/

/-- A resting order and the position in the run of the command that last queued it. -/
structure Queued where
  quote : Quote
  position : ℕ
  deriving DecidableEq, Repr

/-- Orders leave, or stay where they are with another quantity. -/
inductive Stays : List Queued → List Queued → Prop where
  | nil : Stays [] []
  | stay {X Y} (x : Queued) (q : ℕ) (h : Stays X Y) :
      Stays (x :: X) ({ x with quote := { x.quote with qty := q } } :: Y)
  | leave {X Y} (x : Queued) (h : Stays X Y) : Stays (x :: X) Y

namespace Stays

variable {A B X Y Z : List Queued}

theorem refl : ∀ X : List Queued, Stays X X
  | [] => .nil
  | x :: X => .stay x x.quote.qty (refl X)

theorem trans (h : Stays X Y) (k : Stays Y Z) : Stays X Z := by
  induction h generalizing Z with
  | nil => exact k
  | stay x q h ih =>
      cases k with
      | stay _ q' k => exact .stay x q' (ih k)
      | leave _ k => exact .leave x (ih k)
  | leave x h ih => exact .leave x (ih k)

theorem append (h : Stays A X) (k : Stays B Y) : Stays (A ++ B) (X ++ Y) := by
  induction h with
  | nil => exact k
  | stay x q h ih => exact .stay x q ih
  | leave x h ih => exact .leave x ih

/-- One order leaves. -/
theorem drop (A : List Queued) (x : Queued) (B : List Queued) : Stays (A ++ x :: B) (A ++ B) :=
  (refl A).append (.leave x (refl B))

/-- What stays has the position it had. -/
theorem mem (h : Stays X Y) : ∀ y ∈ Y, ∃ x ∈ X, y.position = x.position := by
  induction h with
  | nil => exact fun _ hy => (List.not_mem_nil hy).elim
  | stay x q h ih =>
      refine List.forall_mem_cons.mpr ⟨⟨x, List.mem_cons_self, rfl⟩, fun y hy => ?_⟩
      obtain ⟨z, hz, hp⟩ := ih y hy
      exact ⟨z, List.mem_cons_of_mem x hz, hp⟩
  | leave x h ih =>
      intro y hy
      obtain ⟨z, hz, hp⟩ := ih y hy
      exact ⟨z, List.mem_cons_of_mem x hz, hp⟩

/-- **Time priority is kept by whatever stays.** -/
theorem sorted (h : Stays X Y) (hX : X.Pairwise fun x y => x.position < y.position) :
    Y.Pairwise fun x y => x.position < y.position := by
  induction h with
  | nil => exact hX
  | stay x q h ih =>
      obtain ⟨hx, hX⟩ := List.pairwise_cons.mp hX
      refine List.pairwise_cons.mpr ⟨fun y hy => ?_, ih hX⟩
      obtain ⟨z, hz, hp⟩ := h.mem y hy
      rw [hp]
      exact hx z hz
  | leave x h ih => exact ih (List.pairwise_cons.mp hX).2

end Stays

/-- The taker of a command, if it rests: it goes behind all others, at the position of the command. -/
def restsAt (n id : ℕ) (side : ObSide) (price residual : ℕ) : List Queued :=
  if 0 < residual then [⟨⟨id, side, price, residual⟩, n⟩] else []

/-- The engine finds the order `x`, the first of its level with its id, where `A` are the orders that
    were queued before it. -/
structure Finds (m : OrderBookStateMachine) (A : List Queued) (x : Queued) : Prop where
  order : m.order x.quote.id = some ⟨x.quote.side, x.quote.price, x.quote.qty⟩
  first : ∀ y ∈ A, y.quote.side = x.quote.side → y.quote.price = x.quote.price →
    y.quote.id ≠ x.quote.id

/-- **What the command at the position `n` does to the positions.** A NEW and a cancel-replace AMEND
    queue their order, with what they report as resting; every other order keeps its position, and so
    does one that is amended at its price to no larger quantity. -/
inductive Turn (m : OrderBookStateMachine) (n : ℕ) (S : List Queued) :
    ObPayload → Bytes → List Queued → Prop where
  | new {side price qty r fs S₁} (h : Stays S S₁) :
      Turn m n S (.new side price qty) (okResult m.nextOrderId r fs)
        (S₁ ++ restsAt n m.nextOrderId side price r)
  | cancelUnknown {id} (ho : m.order id = none) : Turn m n S (.cancel id) [kObReject] S
  | cancel {A x B} (hS : S = A ++ x :: B) (hx : Finds m A x) :
      Turn m n S (.cancel x.quote.id) (okResult x.quote.id x.quote.qty []) (A ++ B)
  | amendUnknown {id price qty} (ho : m.order id = none) : Turn m n S (.amend id price qty) [kObReject] S
  | keep {A x B qty} (hS : S = A ++ x :: B) (hx : Finds m A x) (hq : qty ≤ x.quote.qty) :
      Turn m n S (.amend x.quote.id x.quote.price qty) (okResult x.quote.id qty [])
        (A ++ { x with quote := { x.quote with qty := qty } } :: B)
  | replace {A x B price qty r fs S₁} (hS : S = A ++ x :: B) (hx : Finds m A x)
      (hq : ¬ (price = x.quote.price ∧ qty ≤ x.quote.qty)) (h : Stays (A ++ B) S₁) :
      Turn m n S (.amend x.quote.id price qty) (okResult x.quote.id r fs)
        (S₁ ++ restsAt n x.quote.id x.quote.side price r)

/-- **A run with its history.** The orders of `S` are always those of the engine. -/
inductive Ran : List Bytes → OrderBookStateMachine → List Queued → Prop where
  | start : Ran [] {} []
  | ignored {L m S cmd r} (h : Ran L m S) (hr : m.apply cmd = some (m, r))
      (hno : ∀ hd p, parseOb cmd = some (hd, p) → m.cachedResult hd.clientId hd.seqNo ≠ none) :
      Ran (L ++ [cmd]) m S
  | executed {L m S cmd hd p m' r S'} (h : Ran L m S) (hp : parseOb cmd = some (hd, p))
      (hc : m.cachedResult hd.clientId hd.seqNo = none) (hr : m.apply cmd = some (m', r))
      (ht : Turn m L.length S p r S') (hs : Shows m' (S'.map Queued.quote)) : Ran (L ++ [cmd]) m' S'

/-! ## 2. Every run has a history -/

section History

variable {m m' : OrderBookStateMachine} {S S' X : List Queued} {A B L M : List Quote} {e : Quote}
  {taker : ObSide} {limit q r n : ℕ} {fs : List ObFill} {p : ObPayload} {b : Bytes}

theorem split_queued (h : S.map Queued.quote = A ++ e :: B) : ∃ A' x B', S = A' ++ x :: B' ∧
    A'.map Queued.quote = A ∧ x.quote = e ∧ B'.map Queued.quote = B := by
  obtain ⟨A', C, rfl, hA, hC⟩ := List.map_eq_append_iff.mp h
  obtain ⟨x, B', rfl, hx, hB⟩ := List.map_eq_cons_iff.mp hC
  exact ⟨A', x, B', rfl, hA, hx, hB⟩

/-- A trade moves nobody. -/
theorem Trade.stays (h : Trade taker limit L q fs M r) : ∀ {S : List Queued},
    S.map Queued.quote = L → ∃ S', Stays S S' ∧ S'.map Queued.quote = M := by
  induction h with
  | filled => exact fun hS => ⟨_, .refl _, hS⟩
  | away => exact fun hS => ⟨_, .refl _, hS⟩
  | take hq hL hb hc he ht ih =>
      intro S hS
      obtain ⟨A', x, B', rfl, hA, -, hB⟩ := split_queued (hS.trans hL)
      obtain ⟨S', hstay, hM⟩ := ih (S := A' ++ B') (by rw [List.map_append, hA, hB])
      exact ⟨S', (Stays.drop A' x B').trans hstay, hM⟩
  | part hq hL hb hc he =>
      intro S hS
      obtain ⟨A', x, B', rfl, hA, rfl, hB⟩ := split_queued (hS.trans hL)
      exact ⟨_, (Stays.refl A').append (.stay x _ (.refl B')), by rw [List.map_append, List.map_cons, hA, hB]⟩

theorem map_restsAt (n id : ℕ) (side : ObSide) (price r : ℕ) (N : List Quote) :
    N ++ (restsAt n id side price r).map Queued.quote =
      if r > 0 then N ++ [⟨id, side, price, r⟩] else N := by
  unfold restsAt
  by_cases hr : r > 0
  · rw [if_pos hr, if_pos hr]
    rfl
  · rw [if_neg hr, if_neg hr]
    exact List.append_nil N

/-- A taker and its place in the queue. -/
theorem Placed.stays {side : ObSide} {price id qty : ℕ} (h : Placed side price id qty L fs M r)
    (hS : S.map Queued.quote = L) (n : ℕ) :
    ∃ S₁, Stays S S₁ ∧ (S₁ ++ restsAt n id side price r).map Queued.quote = M := by
  obtain ⟨N, ht, rfl⟩ := h
  obtain ⟨S₁, hstay, rfl⟩ := ht.stays hS
  exact ⟨S₁, hstay, by rw [List.map_append, map_restsAt]⟩

theorem Shows.order_eq_none (h : Shows m L) {id : ℕ} : m.order id = none ↔ m.index[id]? = none := by
  constructor
  · intro ho
    cases hi : m.index[id]? with
    | none => rfl
    | some sp =>
        obtain ⟨A, e, B, -, rfl, -, -, hloc⟩ := h.locate hi
        cases hloc.order.symm.trans ho
  · intro hi
    unfold OrderBookStateMachine.order
    rw [hi]

/-- What the engine locates has its place in the history. -/
theorem Shows.finds (h : Shows m (S.map Queued.quote)) {id : ℕ} {sp : ObSide × ℕ}
    (hi : m.index[id]? = some sp) : ∃ A x B, S = A ++ x :: B ∧ x.quote.id = id ∧ Finds m A x ∧
      Located m (A.map Queued.quote) x.quote (B.map Queued.quote) := by
  obtain ⟨A, e, B, hS, rfl, -, -, hloc⟩ := h.locate hi
  obtain ⟨A, x, B, rfl, rfl, rfl, rfl⟩ := split_queued hS
  refine ⟨A, x, B, rfl, rfl, ⟨hloc.order, fun y hy hs hp => ?_⟩, hloc⟩
  exact hloc.first y.quote.resting
    (mem_levelOf.mpr ⟨y.quote, List.mem_map_of_mem hy, hs, hp, rfl⟩)

theorem exists_turn (h : Shows m (S.map Queued.quote)) (hpos : ∀ x ∈ S, 0 < x.quote.qty) (n : ℕ)
    (p : ObPayload) : ∃ m' b S', m.applyPayload p = some (m', b) ∧ Turn m n S p b S' ∧
      Shows m' (S'.map Queued.quote) := by
  have hpos' : ∀ x ∈ S.map Queued.quote, 0 < x.qty := fun x hx => by
    obtain ⟨y, hy, rfl⟩ := List.mem_map.mp hx
    exact hpos y hy
  cases p with
  | new side price qty =>
      obtain ⟨m', M, r, fs, hrun, hpl, hS', -⟩ :=
        execute_placed (h.renumber _) hpos' side price m.nextOrderId qty
      obtain ⟨S₁, hstay, rfl⟩ := hpl.stays rfl n
      exact ⟨m', _, _, hrun, .new hstay, hS'⟩
  | cancel id =>
      cases hi : m.index[id]? with
      | none =>
          have hk : id ∉ m.index := by
            rw [mem_index_iff, hi]
            simp
          exact ⟨m, _, S, if_pos hk, .cancelUnknown (h.order_eq_none.mpr hi), h⟩
      | some sp =>
          obtain ⟨A, x, B, rfl, rfl, hx, hloc⟩ := h.finds hi
          rw [List.map_append, List.map_cons] at h
          obtain ⟨m', hrem, hS', -⟩ := hloc.remove h
          refine ⟨m', _, _, ?_, .cancel rfl hx, by rwa [List.map_append]⟩
          show m.applyCancel x.quote.id = _
          unfold applyCancel
          rw [if_neg (not_not.mpr (mem_index_iff.mpr ⟨_, hi⟩)), hrem]
  | amend id price qty =>
      cases hi : m.index[id]? with
      | none =>
          refine ⟨m, _, S, ?_, .amendUnknown (h.order_eq_none.mpr hi), h⟩
          show m.applyAmend id price qty = _
          unfold applyAmend
          rw [hi]
      | some sp =>
          obtain ⟨A, x, B, rfl, rfl, hx, hloc⟩ := h.finds hi
          rw [List.map_append, List.map_cons] at h hpos'
          by_cases hq : price = x.quote.price ∧ qty ≤ x.quote.qty
          · obtain ⟨rfl, hq⟩ := hq
            refine ⟨_, _, _, hloc.applyAmend_keep hq, .keep rfl hx hq, ?_⟩
            rw [List.map_append, List.map_cons]
            exact h.setQty qty
          · obtain ⟨m₁, hrem, hS₁, -⟩ := hloc.remove h
            have hpos₁ : ∀ y ∈ A.map Queued.quote ++ B.map Queued.quote, 0 < y.qty := fun y hy =>
              hpos' y (mem_of_taken hy)
            obtain ⟨m', M, r, fs, hrun, hpl, hS', -⟩ :=
              execute_placed hS₁ hpos₁ x.quote.side price x.quote.id qty
            obtain ⟨S₁, hstay, rfl⟩ := hpl.stays (S := A ++ B) List.map_append n
            have hpay : m.applyAmend x.quote.id price qty = some (m', okResult x.quote.id r fs) := by
              rw [hloc.applyAmend_replace hq, cancelReplace, hrem]
              exact hrun
            exact ⟨m', _, _, hpay, .replace rfl hx hq hstay, hS'⟩

end History

/-- Whoever was there keeps the position, and at most one order gets the new one. -/
theorem Turn.shape {m : OrderBookStateMachine} {n : ℕ} {S S' : List Queued} {p : ObPayload} {b : Bytes}
    (h : Turn m n S p b S') : ∃ S₁ T, Stays S S₁ ∧ S' = S₁ ++ T ∧ (T = [] ∨ ∃ x, T = [⟨x, n⟩]) := by
  have hrests : ∀ id side price r, restsAt n id side price r = [] ∨ ∃ x, restsAt n id side price r = [⟨x, n⟩] := by
    intro id side price r
    unfold restsAt
    split
    · exact .inr ⟨_, rfl⟩
    · exact .inl rfl
  cases h with
  | new h => exact ⟨_, _, h, rfl, hrests _ _ _ _⟩
  | cancelUnknown => exact ⟨S, [], .refl S, (List.append_nil S).symm, .inl rfl⟩
  | @cancel A x B hS => exact ⟨_, [], hS ▸ Stays.drop A x B, (List.append_nil _).symm, .inl rfl⟩
  | amendUnknown => exact ⟨S, [], .refl S, (List.append_nil S).symm, .inl rfl⟩
  | @keep A x B qty hS =>
      have hstay : Stays (A ++ x :: B) (A ++ { x with quote := { x.quote with qty := qty } } :: B) :=
        (Stays.refl A).append (.stay x qty (.refl B))
      exact ⟨_, [], hS ▸ hstay, (List.append_nil _).symm, .inl rfl⟩
  | @replace A x B _ _ _ _ _ hS _ _ h =>
      exact ⟨_, _, (hS ▸ Stays.drop A x B).trans h, rfl, hrests _ _ _ _⟩

namespace Ran

variable {L : List Bytes} {m : OrderBookStateMachine} {S : List Queued}

theorem after (h : Ran L m S) : obMachine.after L = some m := by
  induction h with
  | start => rfl
  | ignored _ hr _ ih =>
      rw [Linear.SessionMachine.after_snoc ih]
      exact congrArg (Option.map Prod.fst) hr
  | executed _ _ _ hr _ _ ih =>
      rw [Linear.SessionMachine.after_snoc ih]
      exact congrArg (Option.map Prod.fst) hr

theorem shows (h : Ran L m S) : Shows m (S.map Queued.quote) := by
  induction h with
  | start => exact shows_init
  | ignored _ _ _ ih => exact ih
  | executed _ _ _ _ _ hs => exact hs

/-- **The order of the queues is the order of the positions.** -/
theorem sorted (h : Ran L m S) : (∀ x ∈ S, x.position < L.length) ∧
    S.Pairwise fun x y => x.position < y.position := by
  induction h with
  | start => exact ⟨fun _ hx => (List.not_mem_nil hx).elim, List.Pairwise.nil⟩
  | ignored _ _ _ ih =>
      rw [List.length_append]
      exact ⟨fun x hx => Nat.lt_add_right _ (ih.1 x hx), ih.2⟩
  | executed _ _ _ _ ht _ ih =>
      obtain ⟨S₁, T, hstay, rfl, hT⟩ := ht.shape
      have hold : ∀ x ∈ S₁, x.position < _ := fun x hx => by
        obtain ⟨y, hy, hp⟩ := hstay.mem x hx
        exact hp ▸ ih.1 y hy
      have hnew : ∀ x ∈ T, x.position = _ := fun x hx => by
        rcases hT with rfl | ⟨q, rfl⟩
        · exact (List.not_mem_nil hx).elim
        · rw [List.mem_singleton.mp hx]
      have hone : T.Pairwise fun x y => x.position < y.position := by
        rcases hT with rfl | ⟨q, rfl⟩
        · exact List.Pairwise.nil
        · exact List.pairwise_singleton _ _
      rw [List.length_append, List.length_singleton]
      refine ⟨fun x hx => ?_, List.pairwise_append.mpr ⟨hstay.sorted ih.2, hone, fun x hx y hy => ?_⟩⟩
      · rcases List.mem_append.mp hx with hx | hx
        · exact Nat.lt_succ_of_lt (hold x hx)
        · exact Nat.lt_succ_of_le (Nat.le_of_eq (hnew x hx))
      · rw [hnew y hy]
        exact hold x hx

theorem pos (h : Ran L m S) : ∀ x ∈ S, 0 < x.quote.qty := by
  intro x hx
  obtain ⟨m', Q, hQ⟩ := exists_reached L
  obtain rfl : m' = m := Option.some.inj (hQ.after.symm.trans h.after)
  have hmem : x.quote.resting ∈ levelOf (S.map Queued.quote) x.quote.side x.quote.price :=
    mem_levelOf.mpr ⟨x.quote, List.mem_map_of_mem hx, rfl, rfl, rfl⟩
  rw [← h.shows.levelAt, hQ.shows.levelAt] at hmem
  obtain ⟨e, he, -, -, hres⟩ := mem_levelOf.mp hmem
  have hqty : e.qty = x.quote.qty := congrArg Resting.qty hres
  exact hqty ▸ hQ.sound.qty e he

end Ran

/-- **Every run has a history.** -/
theorem exists_ran (L : List Bytes) : ∃ m S, Ran L m S := by
  induction L using List.reverseRecOn with
  | nil => exact ⟨{}, [], .start⟩
  | append_singleton L cmd ih =>
      obtain ⟨m, S, h⟩ := ih
      rcases apply_cases m cmd with ⟨r, hr, hno⟩ | ⟨hd, p, hp, hc⟩
      · exact ⟨m, S, h.ignored hr hno⟩
      · obtain ⟨m', b, S', hrun, ht, hS⟩ := exists_turn h.shows h.pos L.length p
        exact ⟨_, S', h.executed hp hc (apply_executed hp hc hrun) ht (hS.recordResult _ _ _)⟩

/-! ## 3. Makers in order -/

/-- A taker of `q` meets the makers `X` one after the other, until it is filled or there is none. -/
inductive Served : List Quote → ℕ → List ObFill → ℕ → Prop where
  | filled {X} : Served X 0 [] 0
  | short {q} (hq : 0 < q) : Served [] q [] q
  | take {x X q fs r} (hq : x.qty ≤ q) (h : Served X (q - x.qty) fs r) :
      Served (x :: X) q (⟨x.id, x.price, x.qty⟩ :: fs) r
  | part {x X q} (hq : q < x.qty) : Served (x :: X) q [⟨x.id, x.price, q⟩] 0

/-- The best of the book is the first of the crossing orders. -/
theorem Best.first_inOrder {taker : ObSide} {limit : ℕ} {L A B X : List Quote} {e : Quote} (hL : L = A ++ e :: B)
    (hb : Best taker A e B) (hc : rank taker e.price ≤ rank taker limit)
    (hX : InOrder (fun x : Quote => x.side = taker.opposite ∧ rank taker x.price ≤ rank taker limit)
      (fun x => rank taker x.price) L X) :
    ∃ Y, X = e :: Y ∧ InOrder (fun x : Quote => x.side = taker.opposite ∧
      rank taker x.price ≤ rank taker limit) (fun x => rank taker x.price) (A ++ B) Y := by
  have hb' := (FirstLeast.within (rank taker limit)).mpr ⟨hb, hc⟩
  cases hX with
  | done hno => exact absurd hb'.admissible (hno _ (by simp [hL]))
  | next hb'' h =>
      obtain ⟨rfl, rfl, rfl⟩ := hb'.unique hb'' hL.symm
      exact ⟨_, rfl, h⟩

/-- **A trade serves the crossing orders in their order.** -/
theorem Trade.served {taker : ObSide} {limit q r : ℕ} {L M X : List Quote} {fs : List ObFill}
    (h : Trade taker limit L q fs M r) (hX : InOrder (fun x : Quote => x.side = taker.opposite ∧
      rank taker x.price ≤ rank taker limit) (fun x => rank taker x.price) L X) : Served X q fs r := by
  induction h generalizing X with
  | filled => exact .filled
  | away hq h =>
      cases hX with
      | done => exact .short hq
      | next hb =>
          exact absurd hb.admissible.2 (not_le_of_gt (h _ (by simp) hb.admissible.1))
  | take hq hL hb hc he ht ih =>
      obtain ⟨Y, rfl, hY⟩ := Best.first_inOrder hL hb hc hX
      exact .take he (ih hY)
  | part hq hL hb hc he =>
      obtain ⟨Y, rfl, -⟩ := Best.first_inOrder hL hb hc hX
      exact .part he

/-- **The fills are an initial segment of the makers `X`**: at the price of each, only the last for less
    than its quantity, and with something left of the taker only if every one is used up. -/
structure InitialSegment (X : List Quote) (fills : List ObFill) (residual : ℕ) : Prop where
  length : fills.length ≤ X.length
  maker : ∀ i f x, fills[i]? = some f → X[i]? = some x → f.makerOrderId = x.id ∧ f.price = x.price ∧
    f.qty ≤ x.qty ∧ (i + 1 < fills.length → f.qty = x.qty)
  residual : 0 < residual → fills = X.map fun x => ⟨x.id, x.price, x.qty⟩

theorem Served.initialSegment {X : List Quote} {q r : ℕ} {fs : List ObFill} (h : Served X q fs r) :
    InitialSegment X fs r := by
  induction h with
  | filled => exact ⟨Nat.zero_le _, fun _ _ _ hf => by simp at hf, fun h => absurd h (Nat.lt_irrefl 0)⟩
  | short => exact ⟨Nat.zero_le _, fun _ _ _ hf => by simp at hf, fun _ => rfl⟩
  | take hq h ih =>
      refine ⟨Nat.succ_le_succ ih.length, fun i f x hf hx => ?_, fun hr => ?_⟩
      · cases i with
        | zero =>
            cases hf
            cases hx
            exact ⟨rfl, rfl, Nat.le_refl _, fun _ => rfl⟩
        | succ i =>
            obtain ⟨hid, hp, hle, hfull⟩ := ih.maker i f x hf hx
            exact ⟨hid, hp, hle, fun hlt => hfull (Nat.lt_of_succ_lt_succ hlt)⟩
      · rw [List.map_cons, ← ih.residual hr]
  | part hq =>
      refine ⟨Nat.succ_le_succ (Nat.zero_le _), fun i f x hf hx => ?_, fun h => absurd h (Nat.lt_irrefl 0)⟩
      cases i with
      | zero =>
          cases hf
          cases hx
          exact ⟨rfl, rfl, Nat.le_of_lt hq, fun h => absurd h (Nat.lt_irrefl _)⟩
      | succ i => simp at hf

/-! ## 4. Price-time priority -/

/-- The commands that make a taker: its side, its limit, its id and its quantity. -/
inductive Takes (m : OrderBookStateMachine) : ObPayload → ObSide → ℕ → ℕ → ℕ → Prop where
  | new {side price qty} : Takes m (.new side price qty) side price m.nextOrderId qty
  | replace {id price qty o} (ho : m.order id = some o) (hq : ¬ (price = o.price ∧ qty ≤ o.qty)) :
      Takes m (.amend id price qty) o.side price id qty

/-- The better price for the taker, and at one price the earlier position in the run. -/
def Before (taker : ObSide) (x y : Queued) : Prop :=
  rank taker x.quote.price < rank taker y.quote.price ∨
    x.quote.price = y.quote.price ∧ x.position < y.position

/-- **Whom a taker meets**: the makers `X` are the crossing orders of the other side in `S`, in the order
    of price and time, and the fills an initial segment of them. -/
def ByPriceTime (taker : ObSide) (limit : ℕ) (S : List Queued) (fills : List ObFill) (residual : ℕ) : Prop :=
  ∃ X : List Queued,
    X.Perm (S.filter fun x => x.quote.side = taker.opposite ∧ crosses taker x.quote.price limit = true) ∧
    X.Pairwise (Before taker) ∧ InitialSegment (X.map Queued.quote) fills residual

theorem Trade.byPriceTime {taker : ObSide} {limit q r : ℕ} {S : List Queued} {M : List Quote}
    {fs : List ObFill} (h : Trade taker limit (S.map Queued.quote) q fs M r)
    (hS : S.Pairwise fun x y => x.position < y.position) : ByPriceTime taker limit S fs r := by
  obtain ⟨X, hX⟩ := exists_inOrder (fun x : Queued => x.quote.side = taker.opposite ∧
    rank taker x.quote.price ≤ rank taker limit) (fun x => rank taker x.quote.price) S
  refine ⟨X, ?_, ?_, ?_⟩
  · simp only [crosses_iff]
    exact hX.perm
  · exact (hX.sorted hS).imp fun hxy => hxy.imp_right fun heq => ⟨rank_inj heq.1, heq.2⟩
  · have hquotes : InOrder (fun x : Quote => x.side = taker.opposite ∧ rank taker x.price ≤ rank taker limit)
        (fun x => rank taker x.price) (S.map Queued.quote) (X.map Queued.quote) := hX.map
    exact (h.served hquotes).initialSegment

/-- What a taker of the other side meets does not depend on the orders of its own side. -/
theorem ByPriceTime.of_own {taker : ObSide} {limit r : ℕ} {A B : List Queued} {x : Queued}
    {fs : List ObFill} (h : ByPriceTime taker limit (A ++ B) fs r) (hx : x.quote.side = taker) :
    ByPriceTime taker limit (A ++ x :: B) fs r := by
  obtain ⟨X, hperm, hsorted, hseg⟩ := h
  refine ⟨X, ?_, hsorted, hseg⟩
  have hno : ¬ (x.quote.side = taker.opposite ∧ crosses taker x.quote.price limit = true) :=
    fun hn => taker.opposite_ne (hn.1.symm.trans hx)
  rw [List.filter_append] at hperm ⊢
  rwa [List.filter_cons_of_neg (by simpa using hno)]

/-- **A taker meets the other side by price and time.** -/
theorem Takes.byPriceTime {m : OrderBookStateMachine} {S : List Queued} {p : ObPayload} {taker : ObSide}
    {limit id qty : ℕ} (h : Takes m p taker limit id qty) (hS : Shows m (S.map Queued.quote))
    (hpos : ∀ x ∈ S, 0 < x.quote.qty) (hsort : S.Pairwise fun x y => x.position < y.position) :
    ∃ m' r fs, m.applyPayload p = some (m', okResult id r fs) ∧ ByPriceTime taker limit S fs r := by
  have hpos' : ∀ y ∈ S.map Queued.quote, 0 < y.qty := fun y hy => by
    obtain ⟨x, hx, rfl⟩ := List.mem_map.mp hy
    exact hpos x hx
  cases h with
  | new =>
      obtain ⟨m', M, r, fs, hrun, ⟨N, ht, -⟩, -⟩ :=
        execute_placed (hS.renumber _) hpos' taker limit m.nextOrderId qty
      exact ⟨m', r, fs, hrun, ht.byPriceTime hsort⟩
  | replace ho hq =>
      obtain ⟨A, e, B, hsplit, rfl, rfl, hloc⟩ := hS.located_of_order ho
      rw [hsplit] at hS hpos'
      obtain ⟨m₁, hrem, hS₁, -⟩ := hloc.remove hS
      have hpos₁ : ∀ y ∈ A ++ B, 0 < y.qty := fun y hy =>
        hpos' y (mem_of_taken hy)
      obtain ⟨m', M, r, fs, hrun, ⟨N, ht, -⟩, -⟩ := execute_placed hS₁ hpos₁ e.side limit e.id qty
      have hpay : m.applyAmend e.id limit qty = some (m', okResult e.id r fs) := by
        rw [hloc.applyAmend_replace hq, cancelReplace, hrem]
        exact hrun
      -- the amended order is of the taker's own side
      obtain ⟨A, x, B, rfl, rfl, rfl, rfl⟩ := split_queued hsplit
      rw [← List.map_append] at ht
      have hsub := (List.sublist_cons_self x B).append_left A
      exact ⟨m', r, fs, hpay, (ht.byPriceTime (hsort.sublist hsub)).of_own rfl⟩

/-- A command that makes no taker produces no fills. -/
theorem Turn.no_fills {m : OrderBookStateMachine} {n : ℕ} {S S' : List Queued} {p : ObPayload} {b : Bytes}
    (h : Turn m n S p b S') (hp : ∀ taker limit id qty, ¬ Takes m p taker limit id qty) :
    b = [kObReject] ∨ ∃ id qty, b = okResult id qty [] := by
  cases h with
  | new => exact absurd .new (hp _ _ _ _)
  | cancelUnknown => exact .inl rfl
  | cancel => exact .inr ⟨_, _, rfl⟩
  | amendUnknown => exact .inl rfl
  | keep => exact .inr ⟨_, _, rfl⟩
  | replace _ hx hq => exact absurd (.replace hx.order hq) (hp _ _ _ _)

/-- **Price-time priority.** Every run has a history of positions. Whatever history it is, the resting
    orders of the engine are those of the history, in the order of their positions; a command that makes
    a taker fills an initial segment of the crossing orders by price and position, and every other
    command fills nothing. -/
theorem price_time_priority (L : List Bytes) : (∃ m S, Ran L m S) ∧ ∀ m S, Ran L m S →
    OrderBookStateMachine.after L = some m ∧ Shows m (S.map Queued.quote) ∧
    (S.Pairwise fun x y => x.position < y.position) ∧
    ∀ cmd hd p, parseOb cmd = some (hd, p) → m.cachedResult hd.clientId hd.seqNo = none →
      ∃ m' result, m.apply cmd = some (m', result) ∧
        (∀ taker limit id qty, Takes m p taker limit id qty → ∃ fills residual,
          result = okResult id residual fills ∧ ByPriceTime taker limit S fills residual) ∧
        ((∀ taker limit id qty, ¬ Takes m p taker limit id qty) →
          result = [kObReject] ∨ ∃ id qty, result = okResult id qty []) := by
  refine ⟨exists_ran L, fun m S h => ⟨h.after, h.shows, h.sorted.2, fun cmd hd p hp hc => ?_⟩⟩
  obtain ⟨m', b, S', hrun, hturn, -⟩ := exists_turn h.shows h.pos L.length p
  refine ⟨_, b, apply_executed hp hc hrun, fun taker limit id qty ht => ?_, hturn.no_fills⟩
  obtain ⟨m'', r, fs, hrun', hby⟩ := ht.byPriceTime h.shows h.pos h.sorted.2
  cases hrun.symm.trans hrun'
  exact ⟨fs, r, rfl, hby⟩

end Rsm.StateMachine
