/-
  File:      RaftRsm/StateMachine/BookRuns.lean
  Subject:   RUNS OF THE MATCHING ENGINE from the empty book, on arbitrary bytes.

  * `obMachine` -- the engine as a machine with sessions, and that it keeps their laws;
  * `Reached L m Q` -- after the commands `L` the engine is in the state `m`, which shows the book `Q`;
  * `exists_reached` -- every sequence of commands comes to its end in such a state;
  * `book_invariant` -- levels, index and ids agree, as long as the id counter has not wrapped;
  * `never_crossed` -- the best bid is below the best ask, whether it has wrapped or not.
-/
import RaftRsm.Linear.Accepted
import RaftRsm.StateMachine.BookView

namespace Rsm.StateMachine

open Rsm.Rpc Linear OrderBookStateMachine

/-! ## 1. The engine as a machine with sessions -/

/-- A whole command; `none` if it is malformed. -/
def parseOb (cmd : Bytes) : Option (ObHeader × ObPayload) :=
  match readHeader cmd with
  | none => none
  | some (h, r) => (readPayload h.op r).map fun p => (h, p)

/-- The session of a command: none if it has no identity or opts out. -/
def obSession (cmd : Bytes) : Option (ℕ × ℕ) :=
  match readHeader cmd with
  | none => none
  | some (h, _) => if h.clientId = 0 then none else some (h.clientId, h.seqNo)

def obMachine : SessionMachine OrderBookStateMachine Bytes Bytes where
  init := {}
  apply := OrderBookStateMachine.apply
  wellFormed cmd := (parseOb cmd).isSome
  session := obSession
  last m c := m.sessions[c]?.map fun s => (s.lastSeq, s.lastResult)

section Apply

variable {m : OrderBookStateMachine} {cmd : Bytes} {h : ObHeader} {p : ObPayload} {r : Bytes}

theorem parseOb_eq_some (hp : parseOb cmd = some (h, p)) :
    ∃ rd, readHeader cmd = some (h, rd) ∧ readPayload h.op rd = some p := by
  unfold parseOb at hp
  split at hp
  · cases hp
  · rename_i h' rd hh
    obtain ⟨p', hp', he⟩ := Option.map_eq_some_iff.mp hp
    cases he
    exact ⟨rd, hh, hp'⟩

theorem cachedResult_eq_some_iff {c n : ℕ} : m.cachedResult c n = some r ↔
    c ≠ 0 ∧ ∃ s, m.sessions[c]? = some s ∧ n ≤ s.lastSeq ∧ s.lastResult = r := by
  unfold cachedResult
  by_cases hc : c = 0
  · simp [hc]
  · cases hs : m.sessions[c]? with
    | none => simp [hc]
    | some s => simp [hc]

/-- A duplicate is answered from the table, whatever comes after its identity. -/
theorem apply_cached {rd : Reader} (hh : readHeader cmd = some (h, rd))
    (hc : m.cachedResult h.clientId h.seqNo = some r) : m.apply cmd = some (m, r) := by
  unfold OrderBookStateMachine.apply
  rw [hh]
  dsimp only
  rw [hc]

/-- A malformed command changes nothing. -/
theorem apply_malformed (hp : parseOb cmd = none) : ∃ r, m.apply cmd = some (m, r) := by
  cases hh : readHeader cmd with
  | none =>
      refine ⟨[kObMalformed], ?_⟩
      unfold OrderBookStateMachine.apply
      rw [hh]
  | some x =>
      obtain ⟨h, rd⟩ := x
      cases hc : m.cachedResult h.clientId h.seqNo with
      | some r => exact ⟨r, apply_cached hh hc⟩
      | none =>
          refine ⟨[kObMalformed], ?_⟩
          unfold parseOb at hp
          rw [hh] at hp
          unfold OrderBookStateMachine.apply
          rw [hh]
          dsimp only
          rw [hc, Option.map_eq_none_iff.mp hp]

/-- A new command is executed and recorded. -/
theorem apply_new (hp : parseOb cmd = some (h, p)) (hc : m.cachedResult h.clientId h.seqNo = none) :
    m.apply cmd = (m.applyPayload p).map fun x =>
      (x.1.recordResult h.clientId h.seqNo x.2, x.2) := by
  obtain ⟨rd, hh, hpay⟩ := parseOb_eq_some hp
  unfold OrderBookStateMachine.apply
  rw [hh]
  dsimp only
  rw [hc, hpay]
  dsimp only
  cases m.applyPayload p <;> rfl

theorem obSession_of_parse (hp : parseOb cmd = some (h, p)) :
    obSession cmd = if h.clientId = 0 then none else some (h.clientId, h.seqNo) := by
  obtain ⟨rd, hh, -⟩ := parseOb_eq_some hp
  unfold obSession
  rw [hh]

theorem obLast_recordResult (c n : ℕ) : obMachine.last (m.recordResult c n r) =
    if c = 0 then obMachine.last m else Function.update (obMachine.last m) c (some (n, r)) := by
  unfold recordResult
  by_cases hc : c = 0
  · rw [if_neg (not_not.mpr hc), if_pos hc]
  · rw [if_pos hc, if_neg hc]
    funext d
    show (m.sessions.insert c ⟨n, r⟩)[d]?.map _ = _
    rw [getElem?_insert_nat]
    by_cases hd : d = c
    · subst hd
      rw [if_pos rfl, Function.update_self]
      rfl
    · rw [if_neg (Ne.symm hd), Function.update_of_ne hd]
      rfl

/-- The table says that a command is new exactly if `apply` finds nothing in it. -/
theorem cachedResult_eq_none_iff (hp : parseOb cmd = some (h, p)) :
    m.cachedResult h.clientId h.seqNo = none ↔ ∀ c q, obSession cmd = some (c, q) →
      ∀ q' r, obMachine.last m c = some (q', r) → q' < q := by
  rw [obSession_of_parse hp]
  constructor
  · intro hn c q hs q' r hl
    split_ifs at hs with h0
    cases hs
    obtain ⟨s, hs, he⟩ := Option.map_eq_some_iff.mp hl
    cases he
    by_contra hle
    rw [cachedResult_eq_some_iff.mpr ⟨h0, s, hs, Nat.le_of_not_lt hle, rfl⟩] at hn
    cases hn
  · intro hnew
    rw [Option.eq_none_iff_forall_ne_some]
    intro r hr
    obtain ⟨h0, s, hs, hle, -⟩ := cachedResult_eq_some_iff.mp hr
    have := hnew h.clientId h.seqNo (if_neg h0) s.lastSeq s.lastResult
      (Option.map_eq_some_iff.mpr ⟨s, hs, rfl⟩)
    omega

end Apply

/-- What a command does to the sessions apart, it leaves them alone. -/
theorem recordResult_index (m : OrderBookStateMachine) (c n : ℕ) (r : Bytes) :
    (m.recordResult c n r).index = m.index ∧ (m.recordResult c n r).bids = m.bids ∧
      (m.recordResult c n r).asks = m.asks ∧
      (m.recordResult c n r).nextOrderId = m.nextOrderId := by
  unfold recordResult
  split_ifs <;> exact ⟨rfl, rfl, rfl, rfl⟩

theorem Shows.recordResult {m : OrderBookStateMachine} {Q : List Quote} (h : Shows m Q) (c n : ℕ)
    (r : Bytes) : Shows (m.recordResult c n r) Q := by
  obtain ⟨hi, hb, ha, -⟩ := recordResult_index m c n r
  refine ⟨fun s p => ?_, fun id => ?_⟩
  · rw [book_congr hb ha]
    exact h.level s p
  · rw [hi]
    exact h.located id

theorem Indexed.recordResult {m : OrderBookStateMachine} {Q : List Quote} (h : Indexed m Q)
    (c n : ℕ) (r : Bytes) : Indexed (m.recordResult c n r) Q := by
  refine ⟨h.nodup, fun e he => ?_⟩
  rw [(recordResult_index m c n r).1]
  exact h.index e he

/-- Prices and quantities that are read are positive. -/
theorem positive_of_readPayload {op : ObOp} {rd : Reader} {p : ObPayload}
    (h : readPayload op rd = some p) : p.Positive := by
  cases op with
  | new =>
      dsimp only [readPayload] at h
      split at h
      · cases h
      · split at h
        · cases h
        · split_ifs at h with h0
          cases h
          exact ⟨by omega, by omega⟩
  | cancel =>
      dsimp only [readPayload] at h
      split at h
      · cases h
      · cases h
        trivial
  | amend =>
      dsimp only [readPayload] at h
      split at h
      · cases h
      · split_ifs at h with h0
        cases h
        exact ⟨by omega, by omega⟩

/-! ## 2. What a run reaches -/

/-- A command is not executed and changes nothing, or it is executed and recorded. -/
theorem apply_cases (m : OrderBookStateMachine) (cmd : Bytes) :
    (∃ r, m.apply cmd = some (m, r) ∧
      ∀ h p, parseOb cmd = some (h, p) → m.cachedResult h.clientId h.seqNo ≠ none) ∨
    ∃ h p, parseOb cmd = some (h, p) ∧ m.cachedResult h.clientId h.seqNo = none := by
  cases hp : parseOb cmd with
  | none =>
      obtain ⟨r, hr⟩ := apply_malformed (m := m) hp
      exact .inl ⟨r, hr, fun h p he => by cases he⟩
  | some hp' =>
      obtain ⟨h, p⟩ := hp'
      cases hc : m.cachedResult h.clientId h.seqNo with
      | none => exact .inr ⟨h, p, rfl, hc⟩
      | some r =>
          obtain ⟨rd, hh, -⟩ := parseOb_eq_some hp
          refine .inl ⟨r, apply_cached hh hc, fun h' p' he => ?_⟩
          cases he
          rw [hc]
          exact Option.some_ne_none r

/-- What executing a command does to the book. -/
theorem executes {m : OrderBookStateMachine} {Q : List Quote} {cmd : Bytes} {h : ObHeader}
    {p : ObPayload} (hS : Shows m Q) (hQ : Sound Q) (hp : parseOb cmd = some (h, p))
    (hc : m.cachedResult h.clientId h.seqNo = none) : ∃ m' M r, m.apply cmd = some (m', r) ∧
      Does (· ∈ m.index) m.nextOrderId Q p M r ∧ Shows m' M ∧ Sound M ∧
      m'.nextOrderId = p.nextId m.nextOrderId ∧
      obMachine.last m' = (if h.clientId = 0 then obMachine.last m
        else Function.update (obMachine.last m) h.clientId (some (h.seqNo, r))) ∧
      (Indexed m Q → (p.isNew = true → m.nextOrderId ∉ Q.map Quote.id) → Indexed m' M) := by
  obtain ⟨rd, -, hpay⟩ := parseOb_eq_some hp
  obtain ⟨m₁, M, r, hrun, hd, hS₁, hn, hs, hi⟩ := applyPayload_steps hS hQ.qty p
  refine ⟨m₁.recordResult h.clientId h.seqNo r, M, r, ?_, hd, hS₁.recordResult _ _ _,
    hd.sound hQ (positive_of_readPayload hpay), ?_, ?_, fun h1 h2 => (hi h1 h2).recordResult _ _ _⟩
  · rw [apply_new hp hc, hrun]
    rfl
  · rw [(recordResult_index m₁ _ _ _).2.2.2, hn]
  · have hlast : obMachine.last m₁ = obMachine.last m := by
      unfold obMachine
      dsimp only
      rw [hs]
    rw [obLast_recordResult, hlast]

/-- Every run comes to its end in a state that shows a sound book. -/
theorem exists_shows (L : List Bytes) :
    ∃ m Q, obMachine.after L = some m ∧ Shows m Q ∧ Sound Q := by
  induction L using List.reverseRecOn with
  | nil => exact ⟨{}, [], rfl, shows_init, Sound.nil⟩
  | append_singleton L cmd ih =>
      obtain ⟨m, Q, hL, hS, hQ⟩ := ih
      rw [SessionMachine.after_snoc hL]
      show ∃ m' Q', (m.apply cmd).map Prod.fst = some m' ∧ _
      rcases apply_cases m cmd with ⟨r, hr, -⟩ | ⟨h, p, hp, hc⟩
      · exact ⟨m, Q, by rw [hr]; rfl, hS, hQ⟩
      · obtain ⟨m', M, r, hr, -, hS', hM, -⟩ := executes hS hQ hp hc
        exact ⟨m', M, by rw [hr]; rfl, hS', hM⟩

/-- **The engine keeps the laws of its session table.** -/
theorem obMachine_lawful : obMachine.Lawful where
  init c := rfl
  malformed {m cmd} hw := apply_malformed (Option.isSome_eq_false_iff.mp hw |> Option.isNone_iff_eq_none.mp)
  duplicate {m cmd c q q' r} hw hs hl hle := by
    obtain ⟨⟨h, p⟩, hp⟩ := Option.isSome_iff_exists.mp hw
    obtain ⟨rd, hh, -⟩ := parseOb_eq_some hp
    have hs : obSession cmd = some (c, q) := hs
    rw [obSession_of_parse hp] at hs
    split_ifs at hs with h0
    cases hs
    obtain ⟨s, hs, he⟩ := Option.map_eq_some_iff.mp hl
    cases he
    exact apply_cached hh (cachedResult_eq_some_iff.mpr ⟨h0, s, hs, hle, rfl⟩)
  fresh {L m cmd m' r} hL hw hnew hap := by
    obtain ⟨⟨h, p⟩, hp⟩ := Option.isSome_iff_exists.mp hw
    obtain ⟨m₀, Q, hL', hS, hQ⟩ := exists_shows L
    obtain rfl : m₀ = m := Option.some.inj (hL'.symm.trans hL)
    obtain ⟨m₁, M, r₁, hr, -, -, -, -, hlast, -⟩ :=
      executes hS hQ hp ((cachedResult_eq_none_iff hp).mpr hnew)
    cases hr.symm.trans hap
    have hsession : obMachine.session cmd = _ := obSession_of_parse hp
    rw [hsession, hlast]
    split_ifs <;> rfl

theorem after_isSome (L : List Bytes) : (obMachine.after L).isSome = true := by
  obtain ⟨m, Q, hL, -⟩ := exists_shows L
  rw [hL]
  rfl

def isNew (cmd : Bytes) : Bool :=
  match parseOb cmd with
  | some (_, p) => p.isNew
  | none => false

/-- How many NEWs of a sequence count. -/
def acceptedNews (L : List Bytes) : ℕ := (obMachine.accepted L).countP isNew

/-- **After the commands `L` the engine is in the state `m`, which shows the book `Q`.** -/
structure Reached (L : List Bytes) (m : OrderBookStateMachine) (Q : List Quote) : Prop where
  after : obMachine.after L = some m
  shows : Shows m Q
  sound : Sound Q
  next : m.nextOrderId = (1 + acceptedNews L) % 2 ^ 64
  indexed : acceptedNews L < 2 ^ 64 →
    Indexed m Q ∧ ∀ e ∈ Q, 1 ≤ e.id ∧ e.id ≤ acceptedNews L

theorem acceptedNews_snoc_of_not {L : List Bytes} {cmd : Bytes}
    (h : ¬ obMachine.accepts (obMachine.accepted L) cmd = true) :
    acceptedNews (L ++ [cmd]) = acceptedNews L := by
  unfold acceptedNews
  rw [SessionMachine.accepted_snoc_of_not h]

theorem acceptedNews_snoc_of {L : List Bytes} {cmd : Bytes} {h : ObHeader} {p : ObPayload}
    (hp : parseOb cmd = some (h, p)) (ha : obMachine.accepts (obMachine.accepted L) cmd = true) :
    acceptedNews (L ++ [cmd]) = acceptedNews L + if p.isNew then 1 else 0 := by
  have hnew : isNew cmd = p.isNew := by
    unfold isNew
    rw [hp]
  unfold acceptedNews
  rw [SessionMachine.accepted_snoc_of ha, List.countP_append, List.countP_singleton, hnew]

/-- The table and the history agree on which commands count. -/
theorem accepts_iff_new {L : List Bytes} {m : OrderBookStateMachine} {cmd : Bytes} {h : ObHeader}
    {p : ObPayload} (hL : obMachine.after L = some m) (hp : parseOb cmd = some (h, p)) :
    obMachine.accepts (obMachine.accepted L) cmd = true ↔
      m.cachedResult h.clientId h.seqNo = none := by
  have hw : obMachine.wellFormed cmd = true := Option.isSome_iff_exists.mpr ⟨_, hp⟩
  rw [cachedResult_eq_none_iff hp, (obMachine_lawful.remembers hL).accepts_iff hw]
  rfl

theorem reached_nil : Reached [] {} [] :=
  ⟨rfl, shows_init, Sound.nil, rfl, fun _ => ⟨indexed_init, fun _ h => (List.not_mem_nil h).elim⟩⟩

section Run

variable {L : List Bytes} {m m' : OrderBookStateMachine} {Q : List Quote} {cmd r : Bytes}

theorem Reached.after_snoc (h : Reached L m Q) (hr : m.apply cmd = some (m', r)) :
    obMachine.after (L ++ [cmd]) = some m' := by
  rw [SessionMachine.after_snoc h.after]
  show (m.apply cmd).map Prod.fst = some m'
  rw [hr]
  rfl

/-- A command that is not executed. -/
theorem Reached.skip (h : Reached L m Q) (hr : m.apply cmd = some (m, r))
    (hno : ∀ hd p, parseOb cmd = some (hd, p) → m.cachedResult hd.clientId hd.seqNo ≠ none) :
    Reached (L ++ [cmd]) m Q := by
  have hna : ¬ obMachine.accepts (obMachine.accepted L) cmd = true := by
    intro ha
    obtain ⟨⟨hd, p⟩, hp⟩ := Option.isSome_iff_exists.mp (SessionMachine.accepts_iff.mp ha).1
    exact hno hd p hp ((accepts_iff_new h.after hp).mp ha)
  have hcount := acceptedNews_snoc_of_not hna
  exact ⟨h.after_snoc hr, h.shows, h.sound, hcount ▸ h.next, hcount ▸ h.indexed⟩

/-- A command that is executed. -/
theorem Reached.execute (h : Reached L m Q) {hd : ObHeader} {p : ObPayload}
    (hp : parseOb cmd = some (hd, p)) (hc : m.cachedResult hd.clientId hd.seqNo = none) :
    ∃ m' M r, m.apply cmd = some (m', r) ∧ Does (· ∈ m.index) m.nextOrderId Q p M r ∧
      m'.nextOrderId = p.nextId m.nextOrderId ∧
      obMachine.last m' = (if hd.clientId = 0 then obMachine.last m
        else Function.update (obMachine.last m) hd.clientId (some (hd.seqNo, r))) ∧
      Reached (L ++ [cmd]) m' M := by
  obtain ⟨m', M, r, hr, hdoes, hS, hM, hn, hlast, hi⟩ := executes h.shows h.sound hp hc
  have hcount := acceptedNews_snoc_of hp ((accepts_iff_new h.after hp).mpr hc)
  refine ⟨m', M, r, hr, hdoes, hn, hlast, h.after_snoc hr, hS, hM, ?_, fun hlt => ?_⟩
  · rw [hn, hcount, h.next]
    cases p with
    | new =>
        simp only [ObPayload.nextId, ObPayload.isNew, if_true]
        omega
    | cancel => rfl
    | amend => rfl
  · rw [hcount] at hlt ⊢
    obtain ⟨hidx, hids⟩ := h.indexed (by omega)
    -- the counter has not wrapped: the next id is above all ids of the book
    have hfresh : p.isNew = true → m.nextOrderId ∉ Q.map Quote.id := by
      intro hnew hm
      obtain ⟨e, he, hid⟩ := List.mem_map.mp hm
      have := hids e he
      rw [hid, h.next] at this
      rw [hnew, if_pos rfl] at hlt
      omega
    refine ⟨hi hidx hfresh, fun x hx => ?_⟩
    rcases hdoes.ids x hx with hid | ⟨hnew, hid⟩
    · obtain ⟨e, he, hid⟩ := List.mem_map.mp hid
      have := hids e he
      rw [← hid]
      omega
    · rw [hnew, if_pos rfl] at hlt ⊢
      rw [hid, h.next]
      omega

/-- **One command.** -/
theorem Reached.snoc (h : Reached L m Q) (cmd : Bytes) :
    ∃ m' Q' r, m.apply cmd = some (m', r) ∧ Reached (L ++ [cmd]) m' Q' := by
  rcases apply_cases m cmd with ⟨r, hr, hno⟩ | ⟨hd, p, hp, hc⟩
  · exact ⟨m, Q, r, hr, h.skip hr hno⟩
  · obtain ⟨m', M, r, hr, -, -, -, h'⟩ := h.execute hp hc
    exact ⟨m', M, r, hr, h'⟩

end Run

/-- **Every sequence of commands comes to its end**, in a state that shows a sound book. -/
theorem exists_reached (L : List Bytes) : ∃ m Q, Reached L m Q := by
  induction L using List.reverseRecOn with
  | nil => exact ⟨{}, [], reached_nil⟩
  | append_singleton L cmd ih =>
      obtain ⟨m, Q, h⟩ := ih
      obtain ⟨m', Q', r, -, h'⟩ := h.snoc cmd
      exact ⟨m', Q', h'⟩

/-! ## 3. The representation invariant -/

/-- An order with the id rests in the level of that side and price. -/
def HasOrder (m : OrderBookStateMachine) (side : ObSide) (price id : ℕ) : Prop :=
  ∃ level, (m.book side)[price]? = some level ∧ id ∈ level.map Resting.id

/-- **Levels and index agree.** -/
structure BookInvariant (m : OrderBookStateMachine) : Prop where
  level : ∀ side price level, (m.book side)[price]? = some level →
    level ≠ [] ∧ 1 ≤ price ∧ (∀ o ∈ level, 1 ≤ o.qty) ∧ (level.map Resting.id).Nodup
  unique : ∀ id side price side' price', HasOrder m side price id → HasOrder m side' price' id →
    side = side' ∧ price = price'
  index : ∀ id side price, m.index[id]? = some (side, price) ↔ HasOrder m side price id

/-- **No lookup misses and no loop runs on**: every command gets its result, the match loop ends
    for every taker, and every indexed order is found. -/
structure NeverMisses (m : OrderBookStateMachine) : Prop where
  apply : ∀ cmd, (m.apply cmd).isSome = true
  matches_ : ∀ taker limit qty, ∃ rounds x, ∀ fuel, rounds ≤ fuel →
    matchLoop taker limit fuel m qty [] = some x
  remove : ∀ id, id ∈ m.index → (m.remove id).isSome = true
  order : ∀ id side price, m.index[id]? = some (side, price) → ∃ qty, m.order id = some ⟨side, price, qty⟩

section Invariant

variable {m : OrderBookStateMachine} {Q : List Quote} {L : List Bytes}

theorem Shows.hasOrder_iff (h : Shows m Q) {side : ObSide} {price id : ℕ} :
    HasOrder m side price id ↔ ∃ e ∈ Q, e.id = id ∧ e.side = side ∧ e.price = price := by
  unfold HasOrder
  rw [h.level]
  constructor
  · rintro ⟨level, hl, hid⟩
    obtain ⟨rfl, -⟩ := present_eq_some.mp hl
    obtain ⟨o, ho, rfl⟩ := List.mem_map.mp hid
    obtain ⟨e, he, hs, hp, rfl⟩ := mem_levelOf.mp ho
    exact ⟨e, he, rfl, hs, hp⟩
  · rintro ⟨e, he, rfl, rfl, rfl⟩
    refine ⟨_, present_eq_some.mpr ⟨rfl, levelOf_ne_nil he⟩, ?_⟩
    exact List.mem_map.mpr ⟨e.resting, mem_levelOf.mpr ⟨e, he, rfl, rfl, rfl⟩, rfl⟩

theorem levelOf_ids_sublist (Q : List Quote) (side : ObSide) (price : ℕ) :
    ((levelOf Q side price).map Resting.id).Sublist (Q.map Quote.id) := by
  unfold levelOf
  rw [List.map_map]
  exact List.filter_sublist.map _

theorem bookInvariant_of (h : Shows m Q) (hQ : Sound Q) (hi : Indexed m Q) : BookInvariant m := by
  have hone : ∀ e ∈ Q, ∀ e' ∈ Q, e.id = e'.id → e = e' := fun e he e' he' hid =>
    List.inj_on_of_nodup_map hi.nodup he he' hid
  refine ⟨fun side price level hl => ?_, fun id side price side' price' h1 h2 => ?_,
    fun id side price => ?_⟩
  · rw [h.level] at hl
    obtain ⟨rfl, hne⟩ := present_eq_some.mp hl
    refine ⟨hne, ?_, fun o ho => ?_, hi.nodup.sublist (levelOf_ids_sublist Q side price)⟩
    · obtain ⟨o, ho⟩ := List.exists_mem_of_ne_nil _ hne
      obtain ⟨e, he, -, rfl, -⟩ := mem_levelOf.mp ho
      exact hQ.price e he
    · obtain ⟨e, he, -, -, rfl⟩ := mem_levelOf.mp ho
      exact hQ.qty e he
  · obtain ⟨e, he, hid, rfl, rfl⟩ := h.hasOrder_iff.mp h1
    obtain ⟨e', he', hid', rfl, rfl⟩ := h.hasOrder_iff.mp h2
    rw [hone e he e' he' (hid.trans hid'.symm)]
    exact ⟨rfl, rfl⟩
  · rw [h.hasOrder_iff]
    constructor
    · exact h.located id side price
    · rintro ⟨e, he, rfl, rfl, rfl⟩
      exact hi.index e he

/-- Rounds that are left over change nothing. -/
theorem matchLoop_succ {taker : ObSide} {limit : ℕ} (fuel : ℕ) :
    ∀ {m : OrderBookStateMachine} {q : ℕ} {fills : List ObFill}
      {x : OrderBookStateMachine × ℕ × List ObFill},
    matchLoop taker limit fuel m q fills = some x →
      matchLoop taker limit (fuel + 1) m q fills = some x := by
  induction fuel with
  | zero => exact fun h => by cases h
  | succ fuel ih =>
      intro m q fills x h
      unfold matchLoop at h ⊢
      split
      · rename_i h0
        rw [if_pos h0] at h
        exact h
      · rename_i h0
        rw [if_neg h0] at h
        split
        · rename_i hb
          rw [hb] at h
          exact h
        · rename_i price hb
          rw [hb] at h
          dsimp only at h
          split
          · rename_i hc
            rw [if_pos hc] at h
            exact h
          · rename_i hc
            rw [if_neg hc] at h
            split
            · rename_i hl
              rw [hl] at h
              cases h
            · rename_i maker level hl
              rw [hl] at h
              dsimp only at h ⊢
              generalize (if q < maker.qty then q else maker.qty) = fillQty at h ⊢
              split
              · rename_i hq
                rw [if_pos hq] at h
                exact ih h
              · rename_i hq
                rw [if_neg hq] at h
                exact ih h

theorem matchLoop_mono {taker : ObSide} {limit n q : ℕ} {fills : List ObFill}
    {x : OrderBookStateMachine × ℕ × List ObFill} (h : matchLoop taker limit n m q fills = some x)
    (fuel : ℕ) (hle : n ≤ fuel) : matchLoop taker limit fuel m q fills = some x := by
  induction fuel, hle using Nat.le_induction with
  | base => exact h
  | succ k _ ih => exact matchLoop_succ k ih

theorem Reached.neverMisses (h : Reached L m Q) : NeverMisses m := by
  refine ⟨fun cmd => ?_, fun taker limit qty => ?_, fun id hid => ?_, fun id side price hi => ?_⟩
  · obtain ⟨m', Q', r, hr, -⟩ := h.snoc cmd
    rw [hr]
    rfl
  · obtain ⟨m', Q', r, fs, hr, -⟩ := matchLoop_trade taker limit (qty + 1) qty []
      h.shows h.sound.qty (Nat.lt_succ_self qty)
    exact ⟨qty + 1, _, matchLoop_mono hr⟩
  · obtain ⟨⟨side, price⟩, hi⟩ := mem_index_iff.mp hid
    obtain ⟨A, e, B, rfl, rfl, -, -, hloc⟩ := h.shows.locate hi
    obtain ⟨m', hr, -⟩ := hloc.remove h.shows
    rw [hr]
    rfl
  · obtain ⟨A, e, B, rfl, rfl, rfl, rfl, hloc⟩ := h.shows.locate hi
    refine ⟨e.qty, ?_⟩
    unfold order
    rw [hi]
    dsimp only
    rw [hloc.level]
    dsimp only
    rw [hloc.find]
    rfl

end Invariant

/-- **The representation invariant of the order book**, in every run in which fewer than `2 ^ 64`
    NEWs count. The bound of the ids by the counter needs one NEW less: the last of them takes the
    counter back to 0. -/
theorem book_invariant (L : List Bytes) (hL : acceptedNews L < 2 ^ 64) :
    ∃ m, OrderBookStateMachine.after L = some m ∧ BookInvariant m ∧ NeverMisses m ∧
      (acceptedNews L < 2 ^ 64 - 1 → ∀ side price id, HasOrder m side price id →
        id < m.nextOrderId) := by
  obtain ⟨m, Q, h⟩ := exists_reached L
  obtain ⟨hi, hids⟩ := h.indexed hL
  refine ⟨m, h.after, bookInvariant_of h.shows h.sound hi, h.neverMisses, fun hlt side price id ho => ?_⟩
  obtain ⟨e, he, rfl, -⟩ := h.shows.hasOrder_iff.mp ho
  have := hids e he
  rw [h.next]
  omega

/-- Two bids at one price, one of them twice, the first amended behind the second; an ask that rests and one
    that trades; the first bid is cancelled. -/
def busyBook : List Bytes :=
  [encodeObNew 7 1 .bid 3 2, encodeObNew 8 1 .bid 3 5, encodeObNew 8 1 .bid 3 5, encodeObAmend 7 2 1 3 4,
    encodeObNew 0 0 .ask 6 4, encodeObNew 9 1 .ask 3 2, encodeObNew 9 2 .ask 4 1, encodeObCancel 7 3 1]

theorem acceptedNews_busyBook : acceptedNews busyBook = 5 := by decide +kernel

/-- The invariant with its bound on the ids, on a book with three levels. -/
theorem book_invariant_busy : acceptedNews busyBook = 5 ∧
    ∃ m, OrderBookStateMachine.after busyBook = some m ∧ BookInvariant m ∧ NeverMisses m ∧
      (∀ side price id, HasOrder m side price id → id < m.nextOrderId) ∧ m.nextOrderId = 6 ∧
      m.bids.toList = [(3, [⟨2, 3⟩])] ∧ m.asks.toList = [(4, [⟨5, 1⟩]), (6, [⟨3, 4⟩])] := by
  obtain ⟨m, hm, hinv, hmiss, hids⟩ := book_invariant busyBook (by rw [acceptedNews_busyBook]; decide)
  have hstate : (OrderBookStateMachine.after busyBook).map (fun m => (m.nextOrderId, m.bids.toList, m.asks.toList)) =
      some (6, [(3, [⟨2, 3⟩])], [(4, [⟨5, 1⟩]), (6, [⟨3, 4⟩])]) := by decide +kernel
  rw [hm] at hstate
  obtain ⟨hnext, hbids, hasks⟩ := (Prod.mk.injEq _ _ _ _).mp (Option.some.inj hstate) |>.imp_right Prod.mk.inj
  exact ⟨acceptedNews_busyBook, m, hm, hinv, hmiss, hids (by rw [acceptedNews_busyBook]; decide), hnext, hbids, hasks⟩

/-! ## 4. The counter at its end -/

/-- One lot bid at the lowest price, outside all sessions. -/
def loneBid : Bytes := encodeObNew 0 0 .bid 1 1

theorem parseOb_loneBid : parseOb loneBid = some (⟨0, 0, .new⟩, .new .bid 1 1) := by decide +kernel

theorem accepted_loneBids (n : ℕ) :
    obMachine.accepted (List.replicate n loneBid) = List.replicate n loneBid := by
  induction n with
  | zero => rfl
  | succ n ih =>
      have hacc : ∀ A, obMachine.accepts A loneBid = true := by
        intro A
        refine SessionMachine.accepts_iff.mpr
          ⟨Option.isSome_iff_exists.mpr ⟨_, parseOb_loneBid⟩, fun c q hs => ?_⟩
        have hs : obSession loneBid = some (c, q) := hs
        rw [obSession_of_parse parseOb_loneBid] at hs
        cases hs
      rw [List.replicate_succ', SessionMachine.accepted_snoc_of (hacc _), ih]

theorem acceptedNews_loneBids (n : ℕ) : acceptedNews (List.replicate n loneBid) = n := by
  have hnew : isNew loneBid = true := by
    unfold isNew
    rw [parseOb_loneBid]
    rfl
  unfold acceptedNews
  rw [accepted_loneBids, List.countP_replicate, if_pos hnew]

/-- Bids alone all rest. -/
theorem reached_loneBids (n : ℕ) : ∃ m Q, Reached (List.replicate n loneBid) m Q ∧
    Q.length = n ∧ ∀ e ∈ Q, e.side = .bid := by
  induction n with
  | zero => exact ⟨{}, [], reached_nil, rfl, fun _ h => (List.not_mem_nil h).elim⟩
  | succ n ih =>
      obtain ⟨m, Q, h, hlen, hbid⟩ := ih
      obtain ⟨m', M, r, -, hdoes, -, -, h'⟩ := h.execute parseOb_loneBid rfl
      rw [← List.replicate_succ'] at h'
      refine ⟨m', M, h', ?_⟩
      cases hdoes with
      | new hp =>
          obtain ⟨N, ht, rfl⟩ := hp
          cases ht with
          | away =>
              refine ⟨by simp [hlen], fun e he => ?_⟩
              rcases List.mem_append.mp he with he | he
              · exact hbid e he
              · rw [List.mem_singleton.mp he]
          | take _ hL hb =>
              have := hbid _ (hL ▸ List.mem_append_right _ List.mem_cons_self)
              rw [hb.admissible] at this
              cases this
          | part _ hL hb =>
              have := hbid _ (hL ▸ List.mem_append_right _ List.mem_cons_self)
              rw [hb.admissible] at this
              cases this

/-- **After `2 ^ 64 - 1` NEWs the counter is 0**, and no resting order has an id below it. -/
theorem counter_wraps : acceptedNews (List.replicate (2 ^ 64 - 1) loneBid) < 2 ^ 64 ∧
    ∃ m side price id, OrderBookStateMachine.after (List.replicate (2 ^ 64 - 1) loneBid) = some m ∧
      HasOrder m side price id ∧ ¬ id < m.nextOrderId := by
  refine ⟨by rw [acceptedNews_loneBids]; omega, ?_⟩
  obtain ⟨m, Q, h, hlen, -⟩ := reached_loneBids (2 ^ 64 - 1)
  obtain ⟨e, he⟩ : ∃ e, e ∈ Q := List.exists_mem_of_length_pos (by rw [hlen]; omega)
  refine ⟨m, e.side, e.price, e.id, h.after, h.shows.hasOrder_iff.mpr ⟨e, he, rfl, rfl, rfl⟩, ?_⟩
  rw [h.next, acceptedNews_loneBids]
  omega

/-! ## 5. The uncrossed book -/

theorem Shows.uncrossed {m : OrderBookStateMachine} {Q : List Quote} (h : Shows m Q) (hQ : Sound Q) {b a : ℕ}
    (hb : m.bids.maxKey? = some b) (ha : m.asks.minKey? = some a) : b < a := by
  have hrests : ∀ side price, price ∈ m.book side → ∃ e ∈ Q, e.side = side ∧ e.price = price := by
    intro side price hm
    obtain ⟨level, hl⟩ := Option.isSome_iff_exists.mp (Std.ExtTreeMap.mem_iff_isSome_getElem?.mp hm)
    rw [h.level] at hl
    obtain ⟨o, ho⟩ := List.exists_mem_of_ne_nil _ (present_eq_some.mp hl).2
    obtain ⟨e, he, hs, hp, -⟩ := mem_levelOf.mp ho
    exact ⟨e, he, hs, hp⟩
  obtain ⟨x, hx, hxs, rfl⟩ := hrests .bid b (Std.ExtTreeMap.maxKey?_mem hb)
  obtain ⟨y, hy, hys, rfl⟩ := hrests .ask a (Std.ExtTreeMap.minKey?_mem ha)
  have := hQ.uncrossed x hx y hy (by rw [hxs, hys]; rfl)
  rw [hxs] at this
  simpa [rank] using this

/-- **The book is never crossed**, after any sequence of commands. -/
theorem never_crossed (L : List Bytes) : ∃ m, OrderBookStateMachine.after L = some m ∧
    ∀ bid ask, m.bids.maxKey? = some bid → m.asks.minKey? = some ask → bid < ask := by
  obtain ⟨m, Q, h⟩ := exists_reached L
  exact ⟨m, h.after, fun b a hb ha => h.shows.uncrossed h.sound hb ha⟩

end Rsm.StateMachine
