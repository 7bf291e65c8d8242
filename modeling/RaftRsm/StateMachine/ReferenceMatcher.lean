/-
  File:      RaftRsm/StateMachine/ReferenceMatcher.lean
  Subject:   The independent reference matcher of the golden-model tests (`test/ob_reference.h`): one
             flat vector of orders with arrival stamps, and a linear scan for every fill.

  An iterator into the vector is its position and the order there. Stamps and ids are 64 bit numbers
  that wrap, the number of fills has 32 bits. As in `OrderBook`, a loop that has not come to its end
  gives `none`. The stream generator of the tests is not here.
-/
import RaftRsm.StateMachine.KvStore
import Mathlib.Data.List.Sort

namespace ObRef

open Rsm.Rpc Rsm.StateMachine

/-! ## 1. Bytes -/

/-- `n` bytes from the position on as a number, and the position behind them. -/
def readAt (n : ℕ) (b : Bytes) (pos : ℕ) : Option (ℕ × ℕ) :=
  if pos + n > b.length then none else some (leNat ((b.drop pos).take n), pos + n)

def u8 (b : Bytes) (pos : ℕ) : Option (ℕ × ℕ) := readAt 1 b pos

def u64 (b : Bytes) (pos : ℕ) : Option (ℕ × ℕ) := readAt 8 b pos

def putU32 (v : ℕ) : Bytes := leBytes 4 v

/-- Client, number, operation, and the position behind them. -/
def readIdentity (cmd : Bytes) : Option (ℕ × ℕ × ℕ × ℕ) := do
  let (clientId, pos) ← u64 cmd 0
  let (seqNo, pos) ← u64 cmd pos
  let (op, pos) ← u8 cmd pos
  if op < 1 ∨ op > 3 then none else some (clientId, seqNo, op, pos)

def readNew (cmd : Bytes) (pos : ℕ) : Option (ℕ × ℕ × ℕ) := do
  let (side, pos) ← u8 cmd pos
  let (price, pos) ← u64 cmd pos
  let (qty, pos) ← u64 cmd pos
  if pos ≠ cmd.length ∨ side > 1 ∨ price = 0 ∨ qty = 0 then none else some (side, price, qty)

def readCancel (cmd : Bytes) (pos : ℕ) : Option ℕ := do
  let (id, pos) ← u64 cmd pos
  if pos ≠ cmd.length then none else some id

def readAmend (cmd : Bytes) (pos : ℕ) : Option (ℕ × ℕ × ℕ) := do
  let (id, pos) ← u64 cmd pos
  let (price, pos) ← u64 cmd pos
  let (qty, pos) ← u64 cmd pos
  if pos ≠ cmd.length ∨ price = 0 ∨ qty = 0 then none else some (id, price, qty)

/-! ## 2. The matcher -/

inductive Bug where
  | none
  | ignoreTimePriority
  | ignorePricePriority
  | takerPrice
  deriving DecidableEq, Repr

structure Order where
  id : ℕ := 0
  side : ℕ := 0
  price : ℕ := 0
  qty : ℕ := 0
  arrival : ℕ := 0
  deriving DecidableEq, Repr

structure ReferenceMatcher where
  book : List Order := []
  nextId : ℕ := 1
  arrival : ℕ := 0
  sessions : Std.ExtTreeMap ℕ (ℕ × Bytes) := ∅
  bug : Bug := .none

/-- The first order with the id, from a position on. -/
def find (id : ℕ) : ℕ → List Order → Option (ℕ × Order)
  | _, [] => none
  | i, o :: book => if o.id = id then some (i, o) else find id (i + 1) book

def better (bug : Bug) (side : ℕ) (a b : Order) : Bool :=
  if a.price ≠ b.price then if side = 0 then a.price < b.price else a.price > b.price
  else if bug = .ignoreTimePriority then a.arrival > b.arrival
  else a.arrival < b.arrival

/-- The better one of the best order so far and the one at a position. -/
def bestOf (bug : Bug) (side i : ℕ) (o : Order) : Option (ℕ × Order) → Option (ℕ × Order)
  | none => some (i, o)
  | some b => if better bug side o b.2 then some (i, o) else some b

/-- The scan for the best order a taker can meet, from a position on, with the best one so far. -/
def scan (bug : Bug) (side price : ℕ) : ℕ → Option (ℕ × Order) → List Order → Option (ℕ × Order)
  | _, best, [] => best
  | i, best, o :: book =>
      if o.side = side then scan bug side price (i + 1) best book
      else if !(if side = 0 then o.price ≤ price else o.price ≥ price : Bool) then
        scan bug side price (i + 1) best book
      else if bug = .ignorePricePriority then some (i, o)
      else scan bug side price (i + 1) (bestOf bug side i o best) book

/-- What `execute` changes in its loop. -/
structure Filling where
  book : List Order
  qty : ℕ
  fills : Bytes := []
  nFills : ℕ := 0

/-- The loop of `execute`, at most `fuel` times round. -/
def fillLoop (bug : Bug) (side price : ℕ) : ℕ → Filling → Option Filling
  | 0, _ => none
  | fuel + 1, s =>
      if s.qty = 0 then some s
      else match scan bug side price 0 none s.book with
        | none => some s
        | some (i, best) =>
            let fillQty := min s.qty best.qty
            let fills := s.fills ++ putU64 best.id ++
              putU64 (if bug = .takerPrice then price else best.price) ++ putU64 fillQty
            let left := best.qty - fillQty
            fillLoop bug side price fuel
              { book := if left = 0 then s.book.eraseIdx i else s.book.set i { best with qty := left }
                qty := s.qty - fillQty
                fills := fills
                nFills := (s.nFills + 1) % 2 ^ 32 }

namespace ReferenceMatcher

variable (m : ReferenceMatcher)

/-- Match, then rest. -/
def execute (id side price qty : ℕ) : Option (ReferenceMatcher × Bytes) :=
  match fillLoop m.bug side price (qty + 1) { book := m.book, qty := qty } with
  | none => none
  | some s =>
      let m' := if s.qty > 0 then
          { m with book := s.book ++ [⟨id, side, price, s.qty, m.arrival⟩]
                   arrival := (m.arrival + 1) % 2 ^ 64 }
        else { m with book := s.book }
      some (m', 79 :: (putU64 id ++ putU64 s.qty ++ putU32 s.nFills ++ s.fills))

/-- The result of a command that neither matches nor rests. -/
def plainResult (id qty : ℕ) : Bytes := 79 :: (putU64 id ++ putU64 qty ++ putU32 0)

/-- The branches of the operation; `none` inside where it is malformed. -/
def applyOp (op : ℕ) (cmd : Bytes) (pos : ℕ) : Option (Option (ReferenceMatcher × Bytes)) :=
  if op = 1 then
    match readNew cmd pos with
    | none => some none
    | some (side, price, qty) =>
        ({ m with nextId := (m.nextId + 1) % 2 ^ 64 }.execute m.nextId side price qty).map some
  else if op = 2 then
    match readCancel cmd pos with
    | none => some none
    | some id =>
        match find id 0 m.book with
        | none => some (some (m, [78]))
        | some (i, o) => some (some ({ m with book := m.book.eraseIdx i }, plainResult id o.qty))
  else
    match readAmend cmd pos with
    | none => some none
    | some (id, price, qty) =>
        match find id 0 m.book with
        | none => some (some (m, [78]))
        | some (i, o) =>
            if price = o.price ∧ qty ≤ o.qty then
              some (some ({ m with book := m.book.set i { o with qty := qty } }, plainResult id qty))
            else ({ m with book := m.book.eraseIdx i }.execute id o.side price qty).map some

def cachedResult (clientId seqNo : ℕ) : Option Bytes :=
  if clientId ≠ 0 then
    match m.sessions[clientId]? with
    | some s => if seqNo ≤ s.1 then some s.2 else none
    | none => none
  else none

def apply (cmd : Bytes) : Option (ReferenceMatcher × Bytes) :=
  match readIdentity cmd with
  | none => some (m, [69])
  | some (clientId, seqNo, op, pos) =>
      match m.cachedResult clientId seqNo with
      | some result => some (m, result)
      | none =>
          match m.applyOp op cmd pos with
          | none => none
          | some none => some (m, [69])
          | some (some (m, result)) =>
              some (if clientId ≠ 0 then
                  { m with sessions := m.sessions.insert clientId (seqNo, result) } else m, result)

/-- The matcher after a sequence of commands. -/
def after (bug : Bug) (L : List Bytes) : Option ReferenceMatcher :=
  L.foldlM (fun m cmd => (m.apply cmd).map Prod.fst) { bug := bug }

/-- The prices of one side, each once, as the scan finds them. -/
def prices (side : ℕ) : List ℕ :=
  m.book.foldl (fun ps o => if o.side = side ∧ o.price ∉ ps then ps ++ [o.price] else ps) []

/-- The prices of one side in the order in which they are shown, the best first. -/
def shownPrices (side : ℕ) : List ℕ :=
  let sorted := (m.prices side).insertionSort (· ≤ ·)
  if side = 0 then sorted.reverse else sorted

/-- The orders of one side and price by arrival. -/
def shownLevel (side price : ℕ) : List Order :=
  (m.book.filter fun o => o.side = side ∧ o.price = price).insertionSort fun a b =>
    a.arrival ≤ b.arrival

def bookImage : String :=
  String.join ([0, 1].map fun side => String.join ((m.shownPrices side).map fun price =>
    (if side = 0 then "B" else "A") ++ " " ++ toString price ++ ":" ++
      String.join ((m.shownLevel side price).map fun o =>
        " (" ++ toString o.id ++ "," ++ toString o.qty ++ ")") ++ "\n"))

end ReferenceMatcher

end ObRef
