/-
  File:      RaftRsm/StateMachine/OrderBook.lean
  Subject:   The replicated matching engine (`statemachine/order_book.{h,cpp}`): two price maps of
             FIFO levels, a locator index, an order-id counter and the session table.

  Commands and results are byte strings, the maps are ordered maps, a level is the list of its orders
  from front to back. Prices and quantities are numbers that were read from eight bytes, and
  quantities only shrink; the order-id counter is the one number that can wrap, and does so at
  `2 ^ 64`. A lookup that must not miss (`index_.at`, `book.at`, `level.front()`, the scan of AMEND)
  gives `none` where it does, and so does a match loop that has not come to its end.

  `serialize` and `deserialize` are in `Snapshot`, `decodeObResult` is in `ObResults`. The accessors
  `bestBid`, `bestAsk`, `restingCount` and `sessionCount` are not here.
-/
import RaftRsm.StateMachine.KvStore

namespace Rsm.StateMachine

open Rsm.Rpc

/-! ## 1. Commands and results -/

inductive ObOp where
  | new
  | cancel
  | amend
  deriving DecidableEq, Repr

def ObOp.toByte : ObOp → ℕ
  | .new => 1
  | .cancel => 2
  | .amend => 3

/-- The cast of an operation byte between 1 and 3. -/
def ObOp.ofByte : ℕ → Option ObOp
  | 1 => some .new
  | 2 => some .cancel
  | 3 => some .amend
  | _ => none

inductive ObSide where
  | bid
  | ask
  deriving DecidableEq, Repr

def ObSide.toByte : ObSide → ℕ
  | .bid => 0
  | .ask => 1

/-- The cast of a side byte that is at most 1. -/
def ObSide.ofByte : ℕ → Option ObSide
  | 0 => some .bid
  | 1 => some .ask
  | _ => none

def ObSide.opposite : ObSide → ObSide
  | .bid => .ask
  | .ask => .bid

def kObOk : UInt8 := 79         -- 'O'

def kObReject : UInt8 := 78     -- 'N'

def kObMalformed : UInt8 := 69  -- 'E'

def putU32 (v : ℕ) : Bytes := leBytes 4 v

def identityPrefix (clientId seqNo : ℕ) (op : ObOp) : Bytes :=
  putU64 clientId ++ putU64 seqNo ++ leBytes 1 op.toByte

def encodeObNew (clientId seqNo : ℕ) (side : ObSide) (price qty : ℕ) : Bytes :=
  identityPrefix clientId seqNo .new ++ leBytes 1 side.toByte ++ putU64 price ++ putU64 qty

def encodeObCancel (clientId seqNo orderId : ℕ) : Bytes :=
  identityPrefix clientId seqNo .cancel ++ putU64 orderId

def encodeObAmend (clientId seqNo orderId newPrice newQty : ℕ) : Bytes :=
  identityPrefix clientId seqNo .amend ++ putU64 orderId ++ putU64 newPrice ++ putU64 newQty

structure ObFill where
  makerOrderId : ℕ := 0
  /-- The price of the maker, not the taker's limit. -/
  price : ℕ := 0
  qty : ℕ := 0
  deriving DecidableEq, Repr

def putFill (f : ObFill) : Bytes := putU64 f.makerOrderId ++ putU64 f.price ++ putU64 f.qty

/-- The result string of a command that went through. -/
def okResult (orderId restingQty : ℕ) (fills : List ObFill) : Bytes :=
  kObOk :: (putU64 orderId ++ putU64 restingQty ++ putU32 fills.length ++ fills.flatMap putFill)

/-- The first 17 bytes of a command. -/
structure ObHeader where
  clientId : ℕ
  seqNo : ℕ
  op : ObOp
  deriving DecidableEq, Repr

/-- What `apply` reads before it looks at the session table, and what is left to read. -/
def readHeader (cmd : Bytes) : Option (ObHeader × Reader) :=
  let r : Reader := ⟨cmd, true⟩
  let (clientId, r) := r.u64
  let (seqNo, r) := r.u64
  let (opByte, r) := r.u8
  if !r.ok then none
  else match ObOp.ofByte opByte with
    | none => none
    | some op => some (⟨clientId, seqNo, op⟩, r)

/-- The bytes after the identity. -/
inductive ObPayload where
  | new (side : ObSide) (price qty : ℕ)
  | cancel (orderId : ℕ)
  | amend (orderId newPrice newQty : ℕ)
  deriving DecidableEq, Repr

/-- What `apply` reads after it has looked at the session table; `none` where it returns
    `kObMalformed`. -/
def readPayload (op : ObOp) (r : Reader) : Option ObPayload :=
  match op with
  | .new =>
      let (side, r) := r.u8
      let (price, r) := r.u64
      let (qty, r) := r.u64
      if !r.ok || !r.exhausted then none
      else match ObSide.ofByte side with
        | none => none
        | some side => if price = 0 ∨ qty = 0 then none else some (.new side price qty)
  | .cancel =>
      let (orderId, r) := r.u64
      if !r.ok || !r.exhausted then none else some (.cancel orderId)
  | .amend =>
      let (orderId, r) := r.u64
      let (newPrice, r) := r.u64
      let (newQty, r) := r.u64
      if !r.ok || !r.exhausted then none
      else if newPrice = 0 ∨ newQty = 0 then none
      else some (.amend orderId newPrice newQty)

/-! ## 2. The book -/

/-- An order in its level. -/
structure Resting where
  id : ℕ
  qty : ℕ
  deriving DecidableEq, Repr

/-- First in, first out: the front is the order that `apply` saw first. -/
abbrev Level := List Resting

/-- From prices to levels. -/
abbrev Book := Std.ExtTreeMap ℕ Level

structure OrderBookStateMachine where
  bids : Book := ∅
  asks : Book := ∅
  index : Std.ExtTreeMap ℕ (ObSide × ℕ) := ∅
  nextOrderId : ℕ := 1
  sessions : Std.ExtTreeMap ℕ Session := ∅

/-- A level put back into its book, or taken out of it if it is empty. -/
def putLevel (b : Book) (price : ℕ) (level : Level) : Book :=
  if level.isEmpty then b.erase price else b.insert price level

/-- The price of the best level for a taker, the first or the last one of the map: the lowest ask,
    or the highest bid. -/
def bestPrice (taker : ObSide) (opposite : Book) : Option ℕ :=
  match taker with
  | .bid => opposite.keys.head?
  | .ask => opposite.keys.getLast?

def crosses (taker : ObSide) (price limit : ℕ) : Bool :=
  match taker with
  | .bid => price ≤ limit
  | .ask => price ≥ limit

/-- The first order with an id gets a new quantity. -/
def setQty (id qty : ℕ) : Level → Level
  | [] => []
  | o :: level => if o.id = id then ⟨o.id, qty⟩ :: level else o :: setQty id qty level

namespace OrderBookStateMachine

variable (m : OrderBookStateMachine)

def book : ObSide → Book
  | .bid => m.bids
  | .ask => m.asks

def setBook (side : ObSide) (b : Book) : OrderBookStateMachine :=
  match side with
  | .bid => { m with bids := b }
  | .ask => { m with asks := b }

/-- The loop of `match`, at most `fuel` times round. -/
def matchLoop (taker : ObSide) (limit : ℕ) : ℕ → OrderBookStateMachine → ℕ → List ObFill →
    Option (OrderBookStateMachine × ℕ × List ObFill)
  | 0, _, _, _ => none
  | fuel + 1, m, qty, fills =>
      if qty = 0 then some (m, qty, fills)
      else match bestPrice taker (m.book taker.opposite) with
        | none => some (m, qty, fills)
        | some price =>
            if !crosses taker price limit then some (m, qty, fills)
            else match (m.book taker.opposite).getD price [] with
              | [] => none  -- `level.front()`
              | maker :: level =>
                  let fillQty := if qty < maker.qty then qty else maker.qty
                  let fills := fills ++ [⟨maker.id, price, fillQty⟩]
                  if maker.qty - fillQty = 0 then
                    let m' := m.setBook taker.opposite (putLevel (m.book taker.opposite) price level)
                    matchLoop taker limit fuel { m' with index := m.index.erase maker.id }
                      (qty - fillQty) fills
                  else
                    let level := ⟨maker.id, maker.qty - fillQty⟩ :: level
                    matchLoop taker limit fuel
                      (m.setBook taker.opposite (putLevel (m.book taker.opposite) price level))
                      (qty - fillQty) fills

/-- Every round of the loop takes something off `qty`. -/
def match_ (taker : ObSide) (limit qty : ℕ) : Option (OrderBookStateMachine × ℕ × List ObFill) :=
  matchLoop taker limit (qty + 1) m qty []

def rest (side : ObSide) (price id qty : ℕ) : OrderBookStateMachine :=
  let m' := m.setBook side ((m.book side).insert price ((m.book side).getD price [] ++ [⟨id, qty⟩]))
  { m' with index := m.index.insert id (side, price) }

def remove (id : ℕ) : Option (OrderBookStateMachine × ℕ) :=
  match m.index[id]? with
  | none => none  -- `index_.at`
  | some (side, price) =>
      match (m.book side)[price]? with
      | none => none  -- the end iterator is dereferenced
      | some level =>
          let qty := match level.find? (·.id = id) with
            | none => 0
            | some o => o.qty
          let m' := m.setBook side (putLevel (m.book side) price (level.eraseP (·.id = id)))
          some ({ m' with index := m.index.erase id }, qty)

/-! ## 3. Commands -/

/-- A taker meets the other side, and rests with what is left of it. -/
def execute (side : ObSide) (price id qty : ℕ) : Option (OrderBookStateMachine × Bytes) :=
  match m.match_ side price qty with
  | none => none
  | some (m, residual, fills) =>
      some (if residual > 0 then m.rest side price id residual else m, okResult id residual fills)

/-- The order id is taken from the counter before the match. -/
def applyNew (side : ObSide) (price qty : ℕ) : Option (OrderBookStateMachine × Bytes) :=
  { m with nextOrderId := (m.nextOrderId + 1) % 2 ^ 64 }.execute side price m.nextOrderId qty

def applyCancel (orderId : ℕ) : Option (OrderBookStateMachine × Bytes) :=
  if orderId ∉ m.index then some (m, [kObReject])
  else match m.remove orderId with
    | none => none
    | some (m, removed) => some (m, okResult orderId removed [])

/-- Price change or quantity increase: the order loses its time priority. -/
def cancelReplace (side : ObSide) (orderId newPrice newQty : ℕ) :
    Option (OrderBookStateMachine × Bytes) :=
  match m.remove orderId with
  | none => none
  | some (m, _) => m.execute side newPrice orderId newQty

def applyAmend (orderId newPrice newQty : ℕ) : Option (OrderBookStateMachine × Bytes) :=
  match m.index[orderId]? with
  | none => some (m, [kObReject])
  | some (side, price) =>
      if newPrice = price then
        match (m.book side)[price]? with
        | none => none  -- `book.at`
        | some level =>
            match level.find? (·.id = orderId) with
            | none => none  -- the scan runs past the end
            | some o =>
                if newQty ≤ o.qty then
                  some (m.setBook side ((m.book side).insert price (setQty orderId newQty level)),
                    okResult orderId newQty [])
                else m.cancelReplace side orderId newPrice newQty
      else m.cancelReplace side orderId newPrice newQty

/-- The branches of the switch. -/
def applyPayload : ObPayload → Option (OrderBookStateMachine × Bytes)
  | .new side price qty => m.applyNew side price qty
  | .cancel orderId => m.applyCancel orderId
  | .amend orderId newPrice newQty => m.applyAmend orderId newPrice newQty

/-- The result a command finds in the session table. -/
def cachedResult (clientId seqNo : ℕ) : Option Bytes :=
  if clientId ≠ 0 then
    match m.sessions[clientId]? with
    | some s => if seqNo ≤ s.lastSeq then some s.lastResult else none
    | none => none
  else none

/-- What is remembered of a command that was executed. -/
def recordResult (clientId seqNo : ℕ) (result : Bytes) : OrderBookStateMachine :=
  if clientId ≠ 0 then { m with sessions := m.sessions.insert clientId ⟨seqNo, result⟩ } else m

def apply (cmd : Bytes) : Option (OrderBookStateMachine × Bytes) :=
  match readHeader cmd with
  | none => some (m, [kObMalformed])
  | some (h, r) =>
      match m.cachedResult h.clientId h.seqNo with
      | some result => some (m, result)
      | none =>
          match readPayload h.op r with
          | none => some (m, [kObMalformed])
          | some payload =>
              match m.applyPayload payload with
              | none => none
              | some (m, result) => some (m.recordResult h.clientId h.seqNo result, result)

/-- The machine after a sequence of commands. -/
def after (L : List Bytes) : Option OrderBookStateMachine :=
  L.foldlM (fun m cmd => (m.apply cmd).map Prod.fst) {}

/-! ## 4. Reading the book -/

/-- A level as text. -/
def dump (tag : String) (price : ℕ) (level : Level) : String :=
  tag ++ " " ++ toString price ++ ":" ++
    String.join (level.map fun o => " (" ++ toString o.id ++ "," ++ toString o.qty ++ ")") ++ "\n"

def bookImage : String :=
  String.join (m.bids.toList.reverse.map fun l => dump "B" l.1 l.2) ++
    String.join (m.asks.toList.map fun l => dump "A" l.1 l.2)

structure RestingOrder where
  side : ObSide
  price : ℕ
  qty : ℕ
  deriving DecidableEq, Repr

def order (orderId : ℕ) : Option RestingOrder :=
  match m.index[orderId]? with
  | none => none
  | some (side, price) =>
      match (m.book side)[price]? with
      | none => none  -- `book.at`
      | some level =>
          match level.find? (·.id = orderId) with
          | none => none
          | some o => some ⟨side, price, o.qty⟩

end OrderBookStateMachine

end Rsm.StateMachine
