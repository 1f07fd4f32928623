import HotpathIpc.Library.Mealy

/-!
# The limit order book

The matching engine of `src/order_book.rs`: two price-sorted maps of FIFO levels and an index
from order ids to their place in the book.

* Ids, quantities and the cached totals are `u64` and are `UInt64` here, so `+` and `-` wrap as
  they do in the release profile.  Prices are `i64`; the book only ever compares them, and they
  are `Int`.
* `BTreeMap` and `HashMap` are both `ExtTreeMap`: the hash map is never iterated.
* `level_mut` hands out a reference to a level it creates when missing.  Here `levelMut` reads
  that level and `putLevel` writes back what the caller made of it.
* `submit`'s two nested loops are `fillQueue` (one level, front to back) and `cross` (level after
  level).  `cross` counts down from one more than the number of levels; that this is always
  enough is `cross_done` in `OrderBook/Crossing.lean`.
-/

namespace HotpathIpc

open Std (ExtTreeMap)

/-! ## Sides, orders and levels -/

/-- Which side of the book an order sits on. -/
inductive Side where
  | buy
  | sell
deriving DecidableEq, Repr

/-- Decode the wire `side` byte (0 = buy, else sell). -/
def Side.fromU8 (v : UInt8) : Side := if v = 0 then Side.buy else Side.sell

def Side.opposite : Side → Side
  | Side.buy => Side.sell
  | Side.sell => Side.buy

/-- One resting order in a price level's FIFO queue. -/
structure RestingOrder where
  orderId : UInt64
  remaining : UInt64
  isSynthetic : Bool
deriving DecidableEq, Repr

/-- FIFO queue at a single price, with the sum of `remaining` cached. -/
structure PriceLevel where
  totalSize : UInt64
  queue : List RestingOrder
deriving DecidableEq, Repr

def PriceLevel.new : PriceLevel := ⟨0, []⟩

/-- A single match between an incoming (taker) order and a resting (maker) order. -/
structure Fill where
  takerOrderId : UInt64
  makerOrderId : UInt64
  priceTicks : Int
  quantity : UInt64
  takerOriginTs : UInt64
  /-- 0 means this was the terminal fill for the taker. -/
  takerRemainingAfter : UInt64
  takerIsSynthetic : Bool
  makerIsSynthetic : Bool
deriving DecidableEq, Repr

/-- Why an order did not (fully) execute. -/
inductive Reject where
  | noLiquidity
deriving DecidableEq, Repr

/-- The discriminant, carried into `ExecutionReport.reject_reason`. -/
def Reject.code : Reject → UInt8
  | Reject.noLiquidity => 2

/-- The outcome of resting or rejecting the remainder of an order. -/
inductive Outcome where
  | filled
  | rested (queueAhead : UInt64)
  | rejected (reason : Reject)
  | cancelled
  | cancelRejected
deriving DecidableEq, Repr

/-- The arguments of `Book::submit`. -/
structure NewOrder where
  orderId : UInt64
  side : Side
  isLimit : Bool
  limitPx : Int
  quantity : UInt64
  originTs : UInt64
  isSynthetic : Bool
deriving DecidableEq, Repr

/-- The limit order book: bids and asks as price-sorted maps of FIFO levels, and the index that
makes cancels cheap. -/
structure Book where
  bids : ExtTreeMap Int PriceLevel
  asks : ExtTreeMap Int PriceLevel
  locate : ExtTreeMap UInt64 (Side × Int)

namespace Book

def new : Book := ⟨∅, ∅, ∅⟩

/-! ## Reading the book -/

/-- The map of one side. -/
def half (b : Book) : Side → ExtTreeMap Int PriceLevel
  | Side.buy => b.bids
  | Side.sell => b.asks

/-- The best bid is the greatest key. -/
def bestBid (b : Book) : Option Int := b.bids.keys.getLast?

/-- The best ask is the least key. -/
def bestAsk (b : Book) : Option Int := b.asks.keys.head?

def sizeAt (b : Book) (side : Side) (px : Int) : UInt64 :=
  ((b.half side)[px]?.map PriceLevel.totalSize).getD 0

def bidLevelCount (b : Book) : ℕ := b.bids.size

def isResting (b : Book) (orderId : UInt64) : Bool := b.locate.contains orderId

def bestOf (b : Book) : Side → Option Int
  | Side.buy => b.bestBid
  | Side.sell => b.bestAsk

/-! ## The small helpers -/

/-- The level at a price, a new one when there is none. -/
def levelMut (b : Book) (side : Side) (px : Int) : PriceLevel :=
  ((b.half side)[px]?).getD PriceLevel.new

/-- Replace the map of one side. -/
def setHalf (b : Book) (side : Side) (m : ExtTreeMap Int PriceLevel) : Book :=
  match side with
  | Side.buy => { b with bids := m }
  | Side.sell => { b with asks := m }

/-- Write a level back at its price. -/
def putLevel (b : Book) (side : Side) (px : Int) (level : PriceLevel) : Book :=
  b.setHalf side ((b.half side).insert px level)

def removeLevel (b : Book) (side : Side) (px : Int) : Book :=
  b.setHalf side ((b.half side).erase px)

/-- Remove the level at a price if it has been left without orders. -/
def dropIfEmpty (b : Book) (side : Side) (px : Int) (level : PriceLevel) : Book :=
  if level.queue.isEmpty then b.removeLevel side px else b

end Book

/-! ## Submit -/

/-- A limit order only crosses while the price is acceptable; a market order takes any. -/
def NewOrder.acceptable (o : NewOrder) (bestPx : Int) : Bool :=
  !o.isLimit || match o.side with
    | Side.buy => decide (bestPx ≤ o.limitPx)
    | Side.sell => decide (bestPx ≥ o.limitPx)

/-- The fill of `fillQty` between `o`, which keeps `remaining`, and the maker `front`. -/
def NewOrder.fillWith (o : NewOrder) (px : Int) (front : RestingOrder)
    (fillQty remaining : UInt64) : Fill where
  takerOrderId := o.orderId
  makerOrderId := front.orderId
  priceTicks := px
  quantity := fillQty
  takerOriginTs := o.originTs
  takerRemainingAfter := remaining
  takerIsSynthetic := o.isSynthetic
  makerIsSynthetic := front.isSynthetic

/-- What the inner loop leaves: the taker's remainder, the level, the fills and the ids of the
makers that were filled completely. -/
structure LevelFill where
  remaining : UInt64
  level : PriceLevel
  fills : List Fill
  cleared : List UInt64

/-- The inner loop of `submit`: consume the FIFO queue at one level, front to back. -/
def NewOrder.fillQueue (o : NewOrder) (px : Int) :
    UInt64 → UInt64 → List RestingOrder → LevelFill
  | remaining, totalSize, [] => ⟨remaining, ⟨totalSize, []⟩, [], []⟩
  | remaining, totalSize, front :: behind =>
      if remaining = 0 then ⟨remaining, ⟨totalSize, front :: behind⟩, [], []⟩
      else
        let fillQty := min remaining front.remaining
        let front' := { front with remaining := front.remaining - fillQty }
        let fill := o.fillWith px front fillQty (remaining - fillQty)
        if front'.remaining = 0 then
          let rest := o.fillQueue px (remaining - fillQty) (totalSize - fillQty) behind
          { rest with fills := fill :: rest.fills, cleared := front.orderId :: rest.cleared }
        else
          -- a maker that keeps something has used the taker up, so the loop ends here
          ⟨remaining - fillQty, ⟨totalSize - fillQty, front' :: behind⟩, [fill], []⟩

/-- What the outer loop leaves: the book, the taker's remainder and the fills. -/
structure Crossed where
  book : Book
  remaining : UInt64
  fills : List Fill

namespace Book

/-- One pass of the outer loop over the level at `bestPx`: consume it, forget the makers that are
done, drop the level if it is empty. -/
def crossLevel (b : Book) (o : NewOrder) (bestPx : Int) (remaining : UInt64) : Crossed :=
  let opp := o.side.opposite
  let level := b.levelMut opp bestPx
  let r := o.fillQueue bestPx remaining level.totalSize level.queue
  let b := b.putLevel opp bestPx r.level
  let b := { b with locate := r.cleared.foldl ExtTreeMap.erase b.locate }
  ⟨b.dropIfEmpty opp bestPx r.level, r.remaining, r.fills⟩

/-- The outer loop of `submit`: consume the opposite side from the best price inward. -/
def cross (o : NewOrder) : ℕ → Book → UInt64 → Crossed
  | 0, b, remaining => ⟨b, remaining, []⟩
  | fuel + 1, b, remaining =>
      if remaining = 0 then ⟨b, remaining, []⟩
      else match b.bestOf o.side.opposite with
        | none => ⟨b, remaining, []⟩
        | some bestPx =>
            if !o.acceptable bestPx then ⟨b, remaining, []⟩
            else
              let c := b.crossLevel o bestPx remaining
              let rest := cross o fuel c.book c.remaining
              { rest with fills := c.fills ++ rest.fills }

/-- The whole crossing phase of `submit`. -/
def crossAll (b : Book) (o : NewOrder) : Crossed :=
  cross o ((b.half o.side.opposite).size + 1) b o.quantity

/-- Rest a limit remainder on its own side, behind what is already there. -/
def rest (b : Book) (o : NewOrder) (remaining : UInt64) : Book × Outcome :=
  let level := b.levelMut o.side o.limitPx
  let queueAhead := level.totalSize
  let b := b.putLevel o.side o.limitPx
    ⟨level.totalSize + remaining, level.queue ++ [⟨o.orderId, remaining, o.isSynthetic⟩]⟩
  ({ b with locate := b.locate.insert o.orderId (o.side, o.limitPx) }, Outcome.rested queueAhead)

/-- Submit a new order: cross what can be crossed, then rest or reject the remainder.  The fills
pushed into the caller's vector are returned. -/
def submit (b : Book) (o : NewOrder) : Book × List Fill × Outcome :=
  let c := b.crossAll o
  if c.remaining = 0 then (c.book, c.fills, Outcome.filled)
  else if !o.isLimit then (c.book, c.fills, Outcome.rejected Reject.noLiquidity)
  else
    let r := c.book.rest o c.remaining
    (r.1, c.fills, r.2)

/-! ## Cancel -/

/-- Cancel a resting order by id. -/
def cancel (b : Book) (orderId : UInt64) : Book × Outcome :=
  match b.locate[orderId]? with
  | none => (b, Outcome.cancelRejected)
  | some (side, px) =>
      let b := { b with locate := b.locate.erase orderId }
      let level := b.levelMut side px
      let level := match level.queue.find? (·.orderId = orderId) with
        | some removed =>
            ⟨level.totalSize - removed.remaining, level.queue.eraseP (·.orderId = orderId)⟩
        | none => level
      ((b.putLevel side px level).dropIfEmpty side px level, Outcome.cancelled)

end Book

/-! ## The book as a machine -/

/-- One call on the book. -/
inductive Call where
  | submit (o : NewOrder)
  | cancel (orderId : UInt64)
deriving DecidableEq, Repr

/-- What a call answers: the fills it pushed and its outcome. -/
structure Answer where
  fills : List Fill
  outcome : Outcome
deriving DecidableEq, Repr

/-- Make one call. -/
def Book.step (b : Book) : Call → Book × Answer
  | Call.submit o => ((b.submit o).1, ⟨(b.submit o).2.1, (b.submit o).2.2⟩)
  | Call.cancel id => ((b.cancel id).1, ⟨[], (b.cancel id).2⟩)

-- two makers at the best price, then one at a worse price: time priority, then price
example :
    Mealy.outs Book.step Book.new
      [Call.submit ⟨101, Side.sell, true, 100, 1, 0, true⟩,
       Call.submit ⟨103, Side.sell, true, 101, 1, 0, true⟩,
       Call.submit ⟨102, Side.sell, true, 100, 1, 0, true⟩,
       Call.submit ⟨10, Side.buy, false, 0, 2, 7, false⟩]
      = [⟨[], Outcome.rested 0⟩, ⟨[], Outcome.rested 0⟩, ⟨[], Outcome.rested 1⟩,
         ⟨[⟨10, 101, 100, 1, 7, 1, false, true⟩, ⟨10, 102, 100, 1, 7, 0, false, true⟩],
          Outcome.filled⟩] := by
  decide +kernel

end HotpathIpc
