import HotpathIpc.Exchange.Participants

/-!
# The exchange

The main loop of `src/bin/exchange.rs` as a machine: each `Event` is either a strategy order
taken off the order stream, matched and reported, or a round of the participants.

* The wire messages carry the fields that matching, reporting and accounting read; time stamps
  taken from the clock, symbols and padding are left out.
* The commission is computed in floating point.  Here it is an arbitrary function of the price
  and quantity of the fill, a parameter of everything that publishes.
* The loop drops the outcome of a command.  `matchStrategyOrder` returns it, so that it can be
  spoken of.

**`step_run`** makes every event a run of calls on the book; `sound_venue` and `calls_trace` carry
what is known of such runs over to the exchange.
-/

namespace HotpathIpc

/-! ## Messages -/

/-- An order command. -/
structure OrderCommand where
  orderId : UInt64
  priceTicks : Int
  quantity : UInt64
  originTs : UInt64
  /-- 0=buy, 1=sell -/
  side : UInt8
  /-- 0=market, 1=limit -/
  orderType : UInt8
  /-- 0=new, 1=cancel, 2=modify -/
  action : UInt8
deriving DecidableEq, Repr

/-- An execution report. -/
structure ExecutionReport where
  orderId : UInt64
  exchangeOrderId : UInt64
  executedPrice : Int
  executedQuantity : UInt64
  remainingQuantity : UInt64
  commission : Int
  /-- 0=new, 1=partial, 2=filled, 3=cancelled -/
  status : UInt8
  rejectReason : UInt8
deriving DecidableEq, Repr

/-! ## Matching a command -/

/-- The order a command submits. -/
def OrderCommand.newOrder (cmd : OrderCommand) : NewOrder where
  orderId := cmd.orderId
  side := Side.fromU8 cmd.side
  isLimit := decide (cmd.orderType = 1)
  limitPx := cmd.priceTicks
  quantity := cmd.quantity
  originTs := cmd.originTs
  isSynthetic := false

/-- The book a command's order meets: a modify cancels first. -/
def Book.before (b : Book) (cmd : OrderCommand) : Book :=
  if cmd.action = 2 then (b.cancel cmd.orderId).1 else b

/-- Match one strategy order against the book. -/
def Book.matchStrategyOrder (b : Book) (cmd : OrderCommand) : Book × List Fill × Outcome :=
  if cmd.action = 1 then
    let r := b.cancel cmd.orderId
    (r.1, [], r.2)
  else (b.before cmd).submit cmd.newOrder

/-- The calls a command makes on the book. -/
def OrderCommand.calls (cmd : OrderCommand) : List Call :=
  if cmd.action = 1 then [Call.cancel cmd.orderId]
  else if cmd.action = 2 then [Call.cancel cmd.orderId, Call.submit cmd.newOrder]
  else [Call.submit cmd.newOrder]

/-! ## Publishing -/

section Publish

variable (commission : Int → UInt64 → Int)

/-- The report of a fill to its taker. -/
def Fill.takerReport (f : Fill) : ExecutionReport where
  orderId := f.takerOrderId
  exchangeOrderId := f.takerOrderId
  executedPrice := f.priceTicks
  executedQuantity := f.quantity
  remainingQuantity := f.takerRemainingAfter
  commission := commission f.priceTicks f.quantity
  status := if f.takerRemainingAfter = 0 then 2 else 1
  rejectReason := 0

/-- The report of a fill to its maker. -/
def Fill.makerReport (f : Fill) : ExecutionReport where
  orderId := f.makerOrderId
  exchangeOrderId := f.makerOrderId
  executedPrice := f.priceTicks
  executedQuantity := f.quantity
  remainingQuantity := 0
  commission := commission f.priceTicks f.quantity
  status := 2
  rejectReason := 0

/-- Only the strategy's own taker fills are reported. -/
def publishFills (fills : List Fill) : List ExecutionReport :=
  (fills.filter fun f => !f.takerIsSynthetic).map (Fill.takerReport commission)

/-- Only strategy makers get a report. -/
def publishStrategyMakerFills (fills : List Fill) : List ExecutionReport :=
  (fills.filter fun f => !f.makerIsSynthetic).map (Fill.makerReport commission)

end Publish

/-! ## The main loop -/

structure Exchange where
  book : Book
  participants : Participants

/-- What the loop does next: match an order it received, or run a participant round. -/
inductive Event where
  | order (cmd : OrderCommand)
  | round (d : Draws)
deriving DecidableEq, Repr

/-- What one turn of the loop did: the fills of the book, the reports that were published, and the
outcome of the command, if it was one. -/
structure Turn where
  fills : List Fill
  reports : List ExecutionReport
  outcome : Option Outcome
deriving DecidableEq, Repr

namespace Exchange

def new : Exchange := ⟨Book.new, Participants.new⟩

/-- A participant round whose fills are dropped. -/
def prime (x : Exchange) (d : Draws) : Exchange :=
  let r := x.participants.act x.book d
  ⟨r.2.1, r.1⟩

/-- The exchange after its priming rounds. -/
def primed (ds : List Draws) : Exchange := ds.foldl prime new

/-- One turn of the loop. -/
def step (commission : Int → UInt64 → Int) (x : Exchange) : Event → Exchange × Turn
  | Event.order cmd =>
      let r := x.book.matchStrategyOrder cmd
      ({ x with book := r.1 }, ⟨r.2.1, publishFills commission r.2.1, some r.2.2⟩)
  | Event.round d =>
      let r := x.participants.act x.book d
      (⟨r.2.1, r.1⟩, ⟨r.2.2, publishStrategyMakerFills commission r.2.2, none⟩)

/-- The calls one turn makes on the book. -/
def calls (x : Exchange) : Event → List Call
  | Event.order cmd => cmd.calls
  | Event.round d => x.participants.calls d

end Exchange

/-! ## Values for concrete runs -/

/-- One basis point of the notional, rounded down. -/
def oneBp (px : Int) (qty : UInt64) : Int := px * qty.toNat / 1000000000000

/-- A round that quotes one unit at 49 999 and one at 50 001 and does nothing else. -/
def calmRound : Draws := ⟨4999900000000, 5000100000000, 0, 0, none, none⟩

/-- The exchange after 64 such rounds. -/
def calmExchange : Exchange := Exchange.primed (List.replicate 64 calmRound)

/-! ## The exchange as a run of the book -/

theorem match_run (b : Book) (cmd : OrderCommand) :
    ((b.matchStrategyOrder cmd).1, (b.matchStrategyOrder cmd).2.1) = b.run cmd.calls := by
  unfold Book.matchStrategyOrder Book.before OrderCommand.calls
  by_cases h1 : cmd.action = 1
  · rw [if_pos h1, if_pos h1]
    rfl
  · rw [if_neg h1, if_neg h1]
    by_cases h2 : cmd.action = 2
    · rw [if_pos h2, if_pos h2]
      exact (run_submit _ _).symm
    · rw [if_neg h2, if_neg h2]
      exact (run_submit _ _).symm

variable {commission : Int → UInt64 → Int}

/-- **One turn of the loop is a run of calls on the book.** -/
theorem step_run (x : Exchange) (ev : Event) :
    ((x.step commission ev).1.book, (x.step commission ev).2.fills) = x.book.run (x.calls ev) := by
  cases ev with
  | order cmd => exact match_run x.book cmd
  | round d => exact act_run x.participants x.book d

theorem step_book (x : Exchange) (ev : Event) :
    (x.step commission ev).1.book = Mealy.exec Book.step x.book (x.calls ev) :=
  congrArg Prod.fst (step_run x ev)

theorem step_fills (x : Exchange) (ev : Event) :
    (x.step commission ev).2.fills = fillsOf (Mealy.trace Book.step x.book (x.calls ev)) :=
  congrArg Prod.snd (step_run x ev)

/-- All the calls a run of the exchange makes on the book. -/
def bookCalls (commission : Int → UInt64 → Int) (x : Exchange) (evs : List Event) : List Call :=
  (Mealy.trace (Exchange.step commission) x evs).flatMap fun e => e.pre.calls e.input

/-- The book's own trace of a run of the exchange, turn by turn. -/
theorem calls_trace (x : Exchange) (evs : List Event) :
    Mealy.exec Book.step x.book (bookCalls commission x evs)
        = (Mealy.exec (Exchange.step commission) x evs).book ∧
      Mealy.trace Book.step x.book (bookCalls commission x evs)
        = (Mealy.trace (Exchange.step commission) x evs).flatMap fun e =>
            Mealy.trace Book.step e.pre.book (e.pre.calls e.input) :=
  Mealy.macro_steps Exchange.book Exchange.calls (fun x ev => step_book x ev) x evs

/-- A submit among a turn's calls is a command's new order, or the participants'. -/
theorem submit_mem_calls {x : Exchange} {ev : Event} {o : NewOrder}
    (h : Call.submit o ∈ x.calls ev) :
    (∃ cmd, ev = Event.order cmd ∧ cmd.action ≠ 1 ∧ o = cmd.newOrder) ∨
      (∃ d, ev = Event.round d ∧ o.isSynthetic = true ∧ 2 ^ 63 ≤ o.orderId.toNat) := by
  cases ev with
  | round d => exact Or.inr ⟨d, rfl, synthetic_of_mem_calls h⟩
  | order cmd =>
      refine Or.inl ⟨cmd, rfl, ?_⟩
      have h : Call.submit o ∈ cmd.calls := h
      unfold OrderCommand.calls at h
      split at h
      · exact absurd h (by simp)
      · rename_i h1
        refine ⟨h1, ?_⟩
        split at h <;> simpa using h

/-- A primed book comes from calls of the participants only. -/
theorem primed_book (ds : List Draws) : ∃ cs : List Call,
    (Exchange.primed ds).book = Mealy.exec Book.step Book.new cs ∧
      ∀ o, Call.submit o ∈ cs → o.isSynthetic = true ∧ 2 ^ 63 ≤ o.orderId.toNat := by
  induction ds using List.reverseRecOn with
  | nil => exact ⟨[], rfl, fun o ho => absurd ho List.not_mem_nil⟩
  | append_singleton ds d ih =>
      obtain ⟨cs, hbook, hcs⟩ := ih
      refine ⟨cs ++ (Exchange.primed ds).participants.calls d, ?_, ?_⟩
      · rw [Exchange.primed, List.foldl_append, Mealy.exec_append, ← hbook]
        exact act_book _ _ d
      · intro o ho
        rcases List.mem_append.mp ho with ho | ho
        · exact hcs o ho
        · exact synthetic_of_mem_calls ho

/-- **Every book of the exchange is sound.** -/
theorem sound_venue {ds : List Draws} {evs : List Event}
    {e : Mealy.Entry Exchange Event Turn}
    (he : e ∈ Mealy.trace (Exchange.step commission) (Exchange.primed ds) evs) :
    e.pre.book.Sound := by
  have hstep : ∀ (x : Exchange) (ev : Event), x.book.Sound →
      (x.step commission ev).1.book.Sound := by
    intro x ev hx
    rw [step_book]
    exact (sound_run hx _).1
  obtain ⟨cs, hbook, -⟩ := primed_book ds
  exact ((Mealy.preserved hstep (hbook ▸ sound_exec cs) evs).2 e he).1

end HotpathIpc
