import HotpathIpc.Exchange.MarketMode
import Mathlib.Algebra.Field.Rat
import Mathlib.Tactic.Ring

/-!
# The pipeline: strategy, exchange, execution

Three processes over FIFO queues that lose and reorder nothing.

* The strategy's send puts an `OrderCommand` into the order queue of the exchange and into that
  of the execution stage, in one step.
* The exchange takes a command and matches it, or runs a participant round, and then sends the
  reports of that turn one by one before its next turn.
* The execution stage (`src/bin/execution.rs`) receives commands until a receive finds none, then
  receives one report and accounts for it.  Each receive is a step of its own, so anything can
  happen between the last command receive and the report receive.

A run is any list of `Action`s; an action that its process cannot take does nothing.  Position and
cash are exact rationals, and the counters are unbounded.  Printing and the latency window are
left out.
-/

namespace HotpathIpc

open Std (ExtTreeMap)

/-! ## The execution stage -/

/-- Where the execution loop is: draining commands, about to receive a report, or stopped. -/
inductive Phase where
  | draining
  | reporting
  | stopped
deriving DecidableEq, Repr

structure Execution where
  /-- order id -> (origin_ts, side) -/
  orderCtx : ExtTreeMap UInt64 (UInt64 × UInt8)
  position : ℚ
  cash : ℚ
  lastPrice : ℚ
  fills : ℕ
  completedOrders : ℕ
  phase : Phase

/-- What became of a report. -/
inductive Verdict where
  /-- its status is neither partial nor filled -/
  | ignored
  /-- no context for its order -/
  | discarded
  | booked
deriving DecidableEq, Repr

namespace Execution

def new : Execution := ⟨∅, 0, 0, 0, 0, 0, Phase.draining⟩

/-- Receive one command. -/
def order (x : Execution) (cmd : OrderCommand) : Execution :=
  { x with orderCtx := x.orderCtx.insert cmd.orderId (cmd.originTs, cmd.side) }

/-- Account for one fill whose order has context `ctx`. -/
def book (maxFills : ℕ) (x : Execution) (r : ExecutionReport) (ctx : UInt64 × UInt8) : Execution :=
  let price : ℚ := r.executedPrice / scale
  let qty : ℚ := r.executedQuantity.toNat / scale
  let fee : ℚ := r.commission / scale
  let x := { x with
    lastPrice := price
    position := if ctx.2 = 0 then x.position + qty else x.position - qty
    cash := if ctx.2 = 0 then x.cash - (price * qty + fee) else x.cash + (price * qty - fee)
    fills := x.fills + 1
    phase := Phase.draining }
  if r.status = 2 then
    { x with
      orderCtx := x.orderCtx.erase r.orderId
      completedOrders := x.completedOrders + 1
      phase := if maxFills ≠ 0 ∧ maxFills ≤ x.completedOrders + 1 then Phase.stopped
        else Phase.draining }
  else x

/-- Receive one report. -/
def report (maxFills : ℕ) (x : Execution) (r : ExecutionReport) : Execution × Verdict :=
  if r.status ≠ 1 ∧ r.status ≠ 2 then ({ x with phase := Phase.draining }, Verdict.ignored)
  else match x.orderCtx[r.orderId]? with
    | none => ({ x with phase := Phase.draining }, Verdict.discarded)
    | some ctx => (x.book maxFills r ctx, Verdict.booked)

end Execution

/-! ## The pipeline -/

structure Pipeline where
  exchange : Exchange
  execution : Execution
  /-- the exchange's order queue -/
  toExchange : List OrderCommand
  /-- the execution stage's order queue -/
  toExecution : List OrderCommand
  /-- reports of the exchange's last turn still to be sent -/
  outbox : List ExecutionReport
  /-- the report queue -/
  reports : List ExecutionReport

/-- One step of one process. -/
inductive Action where
  /-- the strategy sends a command -/
  | send (cmd : OrderCommand)
  /-- the exchange takes a command and matches it -/
  | take
  /-- the exchange runs a participant round -/
  | round (d : Draws)
  /-- the exchange sends its next report -/
  | publish
  /-- the execution stage makes its next receive -/
  | receive
deriving DecidableEq, Repr

/-- What a step did. -/
inductive Seen where
  | nothing
  /-- a turn of the exchange -/
  | turn (ev : Event) (t : Turn)
  /-- a command received by the execution stage -/
  | order (cmd : OrderCommand)
  /-- a report received by the execution stage -/
  | report (r : ExecutionReport) (v : Verdict)
deriving DecidableEq, Repr

namespace Pipeline

/-- All processes attached, the exchange primed, nothing sent. -/
def start (ds : List Draws) : Pipeline := ⟨Exchange.primed ds, Execution.new, [], [], [], []⟩

/-- Reports on their way, oldest first. -/
def inFlight (s : Pipeline) : List ExecutionReport := s.reports ++ s.outbox

section Step

variable (commission : Int → UInt64 → Int) (maxFills : ℕ)

/-- The exchange's next turn, once the reports of the last one are sent. -/
def turn (s : Pipeline) (ev : Event) : Pipeline × Seen :=
  let r := s.exchange.step commission ev
  ({ s with exchange := r.1, outbox := r.2.reports }, Seen.turn ev r.2)

/-- The execution stage's next receive. -/
def receive (s : Pipeline) : Pipeline × Seen :=
  match s.execution.phase with
  | Phase.draining =>
      match s.toExecution with
      | cmd :: rest =>
          ({ s with execution := s.execution.order cmd, toExecution := rest }, Seen.order cmd)
      | [] => ({ s with execution := { s.execution with phase := Phase.reporting } }, Seen.nothing)
  | Phase.reporting =>
      match s.reports with
      | r :: rest =>
          let x := s.execution.report maxFills r
          ({ s with execution := x.1, reports := rest }, Seen.report r x.2)
      | [] => ({ s with execution := { s.execution with phase := Phase.draining } }, Seen.nothing)
  | Phase.stopped => (s, Seen.nothing)

/-- One step. -/
def step (s : Pipeline) : Action → Pipeline × Seen
  | Action.send cmd =>
      ({ s with toExchange := s.toExchange ++ [cmd], toExecution := s.toExecution ++ [cmd] },
        Seen.nothing)
  | Action.take =>
      match s.outbox, s.toExchange with
      | [], cmd :: rest => { s with toExchange := rest }.turn commission (Event.order cmd)
      | _, _ => (s, Seen.nothing)
  | Action.round d =>
      match s.outbox with
      | [] => s.turn commission (Event.round d)
      | _ => (s, Seen.nothing)
  | Action.publish =>
      match s.outbox with
      | r :: rest => ({ s with outbox := rest, reports := s.reports ++ [r] }, Seen.nothing)
      | [] => (s, Seen.nothing)
  | Action.receive => s.receive maxFills

end Step

end Pipeline

/-- The commands that `as` sends, in order. -/
def sentCommands (as : List Action) : List OrderCommand :=
  as.flatMap fun
    | Action.send cmd => [cmd]
    | _ => []

end HotpathIpc
