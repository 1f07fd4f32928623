import HotpathIpc.Strategy.Bytecode
import Std.Data.ExtTreeMap

/-!
# The strategy compiler

`compile` of `src/compiler.rs`: lower a graph of nodes and connections to a program.

* Emitting code appends to the program and counts slots.  Here a piece of code is returned with
  the next slot, and its user appends it.
* The ids on the way from the signal down to a node are a list, passed down.
* The recursion has a bound on its depth.  `compile` starts it above the number of nodes, so that
  a repeated id is met before the bound is (`emitNode_bound`).

The JSON reader is in `Json.lean`.
-/

namespace HotpathIpc

open Std (ExtTreeMap)

variable {F : Type} [F64 F]

/-! ## Graphs -/

/-- A parsed graph node. -/
structure GNode (F : Type) where
  id : String
  ntype : String
  nums : ExtTreeMap String F
  strs : ExtTreeMap String String

/-- A parsed graph: nodes plus directed `from -> to` connections. -/
structure GraphSpec (F : Type) where
  nodes : List (GNode F)
  connections : List (String × String)

inductive CompileError where
  | cycle
  | unknownNode (id : String)
  | unknownType (ntype : String)
  | tooManyInputs (node ntype : String) (got : ℕ)
deriving DecidableEq, Repr

/-- The node types that can be lowered. -/
inductive NodeType where
  | dataSource
  | ema
  | momentum
  | reversion
  | condition
  | andGate
  | orGate
  | buySignal
  | sellSignal
deriving DecidableEq, Repr

def NodeType.ofStr : String → Option NodeType
  | "data_source" => some dataSource
  | "ema" => some ema
  | "momentum" => some momentum
  | "reversion" => some reversion
  | "condition" => some condition
  | "and_gate" => some andGate
  | "or_gate" => some orGate
  | "buy_signal" => some buySignal
  | "sell_signal" => some sellSignal
  | _ => none

namespace GNode

def type (node : GNode F) : Option NodeType := NodeType.ofStr node.ntype

/-- A numeric property, or its default. -/
def num (node : GNode F) (key : String) (default : F) : F := node.nums[key]?.getD default

def period (node : GNode F) : ℕ := F64.toUSize (node.num "period" 12.0)

def lookback (node : GNode F) : ℕ := F64.toUSize (node.num "lookback" 16.0)

def window (node : GNode F) : ℕ := F64.toUSize (node.num "window" 64.0)

/-- The threshold of a condition. -/
def value (node : GNode F) : F := node.num "value" 0.0

/-- The comparison of a condition. -/
def comparison (node : GNode F) : Op F :=
  match node.strs["op"]?.getD "greater_than" with
  | "less_than" => Op.lt
  | "greater_equal" => Op.ge
  | "less_equal" => Op.le
  | "equal" => Op.eq
  | _ => Op.gt

end GNode

namespace GraphSpec

/-- The node an id means: the last one declared with it. -/
def byId (spec : GraphSpec F) (id : String) : Option (GNode F) :=
  spec.nodes.reverse.find? fun node => node.id = id

/-- The sources wired into a node, in connection order. -/
def incoming (spec : GraphSpec F) (id : String) : List String :=
  (spec.connections.filter fun c => c.2 = id).map Prod.fst

end GraphSpec

/-! ## Lowering -/

/-- Emitted code and the next free slot. -/
abbrev Code (F : Type) := List (Op F) × ℕ

section Lowerer

variable (spec : GraphSpec F)

/-- Emit the single input feeding a unary consumer. -/
def emitUnaryInput (emit : String → ℕ → Except CompileError (Code F)) (id : String) (slot : ℕ) :
    Except CompileError (Code F) :=
  match spec.incoming id with
  | [] => .ok ([Op.pushConst 0.0], slot)
  | [src] => emit src slot
  | srcs => .error (CompileError.tooManyInputs id ((spec.byId id).elim "" GNode.ntype) srcs.length)

/-- Emit the inputs of a gate after the first, each folded into what is there. -/
def emitFold (emit : String → ℕ → Except CompileError (Code F)) (fold : Op F) :
    List String → ℕ → Except CompileError (Code F)
  | [], slot => .ok ([], slot)
  | src :: srcs, slot => do
      let c ← emit src slot
      let rest ← emitFold emit fold srcs c.2
      .ok (c.1 ++ fold :: rest.1, rest.2)

/-- Emit all inputs of a gate and fold them. -/
def emitGate (emit : String → ℕ → Except CompileError (Code F)) (fold : Op F) :
    List String → ℕ → Except CompileError (Code F)
  | [], slot => .ok ([Op.pushConst 0.0], slot)
  | src :: srcs, slot => do
      let c ← emit src slot
      let rest ← emitFold emit fold srcs c.2
      .ok (c.1 ++ rest.1, rest.2)

/-- Emit `id` so that it leaves exactly one value on the stack. -/
def emitNode : ℕ → List String → String → ℕ → Except CompileError (Code F)
  | 0, _, _, _ => .error CompileError.cycle
  | bound + 1, onStack, id, slot =>
      if id ∈ onStack then .error CompileError.cycle
      else match spec.byId id with
        | none => .error (CompileError.unknownNode id)
        | some node =>
            let emit := emitNode bound (id :: onStack)
            match node.type with
            | some NodeType.dataSource => .ok ([Op.pushPrice], slot)
            | some NodeType.ema => .ok ([Op.ema slot node.period], slot + 1)
            | some NodeType.momentum => .ok ([Op.momentum slot node.lookback], slot + 1)
            | some NodeType.reversion => .ok ([Op.reversion slot node.window], slot + 1)
            | some NodeType.condition => do
                let c ← emitUnaryInput spec emit id slot
                .ok (c.1 ++ [Op.pushConst node.value, node.comparison], c.2)
            | some NodeType.andGate => emitGate emit Op.and (spec.incoming id) slot
            | some NodeType.orGate => emitGate emit Op.or (spec.incoming id) slot
            | some NodeType.buySignal => emitUnaryInput spec emit id slot
            | some NodeType.sellSignal => emitUnaryInput spec emit id slot
            | none => .error (CompileError.unknownType node.ntype)

/-- Emit the input and the terminal op of each signal node, in declared order. -/
def emitSignals : List (GNode F) → ℕ → Except CompileError (Code F)
  | [], slot => .ok ([], slot)
  | node :: nodes, slot =>
      let signal (op : Op F) : Except CompileError (Code F) := do
        let c ← emitUnaryInput spec (emitNode spec (spec.nodes.length + 1) []) node.id slot
        let rest ← emitSignals nodes c.2
        .ok (c.1 ++ op :: rest.1, rest.2)
      match node.type with
      | some NodeType.buySignal => signal Op.buy
      | some NodeType.sellSignal => signal Op.sell
      | _ => emitSignals nodes slot

end Lowerer

/-- Connections reference known nodes. -/
def validate (spec : GraphSpec F) : List (String × String) → Except CompileError Unit
  | [] => .ok ()
  | c :: cs =>
      if (spec.byId c.1).isNone then .error (CompileError.unknownNode c.1)
      else if (spec.byId c.2).isNone then .error (CompileError.unknownNode c.2)
      else validate spec cs

def compile (spec : GraphSpec F) : Except CompileError (List (Op F)) := do
  validate spec spec.connections
  let c ← emitSignals spec spec.nodes 0
  .ok c.1

end HotpathIpc
