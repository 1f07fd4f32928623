import Mathlib.Algebra.Field.Rat
import Mathlib.Tactic.Common

/-!
# The strategy bytecode and its interpreter

`src/bytecode.rs`: a flat program of `Op`s, run once per tick by a stack machine whose indicators
carry their state across ticks.

* The numbers are `f64`.  Nothing here depends on what their operations compute, so they are an
  arbitrary type with these operations (`F64`), and no law but that a cast to `usize` is one.
* `usize` is `ℕ`.  The one sum that can wrap is the length of the momentum buffer.
* The stack is the list of live values, top first.  A push onto a full stack and a pop from an
  empty one are silent, as in the source.
* A panic (an index out of range, a remainder by zero) is `none`.

The byte encoding is in `Bytes.lean`; the disassembly is left out.
-/

namespace HotpathIpc

/-! ## Numbers -/

/-- The `f64` operations of the strategy code. -/
class F64 (F : Type) extends Add F, Sub F, Mul F, Div F, Neg F, OfScientific F where
  /-- `<` and `<=`; `>` and `>=` are these with the sides swapped -/
  lt : F → F → Bool
  le : F → F → Bool
  /-- `==` -/
  eq : F → F → Bool
  abs : F → F
  sqrt : F → F
  /-- `as f64` of a `usize` -/
  ofUSize : ℕ → F
  /-- `as usize`, which saturates -/
  toUSize : F → ℕ
  toUSize_lt : ∀ x, toUSize x < 2 ^ 64

/-- Exact arithmetic with a given square root. -/
@[reducible] def F64.exact (sqrt : ℚ → ℚ) : F64 ℚ where
  lt a b := decide (a < b)
  le a b := decide (a ≤ b)
  eq a b := decide (a = b)
  abs a := |a|
  sqrt := sqrt
  ofUSize n := n
  toUSize a := min a.floor.toNat (2 ^ 64 - 1)
  toUSize_lt a := by omega

variable {F : Type} [F64 F]

/-- `x.clamp(-1.0, 1.0)`. -/
def clampUnit (x : F) : F :=
  if F64.lt x (-1.0) then -1.0 else if F64.lt 1.0 x then 1.0 else x

def boolF64 (b : Bool) : F := if b then 1.0 else 0.0

/-! ## Opcodes -/

def STACK_CAP : ℕ := 32

/-- Momentum reading of this many basis points maps to a full-scale signal. -/
def MOMENTUM_BPS_FULL_SCALE : F := 25.0

inductive Op (F : Type) where
  | pushPrice
  | pushConst (c : F)
  | ema (slot period : ℕ)
  | momentum (slot lookback : ℕ)
  | reversion (slot window : ℕ)
  | gt
  | lt
  | ge
  | le
  | eq
  | and
  | or
  | not
  | buy
  | sell
deriving DecidableEq, Repr

/-! ## Indicator state -/

/-- Per-instruction indicator state, carried across ticks. -/
inductive IndState (F : Type) where
  | ema (alpha value : F) (init : Bool)
  /-- a ring of the last `lookback + 1` prices -/
  | momentum (buf : List F) (filled head lookback : ℕ)
  /-- a ring of the last `window` prices, with their running sum and sum of squares -/
  | reversion (buf : List F) (filled head window : ℕ) (sum sumSq : F)

/-- `lookback + 1` on a 64-bit `usize`. -/
def momentumLen (lookback : ℕ) : ℕ := (lookback + 1) % 2 ^ 64

/-- The smoothing factor of an EMA. -/
def emaAlpha (period : ℕ) : F := 2.0 / (F64.ofUSize period + 1.0)

namespace IndState

def forOp : Op F → Option (IndState F)
  | Op.ema _ period => some (ema (emaAlpha period) 0.0 false)
  | Op.momentum _ lookback =>
      some (momentum (List.replicate (momentumLen lookback) 0.0) 0 0 lookback)
  | Op.reversion _ window => some (reversion (List.replicate window 0.0) 0 0 window 0.0 0.0)
  | _ => none

def emaUpdate (s : IndState F) (price : F) : IndState F × F :=
  match s with
  | ema alpha value true =>
      let value := value + alpha * (price - value)
      (ema alpha value true, value)
  | ema alpha _ false => (ema alpha price true, price)
  | s => (s, 0.0)

/-- The clamped return of `now` against `oldest`. -/
def momentumSignal (now oldest : F) : F :=
  if F64.eq oldest 0.0 then 0.0
  else clampUnit ((now - oldest) / oldest * 10000.0 / MOMENTUM_BPS_FULL_SCALE)

def momentumUpdate (s : IndState F) (price : F) : Option (IndState F × F) :=
  match s with
  | momentum buf filled head lookback =>
      if head < buf.length then do
        let buf := buf.set head price
        let head := (head + 1) % buf.length
        let filled := if filled < buf.length then filled + 1 else filled
        let s := momentum buf filled head lookback
        if filled ≤ lookback then some (s, 0.0)
        else
          let oldest ← buf[head]?
          some (s, momentumSignal price oldest)
      else none
  | s => some (s, 0.0)

/-- The clamped half negative z-score of `price` in a window with these sums. -/
def reversionSignal (window : ℕ) (price sum sumSq : F) : F :=
  let n : F := F64.ofUSize window
  let mean := sum / n
  let var := sumSq / n - mean * mean
  if F64.le var 1e-12 then 0.0
  else
    let std := F64.sqrt var
    let z := (price - mean) / std
    clampUnit (-z / 2.0)

def reversionUpdate (s : IndState F) (price : F) : Option (IndState F × F) :=
  match s with
  | reversion buf filled head window sum sumSq => do
      -- evict the value about to be overwritten once the window is full
      let (sum, sumSq) ←
        if filled = window then do
          let old ← buf[head]?
          some (sum - old, sumSq - old * old)
        else some (sum, sumSq)
      if head < buf.length ∧ window ≠ 0 then
        let buf := buf.set head price
        let sum := sum + price
        let sumSq := sumSq + price * price
        let head := (head + 1) % window
        let filled := if filled < window then filled + 1 else filled
        let s := reversion buf filled head window sum sumSq
        if filled < window then some (s, 0.0)
        else some (s, reversionSignal window price sum sumSq)
      else none
  | s => some (s, 0.0)

end IndState

/-! ## The machine -/

/-- The decision a program produces for one tick. -/
inductive VmDecision (F : Type) where
  | buy (strength : F)
  | sell (strength : F)
  | hold
deriving DecidableEq, Repr

/-- The machine within a tick. -/
structure Machine (F : Type) where
  state : List (IndState F)
  stack : List F
  decision : VmDecision F

namespace Machine

def push (m : Machine F) (v : F) : Machine F :=
  if m.stack.length < STACK_CAP then { m with stack := v :: m.stack } else m

def pop (m : Machine F) : F × Machine F :=
  match m.stack with
  | [] => (0.0, m)
  | v :: rest => (v, { m with stack := rest })

/-- Pop `b`, pop `a`, push `f a b`. -/
def binary (f : F → F → Bool) (m : Machine F) : Machine F :=
  let b := m.pop
  let a := b.2.pop
  a.2.push (boolF64 (f a.1 b.1))

/-- Update the state in `slot` and push what it says. -/
def indicator (slot : ℕ) (update : IndState F → Option (IndState F × F)) (m : Machine F) :
    Option (Machine F) := do
  let s ← m.state[slot]?
  let r ← update s
  some ({ m with state := m.state.set slot r.1 }.push r.2)

/-- One instruction. -/
def exec (price : F) (m : Machine F) : Op F → Option (Machine F)
  | Op.pushPrice => some (m.push price)
  | Op.pushConst c => some (m.push c)
  | Op.ema slot _ => m.indicator slot fun s => some (s.emaUpdate price)
  | Op.momentum slot _ => m.indicator slot fun s => s.momentumUpdate price
  | Op.reversion slot _ => m.indicator slot fun s => s.reversionUpdate price
  | Op.gt => some (m.binary fun a b => F64.lt b a)
  | Op.lt => some (m.binary fun a b => F64.lt a b)
  | Op.ge => some (m.binary fun a b => F64.le b a)
  | Op.le => some (m.binary fun a b => F64.le a b)
  | Op.eq => some (m.binary fun a b => F64.lt (F64.abs (a - b)) 1e-10)
  | Op.and => some (m.binary fun a b => F64.lt 0.0 a && F64.lt 0.0 b)
  | Op.or => some (m.binary fun a b => F64.lt 0.0 a || F64.lt 0.0 b)
  | Op.not =>
      let a := m.pop
      some (a.2.push (boolF64 (F64.le a.1 0.0)))
  | Op.buy =>
      let c := m.pop
      some (if F64.lt 0.0 c.1 then { c.2 with decision := VmDecision.buy c.1 } else c.2)
  | Op.sell =>
      let c := m.pop
      some (if F64.lt 0.0 c.1 then { c.2 with decision := VmDecision.sell c.1 } else c.2)

/-- A straight-line program. -/
def run (price : F) (m : Machine F) (prog : List (Op F)) : Option (Machine F) :=
  prog.foldlM (exec price) m

end Machine

/-- A compiled strategy program plus its state. -/
structure Vm (F : Type) where
  prog : List (Op F)
  state : List (IndState F)

namespace Vm

def new (prog : List (Op F)) : Vm F := ⟨prog, prog.filterMap IndState.forOp⟩

/-- Execute the whole program for one price. -/
def run (vm : Vm F) (price : F) : Option (Vm F × VmDecision F) := do
  let m ← Machine.run price ⟨vm.state, [], VmDecision.hold⟩ vm.prog
  some ({ vm with state := m.state }, m.decision)

/-- The decisions on a sequence of prices. -/
def decisions (vm : Vm F) : List F → Option (List (VmDecision F))
  | [] => some []
  | price :: prices => do
      let r ← vm.run price
      let ds ← r.1.decisions prices
      some (r.2 :: ds)

end Vm

end HotpathIpc
