import HotpathIpc.OrderBook.Book
import HotpathIpc.Strategy.Bytecode

/-!
# The hand-written strategy

`src/strategy.rs`: a trend, a momentum and a mean-reversion signal, blended into a score that is
compared with a threshold, with a cooldown between orders.

* `tanh` is not among the operations of `F64`.  It is a parameter of what reads the trend.
* A `VecDeque` is the list of its elements, front first.
* The two enums `Side` of the source are one type here.
* The tick counter is `ℕ`.  `momentum_lookback + 1` is `momentumLen`, as in the bytecode.
* A panic is `none`: `unwrap` on the last element of an empty window.
-/

namespace HotpathIpc

/-- A strategy decision for one tick. -/
inductive Decision (F : Type) where
  | trade (side : Side) (score : F)
  | hold
deriving DecidableEq, Repr

/-- Tunable parameters. -/
structure StrategyConfig (F : Type) where
  fastEmaPeriod : ℕ
  slowEmaPeriod : ℕ
  momentumLookback : ℕ
  reversionWindow : ℕ
  weightTrend : F
  weightMomentum : F
  weightReversion : F
  /-- A score at or beyond it buys, at or beyond its negative sells. -/
  threshold : F
  momentumBpsFullScale : F
  /-- Minimum ticks between two orders in the same direction. -/
  cooldownTicks : ℕ

/-- A single exponential moving average. -/
structure Ema (F : Type) where
  alpha : F
  value : F
  initialized : Bool

variable {F : Type} [F64 F]

def StrategyConfig.default : StrategyConfig F where
  fastEmaPeriod := 12
  slowEmaPeriod := 48
  momentumLookback := 16
  reversionWindow := 64
  weightTrend := 0.5
  weightMomentum := 0.3
  weightReversion := 0.2
  threshold := 0.35
  momentumBpsFullScale := 25.0
  cooldownTicks := 32

namespace Ema

def new (period : ℕ) : Ema F := ⟨2.0 / (F64.ofUSize period + 1.0), 0.0, false⟩

def update (e : Ema F) (x : F) : Ema F × F :=
  let e := if e.initialized then { e with value := e.value + e.alpha * (x - e.value) }
    else { e with value := x, initialized := true }
  (e, e.value)

end Ema

/-- The composite strategy. -/
structure Strategy (F : Type) where
  cfg : StrategyConfig F
  fast : Ema F
  slow : Ema F
  /-- recent prices for momentum -/
  momentumBuf : List F
  /-- rolling window for the z-score, with running sums -/
  window : List F
  windowSum : F
  windowSumSq : F
  ticksSeen : ℕ
  lastTradeTick : Option ℕ
  lastSide : Option Side

/-- `while buf.len() > len { buf.pop_front() }`. -/
def popFront {α : Type} (len : ℕ) : List α → List α
  | [] => []
  | x :: xs => if xs.length + 1 > len then popFront len xs else x :: xs

/-- The same, and what is popped leaves the running sums. -/
def evict (len : ℕ) : List F → F → F → List F × F × F
  | [], sum, sumSq => ([], sum, sumSq)
  | old :: xs, sum, sumSq =>
      if xs.length + 1 > len then evict len xs (sum - old) (sumSq - old * old)
      else (old :: xs, sum, sumSq)

namespace Strategy

def new (cfg : StrategyConfig F) : Strategy F where
  cfg := cfg
  fast := Ema.new cfg.fastEmaPeriod
  slow := Ema.new cfg.slowEmaPeriod
  momentumBuf := []
  window := []
  windowSum := 0.0
  windowSumSq := 0.0
  ticksSeen := 0
  lastTradeTick := none
  lastSide := none

/-! ## Signals -/

def trendSignal (tanh : F → F) (s : Strategy F) : F :=
  if !s.slow.initialized || F64.eq s.slow.value 0.0 then 0.0
  else
    let relGap := (s.fast.value - s.slow.value) / s.slow.value
    tanh (relGap * 200.0)

def momentumSignal (s : Strategy F) : F :=
  if s.momentumBuf.length ≤ s.cfg.momentumLookback then 0.0
  else match s.momentumBuf.head?, s.momentumBuf.getLast? with
    | some past, some now =>
        if F64.eq past 0.0 then 0.0
        else
          let bps := (now - past) / past * 10000.0
          clampUnit (bps / s.cfg.momentumBpsFullScale)
    -- a buffer longer than a length has a front and a back
    | _, _ => 0.0

def reversionSignal (s : Strategy F) : Option F :=
  let n := s.window.length
  if n < s.cfg.reversionWindow then some 0.0
  else
    let mean := s.windowSum / F64.ofUSize n
    let var := s.windowSumSq / F64.ofUSize n - mean * mean
    if F64.le var 1e-12 then some 0.0
    else do
      let std := F64.sqrt var
      let last ← s.window.getLast?
      let z := (last - mean) / std
      some (clampUnit (-z / 2.0))

/-- The three sub-signals for the current price. -/
def signals (tanh : F → F) (s : Strategy F) : Option (F × F × F) := do
  let reversion ← s.reversionSignal
  some (s.trendSignal tanh, s.momentumSignal, reversion)

/-! ## One price -/

/-- Update all rolling state. -/
def absorb (s : Strategy F) (price : F) : Strategy F :=
  let r := evict s.cfg.reversionWindow (s.window ++ [price]) (s.windowSum + price)
    (s.windowSumSq + price * price)
  { s with
    ticksSeen := s.ticksSeen + 1
    fast := (s.fast.update price).1
    slow := (s.slow.update price).1
    momentumBuf := popFront (momentumLen s.cfg.momentumLookback) (s.momentumBuf ++ [price])
    window := r.1
    windowSum := r.2.1
    windowSumSq := r.2.2 }

/-- Turn the blended score into the side it asks for, if any. -/
def wants (tanh : F → F) (s : Strategy F) : Option (Option (Side × F)) := do
  let (trend, momentum, reversion) ← s.signals tanh
  let w := s.cfg.weightTrend + s.cfg.weightMomentum + s.cfg.weightReversion
  if F64.le w 0.0 then some none
  else
    let score := (s.cfg.weightTrend * trend + s.cfg.weightMomentum * momentum
      + s.cfg.weightReversion * reversion) / w
    some (if F64.le s.cfg.threshold score then some (Side.buy, score)
      else if F64.le score (-s.cfg.threshold) then some (Side.sell, score)
      else none)

def cooldownOk (s : Strategy F) (side : Side) : Bool :=
  match s.lastSide, s.lastTradeTick with
  | some prev, some t =>
      -- same direction as last time: enforce the cooldown gap; a direction flip goes at once
      if prev = side then decide (s.ticksSeen - t ≥ s.cfg.cooldownTicks) else true
  | _, _ => true

/-- Feed one price. -/
def onPrice (tanh : F → F) (s : Strategy F) (price : F) : Option (Strategy F × Decision F) := do
  let s := s.absorb price
  let wanted ← s.wants tanh
  match wanted with
  | some (side, score) =>
      if s.cooldownOk side then
        some ({ s with lastTradeTick := some s.ticksSeen, lastSide := some side },
          Decision.trade side score)
      else some (s, Decision.hold)
  | none => some (s, Decision.hold)

/-- The strategy after a sequence of prices. -/
def after (tanh : F → F) (cfg : StrategyConfig F) (prices : List F) : Option (Strategy F) :=
  prices.foldlM (fun s price => (s.onPrice tanh price).map Prod.fst) (new cfg)

/-- The decisions on a sequence of prices. -/
def decisions (tanh : F → F) (s : Strategy F) : List F → Option (List (Decision F))
  | [] => some []
  | price :: prices => do
      let r ← s.onPrice tanh price
      let ds ← r.1.decisions tanh prices
      some (r.2 :: ds)

end Strategy

/-! ## No panic -/

section Panic

variable {s : Strategy F}

/-- A window with room for a price is not empty when it is full. -/
theorem reversionSignal_some (h : 1 ≤ s.cfg.reversionWindow) :
    ∃ v, s.reversionSignal = some v := by
  rw [Strategy.reversionSignal]
  dsimp only
  split
  · exact ⟨_, rfl⟩
  · rename_i hfull
    split
    · exact ⟨_, rfl⟩
    · have hne : s.window ≠ [] := by
        rintro hnil
        rw [hnil] at hfull
        exact hfull h
      rw [List.getLast?_eq_some_getLast hne]
      exact ⟨_, rfl⟩

theorem wants_some (tanh : F → F) (h : 1 ≤ s.cfg.reversionWindow) :
    ∃ wanted, s.wants tanh = some wanted := by
  obtain ⟨v, hv⟩ := reversionSignal_some h
  rw [Strategy.wants, Strategy.signals, hv]
  simp only [Option.bind_eq_bind, Option.bind_some]
  split
  · exact ⟨_, rfl⟩
  · exact ⟨_, rfl⟩

theorem onPrice_some (tanh : F → F) (h : 1 ≤ s.cfg.reversionWindow) (price : F) :
    ∃ r, s.onPrice tanh price = some r ∧ r.1.cfg = s.cfg := by
  obtain ⟨wanted, hwanted⟩ := wants_some (s := s.absorb price) tanh h
  rw [Strategy.onPrice, hwanted]
  cases wanted with
  | none => exact ⟨_, rfl, rfl⟩
  | some order =>
      simp only [Option.bind_eq_bind, Option.bind_some]
      split
      · exact ⟨_, rfl, rfl⟩
      · exact ⟨_, rfl, rfl⟩

end Panic

end HotpathIpc
