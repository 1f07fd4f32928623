import HotpathIpc.Exchange.MarketData
import HotpathIpc.Library.Saturating
import Mathlib.Data.Rat.Floor

/-!
# The position limit

The main loop of `src/bin/strategy.rs`, from a decision to an order: the pre-trade risk check and
the emission of the order.

* The decision for a tick, whether Ctrl-C was pressed by the end of its iteration and the seconds
  elapsed when it began are the loop's input.  The score of a decision is only printed.
* The order size is a rational number and its two roundings are exact.  A float cast to an integer
  truncates and saturates.
* The check counts whole units, rounded up; an order carries a quantity in `1e-8` units, rounded
  down.

* `StrategyLoop.step` — one iteration; `sentOrders` — what a run sent.
* `Intends` — the position against the orders that were sent; `intends_step` is its step.
* **`exposure_capped`** — the limit, in the units of the orders.
-/

namespace HotpathIpc

/-- The knobs of the loop. -/
structure RiskConfig where
  passive : Bool
  maxPosition : Int
  maxOrders : UInt64
  maxSeconds : UInt64
  orderUnits : ℚ

namespace RiskConfig

def orderQty (cfg : RiskConfig) : UInt64 := Saturating.u64 (cfg.orderUnits * 100000000)

def positionDelta (cfg : RiskConfig) : Int := max (Saturating.i64 ⌈cfg.orderUnits⌉) 1

/-- What an order adds to the position. -/
def delta (cfg : RiskConfig) : Side → Int
  | Side.buy => cfg.positionDelta
  | Side.sell => -cfg.positionDelta

def newPosition (cfg : RiskConfig) (position : Int) (side : Side) : Int :=
  wrapI64 (position + cfg.delta side)

/-- Would this order breach the position limit? -/
def breaches (cfg : RiskConfig) (position : Int) (side : Side) : Bool :=
  decide (cfg.newPosition position side > cfg.maxPosition)
    || decide (cfg.newPosition position side < wrapI64 (-cfg.maxPosition))

/-- The price and type of an order: marketable at the last price, or resting at the near touch. -/
def pricing (cfg : RiskConfig) (tick : MarketTick) (side : Side) : Int × UInt8 :=
  if cfg.passive then
    let touch := match side with
      | Side.buy => tick.bid
      | Side.sell => tick.ask
    (if touch ≠ 0 then touch else tick.price, 1)
  else (tick.price, 0)

def command (cfg : RiskConfig) (tick : MarketTick) (side : Side) (orderId : UInt64) :
    OrderCommand where
  orderId := orderId
  priceTicks := (cfg.pricing tick side).1
  quantity := cfg.orderQty
  originTs := tick.timestampNs
  side := match side with
    | Side.buy => 0
    | Side.sell => 1
  orderType := (cfg.pricing tick side).2
  action := 0

end RiskConfig

/-- A tick and what comes with it. -/
structure Arrival where
  tick : MarketTick
  trade : Option Side
  interrupted : Bool
  elapsedSecs : UInt64

structure StrategyLoop where
  ticksSeen : UInt64
  ordersSent : UInt64
  orderId : UInt64
  /-- net units the strategy intends to hold -/
  position : Int
  /-- orders blocked by the position limit -/
  suppressed : UInt64
  running : Bool
deriving DecidableEq, Repr

namespace StrategyLoop

def start : StrategyLoop := ⟨0, 0, 0, 0, 0, true⟩

/-- Count a tick, and stop if there was a Ctrl-C or a heartbeat finds the time up. -/
def tickSeen (cfg : RiskConfig) (s : StrategyLoop) (a : Arrival) : StrategyLoop :=
  let timeUp := (s.ticksSeen + 1) % 50000 = 0 ∧ cfg.maxSeconds ≠ 0 ∧ cfg.maxSeconds ≤ a.elapsedSecs
  { s with ticksSeen := s.ticksSeen + 1, running := !a.interrupted && !decide timeUp }

/-- One iteration of the loop; nothing happens once it has stopped. -/
def step (cfg : RiskConfig) (s : StrategyLoop) (a : Arrival) :
    StrategyLoop × Option OrderCommand :=
  if !s.running then (s, none)
  else
    let s := s.tickSeen cfg a
    match a.trade with
    | none => (s, none)
    | some side =>
        if cfg.breaches s.position side then ({ s with suppressed := s.suppressed + 1 }, none)
        else
          let orderId := s.orderId + 1
          let ordersSent := s.ordersSent + 1
          let reached := cfg.maxOrders ≠ 0 ∧ cfg.maxOrders ≤ ordersSent
          ({ s with
              position := cfg.newPosition s.position side
              orderId := orderId
              ordersSent := ordersSent
              running := s.running && !decide reached },
            some (cfg.command a.tick side orderId))

end StrategyLoop

/-- The orders that a run sent. -/
def sentOrders (cfg : RiskConfig) (as : List Arrival) : List OrderCommand :=
  (Mealy.outs (StrategyLoop.step cfg) StrategyLoop.start as).filterMap id

/-- The quantity of an order, negative for a sell. -/
def OrderCommand.signedQuantity (cmd : OrderCommand) : Int :=
  match Side.fromU8 cmd.side with
  | Side.buy => cmd.quantity.toNat
  | Side.sell => -cmd.quantity.toNat

/-- The net quantity of a list of orders. -/
def exposure (cmds : List OrderCommand) : Int := (cmds.map OrderCommand.signedQuantity).sum

/-! ## The two roundings -/

theorem positionDelta_pos (cfg : RiskConfig) : 0 < cfg.positionDelta :=
  lt_of_lt_of_le Int.zero_lt_one (le_max_right _ _)

theorem le_positionDelta (cfg : RiskConfig) :
    min ⌈cfg.orderUnits⌉ (2 ^ 63 - 1) ≤ cfg.positionDelta :=
  (Saturating.le_i64 _).trans (le_max_left _ _)

/-- **The check never counts less than the order carries**: if the count is cut off at the end of
the `i64` range, the quantity is cut off well below it. -/
theorem orderQty_le (cfg : RiskConfig) :
    (cfg.orderQty.toNat : Int) ≤ cfg.positionDelta * 100000000 := by
  have hpos := positionDelta_pos cfg
  have hdelta := le_positionDelta cfg
  rw [RiskConfig.orderQty, Saturating.toNat_u64]
  rcases le_total ⌈cfg.orderUnits⌉ (2 ^ 63 - 1) with hfits | hcut
  · rw [min_eq_left hfits] at hdelta
    have hunits : cfg.orderUnits ≤ (cfg.positionDelta : ℚ) := Int.ceil_le.mp hdelta
    have hscaled : cfg.orderUnits * 100000000 ≤ ((cfg.positionDelta * 100000000).toNat : ℚ) := by
      rw [← Int.cast_natCast, Int.toNat_of_nonneg (by omega)]
      push_cast
      linarith
    have hfloor := Nat.floor_le_of_le hscaled
    omega
  · rw [min_eq_right hcut] at hdelta
    omega

/-! ## What an iteration does -/

/-- The limit and the size of an order are such that no position overflows. -/
structure RiskConfig.Sane (cfg : RiskConfig) : Prop where
  maxPosition : 0 ≤ cfg.maxPosition
  orderUnits : 0 < cfg.orderUnits
  fits : cfg.maxPosition + cfg.positionDelta < 2 ^ 63

section Loop

variable {cfg : RiskConfig}

theorem abs_delta (cfg : RiskConfig) (side : Side) : |cfg.delta side| = cfg.positionDelta := by
  have hpos := positionDelta_pos cfg
  cases side with
  | buy => exact abs_of_pos hpos
  | sell => exact (abs_neg _).trans (abs_of_pos hpos)

theorem newPosition_eq (h : cfg.Sane) {position : Int} (hpos : |position| ≤ cfg.maxPosition)
    (side : Side) : cfg.newPosition position side = position + cfg.delta side := by
  have hle := abs_add_le position (cfg.delta side)
  have hfits := h.fits
  rw [abs_delta] at hle
  obtain ⟨hlo, hhi⟩ := abs_le.mp hle
  exact wrapI64_eq (by omega) (by omega)

/-- Within the limit, the check is the one on exact integers. -/
theorem breaches_iff (h : cfg.Sane) {position : Int} (hpos : |position| ≤ cfg.maxPosition)
    (side : Side) : cfg.breaches position side = true
      ↔ cfg.maxPosition < |position + cfg.delta side| := by
  have hneg : wrapI64 (-cfg.maxPosition) = -cfg.maxPosition := by
    have hmax := h.maxPosition
    have hfits := h.fits
    have hdelta := positionDelta_pos cfg
    exact wrapI64_eq (by omega) (by omega)
  rw [RiskConfig.breaches, newPosition_eq h hpos, hneg, Bool.or_eq_true, decide_eq_true_eq,
    decide_eq_true_eq, lt_abs, lt_neg]

/-- Nothing that concerns orders has changed. -/
structure Quiet (s s' : StrategyLoop) : Prop where
  position : s'.position = s.position
  orderId : s'.orderId = s.orderId
  ordersSent : s'.ordersSent = s.ordersSent

/-- Everything an iteration can do: nothing, suppress a decision, or send an order. -/
theorem loop_cases (cfg : RiskConfig) (s : StrategyLoop) (a : Arrival) :
    ((s.running = false ∨ a.trade = none) ∧ Quiet s (s.step cfg a).1 ∧ (s.step cfg a).2 = none) ∨
    (∃ side, a.trade = some side ∧ s.running = true ∧ cfg.breaches s.position side = true ∧
      Quiet s (s.step cfg a).1 ∧ (s.step cfg a).2 = none) ∨
    (∃ side, a.trade = some side ∧ s.running = true ∧ cfg.breaches s.position side = false ∧
      (s.step cfg a).1.position = cfg.newPosition s.position side ∧
      (s.step cfg a).1.orderId = s.orderId + 1 ∧ (s.step cfg a).1.ordersSent = s.ordersSent + 1 ∧
      (s.step cfg a).2 = some (cfg.command a.tick side (s.orderId + 1))) := by
  rw [StrategyLoop.step]
  cases hrun : s.running with
  | false => exact Or.inl ⟨Or.inl rfl, ⟨rfl, rfl, rfl⟩, rfl⟩
  | true =>
      dsimp only [Bool.not_true]
      cases htrade : a.trade with
      | none => exact Or.inl ⟨Or.inr rfl, ⟨rfl, rfl, rfl⟩, rfl⟩
      | some side =>
          have hposition : (s.tickSeen cfg a).position = s.position := rfl
          dsimp only
          rw [hposition]
          cases hbreach : cfg.breaches s.position side with
          | true => exact Or.inr (Or.inl ⟨side, rfl, rfl, hbreach, ⟨rfl, rfl, rfl⟩, rfl⟩)
          | false => exact Or.inr (Or.inr ⟨side, rfl, rfl, hbreach, rfl, rfl, rfl, rfl⟩)

/-- An order is sent for a trade of its tick. -/
theorem trade_of_sent (cfg : RiskConfig) (arrivals : List Arrival) {cmd : OrderCommand}
    (h : cmd ∈ sentOrders cfg arrivals) :
    ∃ a ∈ arrivals, ∃ side id, a.trade = some side ∧ cmd = cfg.command a.tick side id := by
  obtain ⟨o, ho, hcmd⟩ := List.mem_filterMap.mp h
  obtain ⟨e, he, rfl⟩ := List.mem_map.mp ho
  have hinput : e.input ∈ arrivals :=
    Mealy.map_input_trace (StrategyLoop.step cfg) StrategyLoop.start arrivals
      ▸ List.mem_map_of_mem he
  have hout : (e.pre.step cfg e.input).2 = some cmd :=
    (congrArg Prod.snd (Mealy.step_of_mem_trace he)).trans hcmd
  rcases loop_cases cfg e.pre e.input with ⟨-, -, hnone⟩ | ⟨side, -, -, -, -, hnone⟩ |
    ⟨side, htrade, -, -, -, -, -, hsome⟩
  · rw [hnone] at hout
    cases hout
  · rw [hnone] at hout
    cases hout
  · exact ⟨e.input, hinput, side, _, htrade, (Option.some.inj (hsome.symm.trans hout)).symm⟩

/-- What was sent so far, against the state of the loop. -/
structure Intends (cfg : RiskConfig) (cmds : List OrderCommand) (s : StrategyLoop) : Prop where
  inside : |s.position| ≤ cfg.maxPosition
  /-- position and exposure are the same number of orders, each in its own unit -/
  net : exposure cmds * cfg.positionDelta = s.position * cfg.orderQty.toNat
  ids : cmds.map OrderCommand.orderId = serials cmds.length
  orderId : s.orderId = UInt64.ofNat cmds.length

theorem intends_start (h : cfg.Sane) : Intends cfg [] StrategyLoop.start :=
  ⟨by simpa [StrategyLoop.start] using h.maxPosition, by simp [exposure, StrategyLoop.start],
    rfl, rfl⟩

theorem signedQuantity_command (cfg : RiskConfig) (tick : MarketTick) (side : Side)
    (orderId : UInt64) : (cfg.command tick side orderId).signedQuantity * cfg.positionDelta
      = cfg.delta side * cfg.orderQty.toNat := by
  cases side with
  | buy => exact mul_comm _ _
  | sell =>
      show -(cfg.orderQty.toNat : Int) * cfg.positionDelta = -cfg.positionDelta * cfg.orderQty.toNat
      ring

theorem exposure_append (cmds : List OrderCommand) (cmd : OrderCommand) :
    exposure (cmds ++ [cmd]) = exposure cmds + cmd.signedQuantity := by
  rw [exposure, List.map_append, List.sum_append, List.map_singleton, List.sum_singleton, exposure]

theorem intends_quiet {cmds : List OrderCommand} {s s' : StrategyLoop} (h : Intends cfg cmds s)
    (hq : Quiet s s') : Intends cfg cmds s' :=
  ⟨hq.position ▸ h.inside, hq.position ▸ h.net, h.ids, hq.orderId ▸ h.orderId⟩

/-- One iteration sends at most one order, with the next id, and stays within the limit. -/
theorem intends_step (hcfg : cfg.Sane) {cmds : List OrderCommand} {s : StrategyLoop}
    (h : Intends cfg cmds s) (a : Arrival) :
    Intends cfg (cmds ++ (s.step cfg a).2.toList) (s.step cfg a).1 := by
  rcases loop_cases cfg s a with ⟨-, hq, hnone⟩ | ⟨side, -, -, -, hq, hnone⟩
      | ⟨side, -, -, hbreach, hposition, hid, -, hsome⟩
  · rw [hnone, Option.toList, List.append_nil]
    exact intends_quiet h hq
  · rw [hnone, Option.toList, List.append_nil]
    exact intends_quiet h hq
  · have hnew := newPosition_eq hcfg h.inside side
    have hinside := (breaches_iff hcfg h.inside side).not.mp (ne_true_of_eq_false hbreach)
    rw [hsome, Option.toList]
    refine ⟨?_, ?_, ?_, ?_⟩
    · rw [hposition, hnew]
      exact not_lt.mp hinside
    · rw [hposition, hnew, exposure_append, add_mul, add_mul, h.net, signedQuantity_command]
    · rw [List.map_append, h.ids, List.length_append, List.length_singleton, serials_succ,
        ← h.orderId]
      rfl
    · rw [hid, List.length_append, List.length_singleton, UInt64.ofNat_add, h.orderId]
      rfl

/-- **A run and what it sent.** -/
theorem intends_run (h : cfg.Sane) (as : List Arrival) : Intends cfg (sentOrders cfg as)
    (Mealy.exec (StrategyLoop.step cfg) StrategyLoop.start as) :=
  Mealy.messages (J := Intends cfg) (fun _ _ a hs => intends_step h hs a) (intends_start h) as

/-- From units of the position to units of the orders. -/
theorem exposure_le (h : cfg.Sane) {cmds : List OrderCommand} {s : StrategyLoop}
    (hs : Intends cfg cmds s) : |exposure cmds| ≤ cfg.maxPosition * 100000000 := by
  have hpos := positionDelta_pos cfg
  refine le_of_mul_le_mul_right ?_ hpos
  calc |exposure cmds| * cfg.positionDelta
      = |exposure cmds * cfg.positionDelta| := by rw [abs_mul, abs_of_pos hpos]
    _ = |s.position| * cfg.orderQty.toNat := by rw [hs.net, abs_mul, Nat.abs_cast]
    _ ≤ cfg.maxPosition * (cfg.positionDelta * 100000000) :=
        mul_le_mul hs.inside (orderQty_le cfg) (Int.natCast_nonneg _) h.maxPosition
    _ = cfg.maxPosition * 100000000 * cfg.positionDelta := by ring

/-- **Intended exposure is capped in order units.**  In every run, whatever the ticks, decisions and
stops: the net quantity of the orders sent is within the limit, their ids are 1, 2, …, and a
decision is sent exactly when its position is within the limit; otherwise nothing is sent and the
position and both counters stay. -/
theorem exposure_capped (h : cfg.Sane) (as : List Arrival) :
    |exposure (sentOrders cfg as)| ≤ cfg.maxPosition * 100000000 ∧
      (sentOrders cfg as).map OrderCommand.orderId = serials (sentOrders cfg as).length ∧
      ∀ e ∈ Mealy.trace (StrategyLoop.step cfg) StrategyLoop.start as,
        e.pre.running = true → ∀ side, e.input.trade = some side →
          (|e.pre.position + cfg.delta side| ≤ cfg.maxPosition → e.out.isSome) ∧
          (cfg.maxPosition < |e.pre.position + cfg.delta side| →
            e.out = none ∧ Quiet e.pre e.post) := by
  have hrun := intends_run h as
  refine ⟨exposure_le h hrun, hrun.ids, fun e he hrunning side htrade => ?_⟩
  obtain ⟨cmds, hpre⟩ : ∃ cmds, Intends cfg cmds e.pre :=
    ((Mealy.preserved (I := fun s => ∃ cmds, Intends cfg cmds s)
      (fun _ a hs => hs.elim fun _ hs => ⟨_, intends_step h hs a⟩)
      ⟨[], intends_start h⟩ as).2 e he).1
  have hstep := Mealy.step_of_mem_trace he
  have hbreaches := breaches_iff h hpre.inside side
  have hcases := loop_cases cfg e.pre e.input
  rw [hstep] at hcases
  rcases hcases with ⟨hidle, -, -⟩ | ⟨side', htrade', -, hbreach, hquiet, hnone⟩
      | ⟨side', htrade', -, hbreach, -, -, -, hsome⟩
  · rw [hrunning, htrade] at hidle
    simp at hidle
  · obtain rfl := Option.some.inj (htrade.symm.trans htrade')
    exact ⟨fun hle => absurd (hbreaches.mp hbreach) (not_lt.mpr hle), fun _ => ⟨hnone, hquiet⟩⟩
  · obtain rfl := Option.some.inj (htrade.symm.trans htrade')
    refine ⟨fun _ => Option.isSome_iff_exists.mpr ⟨_, hsome⟩, fun hlt => ?_⟩
    rw [hbreaches.mpr hlt] at hbreach
    exact absurd hbreach (by decide)

end Loop

/-- Orders of one and a half units, counted as two, with a limit of three. -/
def halfUnits : RiskConfig := ⟨false, 3, 0, 0, 3 / 2⟩

/-- A buy, a buy that the limit suppresses, and a sell. -/
def buyBuySell : List Arrival :=
  [Side.buy, Side.buy, Side.sell].map fun side =>
    ⟨tickOf 100 102 1 7, some side, false, 0⟩

theorem exposure_capped_halfUnits :
    |exposure (sentOrders halfUnits (buyBuySell.take 2))| ≤ 300000000 ∧
      (sentOrders halfUnits buyBuySell).map OrderCommand.orderId = [1, 2] := by
  have h : halfUnits.Sane := ⟨by decide +kernel, by decide +kernel, by decide +kernel⟩
  refine ⟨(exposure_capped h (buyBuySell.take 2)).1, ?_⟩
  rw [(exposure_capped h buyBuySell).2.1]
  decide +kernel

end HotpathIpc
