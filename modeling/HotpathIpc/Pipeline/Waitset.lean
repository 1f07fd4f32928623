import HotpathIpc.Library.Wakeup
import HotpathIpc.Strategy.Risk

/-!
# Waiting for ticks and for orders

Both hot loops either poll or sleep on an event that comes with their service (`WAIT_MODE` of
`src/bin/strategy.rs`, `ORDER_WAIT` of `src/bin/exchange.rs`).  The sender puts a message into the
service and then notifies the event, and the receiver looks for a message before it sleeps, but
nothing keeps the two from running into each other.

* Whoever receives is a `Wakeup.Consumer`; the services overflow, and the event is any
  `Wakeup.Event`.
* The exchange notifies of ticks only if `MARKET_NOTIFY` is 1.  The strategy sleeps without a
  timeout, and it stops on its own bounds.
* The strategy always notifies of orders.  The exchange sleeps until its participants are due at the
  latest, and not in an iteration that received an order.
* Ctrl-C during a sleep is left out.

* **`ticks_keep_coming_iff`** — what the strategy needs in order not to sleep through a tick.
* **`orders_get_through`** — the exchange needs nothing.
-/

namespace HotpathIpc

/-! ## The strategy waits for ticks -/

/-- What comes with a tick when it is received. -/
structure Moment where
  trade : Option Side
  interrupted : Bool
  elapsedSecs : UInt64
deriving DecidableEq, Repr

def Moment.arrival (m : Moment) (tick : MarketTick) : Arrival :=
  ⟨tick, m.trade, m.interrupted, m.elapsedSecs⟩

def strategyStage (cfg : RiskConfig) (useWaitset : Bool) :
    Wakeup.Consumer StrategyLoop MarketTick Moment where
  work s tick m := (s.step cfg (m.arrival tick)).1
  idle s _ := s
  live := StrategyLoop.running
  sleeps _ := useWaitset
  timed := false

section Ticks

variable {ε : Type} (E : Wakeup.Event ε) (cfg : RiskConfig) (useWaitset marketNotify : Bool)
  (capacity : ℕ)

/-- The strategy and its tick service after a run. -/
abbrev tickService (xs : List (Wakeup.Action MarketTick Moment)) :
    Wakeup.State StrategyLoop MarketTick ε :=
  Wakeup.after E (strategyStage cfg useWaitset) capacity marketNotify StrategyLoop.start xs

abbrev ticksSent (xs : List (Wakeup.Action MarketTick Moment)) : List MarketTick :=
  Wakeup.sentBy E (strategyStage cfg useWaitset) capacity marketNotify StrategyLoop.start xs

/-- The ticks a run received, each with its moment. -/
abbrev ticksReceived (xs : List (Wakeup.Action MarketTick Moment)) : List (MarketTick × Moment) :=
  Wakeup.workedBy E (strategyStage cfg useWaitset) capacity marketNotify StrategyLoop.start xs

end Ticks

variable {ε : Type} {E : Wakeup.Event ε} {cfg : RiskConfig} {useWaitset marketNotify : Bool}
  {capacity : ℕ}

/-- However it waits, the loop is in the state that the ticks it received lead to. -/
theorem tickService_loop (xs : List (Wakeup.Action MarketTick Moment)) :
    (tickService E cfg useWaitset marketNotify capacity xs).consumer
      = Mealy.exec (StrategyLoop.step cfg) StrategyLoop.start
          ((ticksReceived E cfg useWaitset marketNotify capacity xs).map
            fun p => p.2.arrival p.1) := by
  rw [tickService, Wakeup.consumer_run fun _ _ => rfl, ticksReceived]
  generalize Wakeup.workedBy E (strategyStage cfg useWaitset) capacity marketNotify
    StrategyLoop.start xs = ps
  generalize StrategyLoop.start = s
  induction ps generalizing s with
  | nil => rfl
  | cons p ps ih => exact ih _

/-- **No tick is slept through if, and only if, waiting is announced.**  From wherever the exchange
and the strategy have got to, once the exchange has made the notifications it makes, the strategy
alone receives all that its service holds, up to the tick that was sent last, unless it stops: in
poll mode always, in waitset mode exactly with `MARKET_NOTIFY`. -/
theorem ticks_keep_coming_iff (hcapacity : 0 < capacity) :
    (∀ (xs : List (Wakeup.Action MarketTick Moment)) (moments : List Moment),
      let s := tickService E cfg useWaitset marketNotify capacity xs
      let ys := xs ++ moments.map Wakeup.Action.consume
      s.owed = false → s.queue.length < moments.length →
        (tickService E cfg useWaitset marketNotify capacity ys).consumer.running = false ∨
          (tickService E cfg useWaitset marketNotify capacity ys).queue = [] ∧
          ((ticksReceived E cfg useWaitset marketNotify capacity ys).map Prod.fst).getLast?
            = (ticksSent E cfg useWaitset marketNotify capacity ys).getLast?)
      ↔ (useWaitset = true → marketNotify = true) := by
  have : Nonempty MarketTick := ⟨tickOf 0 0 0 0⟩
  have hdrains := Wakeup.drains_iff E (strategyStage cfg useWaitset) marketNotify hcapacity
    (c := StrategyLoop.start) rfl fun _ => rfl
  have hsetting : (marketNotify = true ∨ (strategyStage cfg useWaitset).timed = true ∨
      ∀ m, (strategyStage cfg useWaitset).sleeps m = false)
        ↔ (useWaitset = true → marketNotify = true) := by
    refine ⟨fun h hwaitset => ?_, fun h => ?_⟩
    · rcases h with hnotify | htimed | hsleeps
      · exact hnotify
      · exact absurd htimed Bool.false_ne_true
      · exact absurd ((hsleeps ⟨none, false, 0⟩).symm.trans hwaitset) Bool.false_ne_true
    · cases hwaitset : useWaitset with
      | true => exact Or.inl (h hwaitset)
      | false => exact Or.inr (Or.inr fun _ => rfl)
  rw [← hsetting, ← hdrains]
  refine forall₂_congr fun xs moments => imp_congr_right fun _ => imp_congr_right fun _ => ?_
  rw [tickService, Wakeup.after_append_consume]
  refine or_congr_right ⟨And.left, fun hempty => ⟨hempty, ?_⟩⟩
  have hlatest := Wakeup.latest_run E (strategyStage cfg useWaitset) marketNotify hcapacity
    StrategyLoop.start (xs ++ moments.map Wakeup.Action.consume)
  rw [Wakeup.after_append_consume, hempty] at hlatest
  exact hlatest

/-- A strategy that sleeps before its first tick. -/
def asleepFirst : List (Wakeup.Action MarketTick Moment) :=
  [Wakeup.Action.consume ⟨none, false, 0⟩, Wakeup.Action.send (tickOf 100 102 1 7),
    Wakeup.Action.notify]

theorem ticks_keep_coming_iff_asleepFirst :
    let moments : List Moment := [⟨none, false, 0⟩, ⟨none, false, 0⟩]
    let ys := asleepFirst ++ moments.map Wakeup.Action.consume
    (tickService Wakeup.Event.flag halfUnits true true 2 ys).consumer.running = false ∨
      (tickService Wakeup.Event.flag halfUnits true true 2 ys).queue = [] ∧
      ((ticksReceived Wakeup.Event.flag halfUnits true true 2 ys).map Prod.fst).getLast?
        = (ticksSent Wakeup.Event.flag halfUnits true true 2 ys).getLast? :=
  (ticks_keep_coming_iff (by decide)).mpr (fun _ => rfl) asleepFirst
    [⟨none, false, 0⟩, ⟨none, false, 0⟩] (by decide) (by decide)

/-! ## The exchange waits for orders -/

/-- What an iteration of the exchange that finds no order meets. -/
structure Lull where
  /-- it received an order before -/
  gotOrder : Bool
  /-- the draws of the participant round, if it is due -/
  due : Option Draws

def exchangeStage (commission : Int → UInt64 → Int) (useOrderWaitset : Bool) :
    Wakeup.Consumer Exchange OrderCommand Lull where
  work x cmd _ := (x.step commission (Event.order cmd)).1
  idle x m := match m.due with
    | some d => (x.step commission (Event.round d)).1
    | none => x
  live _ := true
  sleeps m := m.due.isNone && !m.gotOrder && useOrderWaitset
  timed := true

section Orders

variable (commission : Int → UInt64 → Int) (useOrderWaitset notified : Bool) (x : Exchange)

/-- The exchange and its order service after a run. -/
abbrev orderService (E : Wakeup.Event ε) (capacity : ℕ)
    (xs : List (Wakeup.Action OrderCommand Lull)) : Wakeup.State Exchange OrderCommand ε :=
  Wakeup.after E (exchangeStage commission useOrderWaitset) capacity notified x xs

abbrev ordersSent (E : Wakeup.Event ε) (capacity : ℕ)
    (xs : List (Wakeup.Action OrderCommand Lull)) : List OrderCommand :=
  Wakeup.sentBy E (exchangeStage commission useOrderWaitset) capacity notified x xs

abbrev ordersMatched (E : Wakeup.Event ε) (capacity : ℕ)
    (xs : List (Wakeup.Action OrderCommand Lull)) : List OrderCommand :=
  (Wakeup.workedBy E (exchangeStage commission useOrderWaitset) capacity notified x xs).map
    Prod.fst

end Orders

variable {commission : Int → UInt64 → Int} {useOrderWaitset notified : Bool}

/-- **Orders always get through.**  However the exchange waits, and whether or not its event is ever
notified: from wherever it and the strategy have got to, its own iterations match all that the order
service holds, one more of them than it holds orders.  They match it in the order it was sent, and
the order sent last is matched in any case. -/
theorem orders_get_through (hcapacity : 0 < capacity) (x : Exchange)
    (xs : List (Wakeup.Action OrderCommand Lull)) (lulls : List Lull)
    (hlen : (orderService commission useOrderWaitset notified x E capacity xs).queue.length
      < lulls.length) :
    let ys := xs ++ lulls.map Wakeup.Action.consume
    (orderService commission useOrderWaitset notified x E capacity ys).queue = [] ∧
      (ordersMatched commission useOrderWaitset notified x E capacity ys).Sublist
        (ordersSent commission useOrderWaitset notified x E capacity ys) ∧
      (ordersMatched commission useOrderWaitset notified x E capacity ys).getLast?
        = (ordersSent commission useOrderWaitset notified x E capacity ys).getLast? := by
  intro ys
  have hempty : (orderService commission useOrderWaitset notified x E capacity ys).queue = [] := by
    rw [orderService, Wakeup.after_append_consume]
    exact (Wakeup.drain (fun _ _ => Or.inl rfl) hlen).resolve_left (by exact nofun)
  refine ⟨hempty, Wakeup.worked_sublist x ys, ?_⟩
  have hlatest := Wakeup.latest_run E (exchangeStage commission useOrderWaitset) notified hcapacity
    x ys
  rw [hempty] at hlatest
  exact hlatest

/-- An order that comes while the exchange sleeps, and is never notified. -/
def whileAsleep : List (Wakeup.Action OrderCommand Lull) :=
  [Wakeup.Action.consume ⟨false, none⟩, Wakeup.Action.send (halfUnits.command
    (tickOf 100 102 1 7) Side.buy 1)]

theorem orders_get_through_whileAsleep :
    let ys := whileAsleep ++ [⟨false, none⟩, ⟨false, none⟩].map Wakeup.Action.consume
    (orderService (fun _ _ => 0) true false (Exchange.primed []) Wakeup.Event.flag 2 ys).queue = [] :=
  (orders_get_through (by decide) (Exchange.primed []) whileAsleep
    [⟨false, none⟩, ⟨false, none⟩] (by decide)).1

end HotpathIpc
