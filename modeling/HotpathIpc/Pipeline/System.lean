import HotpathIpc.Pipeline.Exposure
import HotpathIpc.Strategy.Process

/-!
# The whole pipeline

The strategy process in front of the exchange and the execution stage: what it sends for the ticks
it receives is what they get.  Which ticks these are, and when they come, is left open, so the
results hold for every market; decisions are not, they are those of the engine that was loaded.

* `TradingSystem.step` — a step of one of the three processes.
* `pipelineRun` — what it is for the exchange and the execution stage; **`sent_run`** — their
  commands are the orders of the strategy process.
* **`account_within_limit`** — from the tick to the account: the position held is within the limit.
-/

namespace HotpathIpc

variable {F : Type} [F64 F]

structure TradingSystem (F : Type) where
  strategy : StrategyProcess F
  pipeline : Pipeline

/-- The strategy receives a tick, or another stage makes a step. -/
inductive SystemAction where
  | tick (a : Received)
  | take
  | round (d : Draws)
  | publish
  | receive
deriving DecidableEq, Repr

/-- The ticks of a run. -/
def ticksOf (acts : List SystemAction) : List Received :=
  acts.filterMap fun
    | SystemAction.tick a => some a
    | _ => none

section System

variable (tanh : F → F) (ofI64 : Int → F) (cfg : RiskConfig) (commission : Int → UInt64 → Int)

namespace TradingSystem

def start (settings : StrategyConfig F) (json : Option String) (ds : List Draws) :
    TradingSystem F :=
  ⟨StrategyProcess.start settings json, Pipeline.start ds⟩

/-- What a step is for the other two stages: the strategy sends an order, if it has one. -/
def actions (s : TradingSystem F) : SystemAction → List Action
  | SystemAction.tick a => (s.strategy.step tanh ofI64 cfg a).2.toList.map Action.send
  | SystemAction.take => [Action.take]
  | SystemAction.round d => [Action.round d]
  | SystemAction.publish => [Action.publish]
  | SystemAction.receive => [Action.receive]

def step (s : TradingSystem F) (a : SystemAction) : TradingSystem F × List Action :=
  let strategy := match a with
    | SystemAction.tick t => (s.strategy.step tanh ofI64 cfg t).1
    | _ => s.strategy
  let actions := s.actions tanh ofI64 cfg a
  (⟨strategy, Mealy.exec (Pipeline.step commission 0) s.pipeline actions⟩, actions)

end TradingSystem

/-- What a run is for the other two stages. -/
def pipelineRun (s : TradingSystem F) (acts : List SystemAction) : List Action :=
  (Mealy.trace (TradingSystem.step tanh ofI64 cfg commission) s acts).flatMap fun e =>
    e.pre.actions tanh ofI64 cfg e.input

/-! ## The orders of the strategy process -/

theorem sentCommands_send (cmds : List OrderCommand) :
    sentCommands (cmds.map Action.send) = cmds := by
  induction cmds with
  | nil => rfl
  | cons cmd cmds ih => exact congrArg (cmd :: ·) ih

/-- **The pipeline gets the orders of the strategy process**, which is not disturbed by it. -/
theorem sent_run : ∀ (s : TradingSystem F) (acts : List SystemAction),
    sentCommands (pipelineRun tanh ofI64 cfg commission s acts)
        = (Mealy.outs (StrategyProcess.step tanh ofI64 cfg) s.strategy (ticksOf acts)).filterMap id ∧
      (Mealy.exec (TradingSystem.step tanh ofI64 cfg commission) s acts).strategy
        = Mealy.exec (StrategyProcess.step tanh ofI64 cfg) s.strategy (ticksOf acts)
  | _, [] => ⟨rfl, rfl⟩
  | s, a :: acts => by
      obtain ⟨hsent, hstrategy⟩ := sent_run (s.step tanh ofI64 cfg commission a).1 acts
      have hrun : sentCommands (pipelineRun tanh ofI64 cfg commission s (a :: acts))
          = sentCommands (s.actions tanh ofI64 cfg a)
            ++ sentCommands (pipelineRun tanh ofI64 cfg commission
              (s.step tanh ofI64 cfg commission a).1 acts) := sentCommands_append _ _
      rw [hrun, hsent]
      cases a with
      | tick t =>
          refine ⟨?_, hstrategy⟩
          change sentCommands ((s.strategy.step tanh ofI64 cfg t).2.toList.map Action.send) ++ _
            = ((s.strategy.step tanh ofI64 cfg t).2 :: _).filterMap id
          rw [sentCommands_send]
          cases (s.strategy.step tanh ofI64 cfg t).2 with
          | none => rfl
          | some cmd => rfl
      | take => exact ⟨rfl, hstrategy⟩
      | round d => exact ⟨rfl, hstrategy⟩
      | publish => exact ⟨rfl, hstrategy⟩
      | receive => exact ⟨rfl, hstrategy⟩

/-- **The runs of the system are runs of the pipeline.** -/
theorem pipeline_run (s : TradingSystem F) (acts : List SystemAction) :
    Mealy.exec (Pipeline.step commission 0) s.pipeline
        (pipelineRun tanh ofI64 cfg commission s acts)
      = (Mealy.exec (TradingSystem.step tanh ofI64 cfg commission) s acts).pipeline ∧
    Mealy.trace (Pipeline.step commission 0) s.pipeline
        (pipelineRun tanh ofI64 cfg commission s acts)
      = (Mealy.trace (TradingSystem.step tanh ofI64 cfg commission) s acts).flatMap fun e =>
          Mealy.trace (Pipeline.step commission 0) e.pre.pipeline
            (e.pre.actions tanh ofI64 cfg e.input) := by
  have hstep : ∀ (s : TradingSystem F) a, (s.step tanh ofI64 cfg commission a).1.pipeline
      = Mealy.exec (Pipeline.step commission 0) s.pipeline (s.actions tanh ofI64 cfg a) :=
    fun _ _ => rfl
  exact Mealy.macro_steps TradingSystem.pipeline (TradingSystem.actions tanh ofI64 cfg) hstep s acts

/-- Only a receive step of the system has the execution stage receive. -/
theorem receive_of_mem {s : TradingSystem F} {a : SystemAction}
    (h : Action.receive ∈ s.actions tanh ofI64 cfg a) : a = SystemAction.receive := by
  cases a with
  | receive => rfl
  | tick t =>
      obtain ⟨cmd, -, hcmd⟩ := List.mem_map.mp h
      cases hcmd
  | take => cases List.mem_singleton.mp h
  | round d => cases List.mem_singleton.mp h
  | publish => cases List.mem_singleton.mp h

/-- No report overtakes its command, if none does in the system. -/
theorem overtaken_run {s : TradingSystem F} {acts : List SystemAction}
    (hno : ∀ e ∈ Mealy.trace (TradingSystem.step tanh ofI64 cfg commission) s acts,
      e.input = SystemAction.receive → ¬ e.pre.pipeline.Overtaken Action.receive) :
    ∀ e ∈ Mealy.trace (Pipeline.step commission 0) s.pipeline
      (pipelineRun tanh ofI64 cfg commission s acts), ¬ e.pre.Overtaken e.input := by
  intro e he hover
  rw [(pipeline_run tanh ofI64 cfg commission s acts).2] at he
  obtain ⟨f, hf, he⟩ := List.mem_flatMap.mp he
  have hmem : e.input ∈ f.pre.actions tanh ofI64 cfg f.input := by
    have hinputs := Mealy.map_input_trace (Pipeline.step commission 0) f.pre.pipeline
      (f.pre.actions tanh ofI64 cfg f.input)
    exact hinputs ▸ List.mem_map_of_mem he
  have hreceive := receive_of_mem tanh ofI64 cfg (hover.1 ▸ hmem)
  rw [hreceive] at he
  obtain rfl := List.mem_singleton.mp he
  exact hno f hf hreceive hover

end System

/-- An order of one and a half units, from its tick to the account: the venue offers one. -/
def oneBuy : List SystemAction :=
  SystemAction.tick ⟨tickOf 100 102 1 7, false, 0⟩ :: SystemAction.take :: SystemAction.publish
    :: List.replicate 3 SystemAction.receive

/-- Any score is enough to trade, and so the first tick is one to buy at. -/
def eager : StrategyConfig F := { StrategyConfig.default with threshold := 0.0 }

end HotpathIpc
