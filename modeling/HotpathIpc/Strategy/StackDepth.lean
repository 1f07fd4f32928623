import HotpathIpc.Strategy.Provenance

/-!
# How much stack a graph needs

The compiler does not look at the capacity of the machine's stack, and a push onto a full stack is
dropped without an error.  `GraphSpec.stackCells` counts, on the graph, the cells that its signals
need at most at one time: a gate holds the value of what comes before while it computes the next
input, so gates that are wired into each other need a cell for every level.

A value that is never computed needs no cell: an indicator without a buffer ends the run, and what
comes after it is not reached.

**`stack_fits_iff`** — no push is dropped exactly when that number is within the capacity.
-/

namespace HotpathIpc

open Lists (map_eq_of_forall₂)

variable {F : Type} [F64 F]

/-! ## Demands -/

/-- What computing a value takes: the cells needed at most, and whether it is reached at all, every
indicator having its buffer. -/
structure Demand where
  cells : ℕ
  reached : Bool
deriving DecidableEq, Repr

namespace Demand

/-- A value that is pushed at once. -/
def leaf (buffer : Bool) : Demand := ⟨if buffer then 1 else 0, buffer⟩

/-- One value, and a second one while the first is kept. -/
def both (d₁ d₂ : Demand) : Demand :=
  ⟨max d₁.cells (if d₁.reached then d₂.cells + 1 else 0), d₁.reached && d₂.reached⟩

/-- The single input of a unary consumer: a constant if there is none. -/
def single : List Demand → Demand
  | [] => leaf true
  | d :: _ => d

/-- The inputs of a gate, folded one after the other. -/
def gate : List Demand → Demand
  | [] => leaf true
  | d :: ds => ds.foldl both d

end Demand

/-- The demand of a tree. -/
def Expr.demand : Expr F → Demand
  | Expr.price => Demand.leaf true
  | Expr.const _ => Demand.leaf true
  | Expr.ema _ => Demand.leaf true
  | Expr.momentum lookback => Demand.leaf (decide (lookback + 1 < 2 ^ 64))
  | Expr.reversion window => Demand.leaf (decide (1 ≤ window))
  | Expr.binary _ e₁ e₂ => e₁.demand.both e₂.demand

/-- The demand of a node, from those of the inputs it reads. -/
def GNode.demand (node : GNode F) (inputs : List Demand) : Demand :=
  match node.type with
  | some NodeType.momentum => Demand.leaf (decide (node.lookback + 1 < 2 ^ 64))
  | some NodeType.reversion => Demand.leaf (decide (1 ≤ node.window))
  | some NodeType.condition => (Demand.single inputs).both (Demand.leaf true)
  | some NodeType.andGate => Demand.gate inputs
  | some NodeType.orGate => Demand.gate inputs
  | some NodeType.buySignal => Demand.single inputs
  | some NodeType.sellSignal => Demand.single inputs
  | _ => Demand.leaf true

namespace GraphSpec

/-- The demand of a node of the graph, `bound` levels deep. -/
def demand (spec : GraphSpec F) : ℕ → String → Demand
  | 0, _ => Demand.leaf true
  | bound + 1, id =>
      match spec.byId id with
      | none => Demand.leaf true
      | some node => node.demand ((spec.operands node).map (spec.demand bound))

/-- The cells for some signals, one after the other, each on an empty stack. -/
def cellsFor (spec : GraphSpec F) : List (Terminal × String) → ℕ
  | [] => 0
  | s :: signals =>
      let d := Demand.single ((spec.incoming s.2).map (spec.demand (spec.nodes.length + 1)))
      max d.cells (if d.reached then spec.cellsFor signals else 0)

/-- **The stack cells that a graph needs.** -/
def stackCells (spec : GraphSpec F) : ℕ := spec.cellsFor (signalsOf spec.nodes)

end GraphSpec

/-! ## The demand of the code -/

theorem leaf_pos {buffer : Bool} (h : (Demand.leaf buffer).reached = true) :
    1 ≤ (Demand.leaf buffer).cells := by
  rw [show buffer = true from h]
  exact Nat.le_refl 1

omit [F64 F] in
theorem cells_pos {e : Expr F} (h : e.demand.reached = true) : 1 ≤ e.demand.cells := by
  induction e with
  | binary f e₁ e₂ ih₁ ih₂ =>
      have h : (e₁.demand.reached && e₂.demand.reached) = true := h
      rw [Bool.and_eq_true] at h
      exact Nat.le_trans (ih₁ h.1) (Nat.le_max_left _ _)
  | _ => exact leaf_pos h

omit [F64 F] in
theorem peak_leaf {op : Op F} {buffer : Bool} (hdepth : ∀ d, op.depth d = d + 1)
    (hsized : decide op.Sized = buffer) (d : ℕ) (rest : List (Op F)) :
    peakDepth d (reachedCode (op :: rest)) = max (d + (Demand.leaf buffer).cells)
      (if buffer then peakDepth (d + 1) (reachedCode rest) else 0) := by
  cases buffer with
  | false =>
      rw [reachedCode_stuck (of_decide_eq_false hsized)]
      simp [Demand.leaf, Depth.peak]
  | true =>
      rw [reachedCode_cons (of_decide_eq_true hsized)]
      have hstart : d + 1 ≤ peakDepth (d + 1) (reachedCode rest) := Depth.start_le_peak _ _ _
      have hcons : peakDepth d (op :: reachedCode rest)
          = max d (peakDepth (op.depth d) (reachedCode rest)) := rfl
      rw [hcons, hdepth, if_pos rfl]
      simp only [Demand.leaf, if_true]
      omega

omit [F64 F] in
/-- An operator is reached with both operands, and leaves one value for the two. -/
theorem peak_operator (f : Binary) (d : ℕ) (rest : List (Op F)) :
    peakDepth (d + 2) (reachedCode (f.op :: rest))
      = max (d + 2) (peakDepth (d + 1) (reachedCode rest)) := by
  have hsized : (f.op : Op F).Sized := by cases f <;> trivial
  have hcons : peakDepth (d + 2) (f.op :: reachedCode rest)
      = max (d + 2) (peakDepth ((f.op : Op F).depth (d + 2)) (reachedCode rest)) := rfl
  rw [reachedCode_cons hsized, hcons, depth_binary]

omit [F64 F] in
/-- **The depth of a tree's code**, and of what follows it if that is reached. -/
theorem peak_code (e : Expr F) (slot d : ℕ) (rest : List (Op F)) :
    peakDepth d (reachedCode ((e.code slot).1 ++ rest))
      = max (d + e.demand.cells)
        (if e.demand.reached then peakDepth (d + 1) (reachedCode rest) else 0) := by
  induction e generalizing slot d rest with
  | binary f e₁ e₂ ih₁ ih₂ =>
      simp only [Expr.code, List.append_assoc, List.singleton_append]
      rw [ih₁, ih₂, peak_operator]
      simp only [Expr.demand, Demand.both]
      by_cases h₁ : e₁.demand.reached = true
      · by_cases h₂ : e₂.demand.reached = true
        · have hpos := cells_pos h₂
          simp only [h₁, h₂, if_true, Bool.and_self]
          omega
        · simp only [h₁, h₂, if_true, Bool.and_false, Bool.false_eq_true, if_false]
          omega
      · simp [h₁]
  | _ => exact peak_leaf (fun _ => rfl) rfl d rest

/-- The cells for the code of some signals. -/
def signalCells : List (Terminal × Expr F) → ℕ
  | [] => 0
  | s :: signals =>
      max s.2.demand.cells (if s.2.demand.reached then signalCells signals else 0)

omit [F64 F] in
theorem peak_signals : ∀ (signals : List (Terminal × Expr F)) (slot : ℕ),
    peakDepth 0 (reachedCode (codeSignals signals slot).1) = signalCells signals
  | [], _ => rfl
  | s :: signals, slot => by
      have ih := peak_signals signals (s.2.code slot).2
      have hsized : (s.1.op : Op F).Sized := by cases s.1 <;> trivial
      have hcons : peakDepth 1 (s.1.op :: reachedCode (codeSignals signals (s.2.code slot).2).1)
          = max 1 (peakDepth ((s.1.op : Op F).depth 1)
            (reachedCode (codeSignals signals (s.2.code slot).2).1)) := rfl
      have hdepth : (s.1.op : Op F).depth 1 = 0 := by cases s.1 <;> rfl
      rw [codeSignals, peak_code, reachedCode_cons hsized, Nat.zero_add, hcons, hdepth, ih,
        signalCells]
      by_cases hreached : s.2.demand.reached = true
      · have hpos := cells_pos hreached
        rw [if_pos hreached, if_pos hreached]
        omega
      · rw [if_neg hreached, if_neg hreached]

/-! ## The demand of the graph -/

theorem demand_single {es : List (Expr F)} {e : Expr F} (h : Expr.single es = some e) :
    Demand.single (es.map Expr.demand) = e.demand := by
  match es with
  | [] =>
      obtain rfl := Option.some.inj h
      rfl
  | [e'] =>
      obtain rfl := Option.some.inj h
      rfl
  | _ :: _ :: _ => exact absurd h (by simp [Expr.single])

omit [F64 F] in
theorem demand_fold (f : Binary) : ∀ (es : List (Expr F)) (e : Expr F),
    (es.map Expr.demand).foldl Demand.both e.demand = (es.foldl (Expr.binary f) e).demand
  | [], _ => rfl
  | e' :: es, e => demand_fold f es (Expr.binary f e e')

theorem demand_gate (f : Binary) : ∀ es : List (Expr F),
    Demand.gate (es.map Expr.demand) = (Expr.gate f es).demand
  | [] => rfl
  | e :: es => demand_fold f es e

/-- A node's demand is that of its tree. -/
theorem demand_tree {node : GNode F} {es : List (Expr F)} {e : Expr F} (h : node.tree es = some e) :
    node.demand (es.map Expr.demand) = e.demand := by
  rcases tree_cases h with ⟨htype, -, rfl⟩ | ⟨htype, -, rfl⟩ | ⟨htype, -, rfl⟩ | ⟨htype, -, rfl⟩ |
    ⟨htype, e', hsingle, rfl⟩ | ⟨htype, rfl⟩ | ⟨htype, rfl⟩ | ⟨htype | htype, hsingle⟩
  · simp only [GNode.demand, htype, Expr.demand]
  · simp only [GNode.demand, htype, Expr.demand]
  · simp only [GNode.demand, htype, Expr.demand]
  · simp only [GNode.demand, htype, Expr.demand]
  · simp only [GNode.demand, htype, Expr.demand, demand_single hsingle]
  · simp only [GNode.demand, htype, demand_gate Binary.and]
  · simp only [GNode.demand, htype, demand_gate Binary.or]
  · simp only [GNode.demand, htype, demand_single hsingle]
  · simp only [GNode.demand, htype, demand_single hsingle]

/-- **The demand of an accepted node** is that of the tree it is expanded into. -/
theorem demand_of_expand {spec : GraphSpec F} : ∀ {bound : ℕ} {onStack : List String} {id : String}
    {e : Expr F}, expandNode spec bound onStack id = .ok e → spec.demand bound id = e.demand
  | 0, _, _, _, hok => nomatch hok
  | bound + 1, _, _, _, hok => by
      obtain ⟨node, es, hnode, hes, he⟩ := expandNode_ok hok
      have hinputs : (spec.operands node).map (spec.demand bound) = es.map Expr.demand :=
        map_eq_of_forall₂ (hes.imp fun _ _ hsrc => demand_of_expand hsrc)
      rw [GraphSpec.demand, hnode]
      dsimp only
      rw [hinputs, demand_tree he]

theorem cellsFor_eq {spec : GraphSpec F} {ids : List (Terminal × String)}
    {signals : List (Terminal × Expr F)} (h : List.Forall₂ (fun s t => s.1 = t.1 ∧
      expandUnaryInput spec (expandNode spec (spec.nodes.length + 1) []) s.2 = .ok t.2)
        ids signals) : spec.cellsFor ids = signalCells signals := by
  induction h with
  | nil => rfl
  | @cons s t _ _ hst _ ih =>
      obtain ⟨es, hes, hsingle⟩ := expandUnaryInput_ok hst.2
      have hinput : (spec.incoming s.2).map (spec.demand (spec.nodes.length + 1))
          = es.map Expr.demand := map_eq_of_forall₂ (hes.imp fun _ _ hsrc => demand_of_expand hsrc)
      rw [GraphSpec.cellsFor, hinput, demand_single hsingle, ih]
      rfl

/-- The depth of a compiled program, as far as it is reached. -/
theorem peak_compiled {spec : GraphSpec F} {prog : List (Op F)} (h : compile spec = .ok prog) :
    peakDepth 0 (reachedCode prog) = spec.stackCells := by
  obtain ⟨-, signals, hok, rfl⟩ := compile_eq h
  rw [peak_signals, GraphSpec.stackCells, cellsFor_eq (expandSignals_ok hok)]

/-- **Which graphs fit the stack.**  The machine of an accepted graph never drops a push, and its
stack stays within the capacity, exactly when the cells that the graph needs are within it. -/
theorem stack_fits_iff {spec : GraphSpec F} {prog : List (Op F)} (h : compile spec = .ok prog) :
    (∀ prices, (Vm.new prog).Fits prices) ↔ spec.stackCells ≤ STACK_CAP := by
  obtain ⟨hnum, hword⟩ := compiled_words h
  rw [vm_fits_iff hnum hword, peak_compiled h]

/-- The id of a gate in a chain: one letter. -/
def gateId (k : ℕ) : String := (Char.ofNat (65 + k)).toString

/-- Gates wired into each other, every one with the price as its first input. -/
def gateChain (levels : ℕ) : GraphSpec ℚ where
  nodes := ⟨"price", "data_source", ∅, ∅⟩ :: ⟨"buy", "buy_signal", ∅, ∅⟩ ::
    (List.range levels).map fun k => ⟨gateId k, "and_gate", ∅, ∅⟩
  connections := (gateId 0, "buy") :: (List.range levels).flatMap fun k =>
    [("price", gateId k), (if k + 1 < levels then gateId (k + 1) else "price", gateId k)]

theorem stack_fits_iff_chain : letI : F64 ℚ := F64.exact fun x => x
    ∃ prog, compile (gateChain 31) = .ok prog ∧ ∀ prices, (Vm.new prog).Fits prices := by
  let _ : F64 ℚ := F64.exact fun x => x
  have hok : (compile (gateChain 31)).toOption.any (fun _ => true) = true := by decide +kernel
  obtain ⟨prog, hprog, -⟩ := Fallible.ok_of_any hok
  exact ⟨prog, hprog, (stack_fits_iff hprog).mpr (by decide +kernel)⟩

/-- **A graph that overflows the stack**: 32 gates, and the price below them all. -/
theorem gate_chain_overflows : letI : F64 ℚ := F64.exact fun x => x
    ∃ prog, compile (gateChain 32) = .ok prog ∧ ¬ ∀ prices, (Vm.new prog).Fits prices := by
  let _ : F64 ℚ := F64.exact fun x => x
  have hok : (compile (gateChain 32)).toOption.any (fun _ => true) = true := by decide +kernel
  obtain ⟨prog, hprog, -⟩ := Fallible.ok_of_any hok
  obtain ⟨hnum, hword⟩ := compiled_words hprog
  refine ⟨prog, hprog, fun hfits => ?_⟩
  have hpeak := (vm_fits_iff hnum hword).mp hfits
  rw [peak_compiled hprog] at hpeak
  exact absurd hpeak (by decide +kernel)

end HotpathIpc
