import HotpathIpc.Library.Fallible
import HotpathIpc.Strategy.Expr

/-!
# Lowering in two steps

The compiler emits code while it walks the graph.  The same is done in two steps: the graph is
expanded into trees (`expandNode`, `expandSignals`), and the trees are emitted.

* **`emitNode_eq`**, **`compile_eq`** — the compiler is the two steps, errors included.
-/

namespace HotpathIpc

variable {F : Type} [F64 F]

/-! ## Signals -/

/-- What a signal node does when it fires. -/
inductive Terminal where
  | buy
  | sell
deriving DecidableEq, Repr

def Terminal.op : Terminal → Op F
  | buy => Op.buy
  | sell => Op.sell

def Terminal.decision : Terminal → F → VmDecision F
  | buy => VmDecision.buy
  | sell => VmDecision.sell

def GNode.terminal (node : GNode F) : Option Terminal :=
  match node.type with
  | some NodeType.buySignal => some Terminal.buy
  | some NodeType.sellSignal => some Terminal.sell
  | _ => none

/-- The comparison of a condition, as an operator. -/
def GNode.cmp (node : GNode F) : Binary :=
  match node.strs["op"]?.getD "greater_than" with
  | "less_than" => Binary.lt
  | "greater_equal" => Binary.ge
  | "less_equal" => Binary.le
  | "equal" => Binary.eq
  | _ => Binary.gt

omit [F64 F] in
theorem cmp_op (node : GNode F) : node.cmp.op = node.comparison := by
  rw [GNode.cmp, GNode.comparison]
  split <;> simp_all [Binary.op]

/-! ## Expanding the graph -/

section Expand

variable (spec : GraphSpec F)

def expandUnaryInput (expand : String → Except CompileError (Expr F)) (id : String) :
    Except CompileError (Expr F) :=
  match spec.incoming id with
  | [] => .ok (Expr.const 0.0)
  | [src] => expand src
  | srcs => .error (CompileError.tooManyInputs id ((spec.byId id).elim "" GNode.ntype) srcs.length)

def expandFold (expand : String → Except CompileError (Expr F)) (f : Binary) :
    List String → Expr F → Except CompileError (Expr F)
  | [], e => .ok e
  | src :: srcs, e => do
      let e' ← expand src
      expandFold expand f srcs (Expr.binary f e e')

def expandGate (expand : String → Except CompileError (Expr F)) (f : Binary) :
    List String → Except CompileError (Expr F)
  | [] => .ok (Expr.const 0.0)
  | src :: srcs => do
      let e ← expand src
      expandFold expand f srcs e

def expandNode : ℕ → List String → String → Except CompileError (Expr F)
  | 0, _, _ => .error CompileError.cycle
  | bound + 1, onStack, id =>
      if id ∈ onStack then .error CompileError.cycle
      else match spec.byId id with
        | none => .error (CompileError.unknownNode id)
        | some node =>
            let expand := expandNode bound (id :: onStack)
            match node.type with
            | some NodeType.dataSource => .ok Expr.price
            | some NodeType.ema => .ok (Expr.ema node.period)
            | some NodeType.momentum => .ok (Expr.momentum node.lookback)
            | some NodeType.reversion => .ok (Expr.reversion node.window)
            | some NodeType.condition => do
                let e ← expandUnaryInput spec expand id
                .ok (Expr.binary node.cmp e (Expr.const node.value))
            | some NodeType.andGate => expandGate expand Binary.and (spec.incoming id)
            | some NodeType.orGate => expandGate expand Binary.or (spec.incoming id)
            | some NodeType.buySignal => expandUnaryInput spec expand id
            | some NodeType.sellSignal => expandUnaryInput spec expand id
            | none => .error (CompileError.unknownType node.ntype)

def expandSignals : List (GNode F) → Except CompileError (List (Terminal × Expr F))
  | [] => .ok []
  | node :: nodes =>
      match node.terminal with
      | none => expandSignals nodes
      | some t => do
          let e ← expandUnaryInput spec (expandNode spec (spec.nodes.length + 1) []) node.id
          let rest ← expandSignals nodes
          .ok ((t, e) :: rest)

end Expand

/-- The code of the signals, one after the other. -/
def codeSignals : List (Terminal × Expr F) → ℕ → Code F
  | [], slot => ([], slot)
  | s :: signals, slot =>
      let c := s.2.code slot
      let rest := codeSignals signals c.2
      (c.1 ++ s.1.op :: rest.1, rest.2)

/-! ## The two steps are the compiler -/

section Equations

variable {emit : String → ℕ → Except CompileError (Code F)}
  {expand : String → Except CompileError (Expr F)}

theorem emitUnaryInput_eq (spec : GraphSpec F)
    (h : ∀ src slot, emit src slot = (expand src).map (·.code slot)) (id : String) (slot : ℕ) :
    emitUnaryInput spec emit id slot = (expandUnaryInput spec expand id).map (·.code slot) := by
  rw [emitUnaryInput, expandUnaryInput]
  match spec.incoming id with
  | [] => rfl
  | [src] => exact h src slot
  | _ :: _ :: _ => rfl

omit [F64 F] in
theorem emitFold_eq (h : ∀ src slot, emit src slot = (expand src).map (·.code slot))
    (f : Binary) : ∀ (srcs : List String) (e : Expr F) (start : ℕ),
      (emitFold emit f.op srcs (e.code start).2).map (fun rest =>
        ((e.code start).1 ++ rest.1, rest.2)) = (expandFold expand f srcs e).map (·.code start)
  | [], e, start => by simp [emitFold, expandFold, Except.map]
  | src :: srcs, e, start => by
      rw [emitFold, expandFold, h]
      cases hsrc : expand src with
      | error err => rfl
      | ok e' =>
          -- what is there, the next input and the operator are one tree
          have ih := emitFold_eq h f srcs (Expr.binary f e e') start
          simp only [Expr.code, Except.map] at ih
          simp only [Except.map, bind, Except.bind]
          refine Eq.trans ?_ ih
          cases emitFold emit f.op srcs (e'.code (e.code start).2).2 with
          | error err => rfl
          | ok rest => simp

theorem emitGate_eq (h : ∀ src slot, emit src slot = (expand src).map (·.code slot))
    (f : Binary) : ∀ (srcs : List String) (slot : ℕ),
      emitGate emit f.op srcs slot = (expandGate expand f srcs).map (·.code slot)
  | [], _ => rfl
  | src :: srcs, slot => by
      rw [emitGate, expandGate, h]
      cases hsrc : expand src with
      | error err => rfl
      | ok e =>
          have hfold := emitFold_eq h f srcs e slot
          simp only [Except.map, bind, Except.bind] at hfold ⊢
          exact hfold

end Equations

/-- **A node is emitted as the code of its tree.** -/
theorem emitNode_eq (spec : GraphSpec F) : ∀ (bound : ℕ) (onStack : List String) (id : String)
    (slot : ℕ), emitNode spec bound onStack id slot
      = (expandNode spec bound onStack id).map (·.code slot)
  | 0, _, _, _ => rfl
  | bound + 1, onStack, id, slot => by
      have ih := emitNode_eq spec bound (id :: onStack)
      rw [emitNode, expandNode]
      by_cases hon : id ∈ onStack
      · rw [if_pos hon, if_pos hon]
        rfl
      · rw [if_neg hon, if_neg hon]
        cases hnode : spec.byId id with
        | none => rfl
        | some node =>
            dsimp only
            match node.type with
            | none => rfl
            | some NodeType.dataSource => rfl
            | some NodeType.ema => rfl
            | some NodeType.momentum => rfl
            | some NodeType.reversion => rfl
            | some NodeType.condition =>
                dsimp only
                rw [emitUnaryInput_eq spec ih]
                cases expandUnaryInput spec (expandNode spec bound (id :: onStack)) id with
                | error err => rfl
                | ok e =>
                    simp [Except.map, bind, Except.bind, Expr.code, cmp_op]
            | some NodeType.andGate => exact emitGate_eq ih Binary.and _ _
            | some NodeType.orGate => exact emitGate_eq ih Binary.or _ _
            | some NodeType.buySignal => exact emitUnaryInput_eq spec ih _ _
            | some NodeType.sellSignal => exact emitUnaryInput_eq spec ih _ _

theorem emitSignals_eq (spec : GraphSpec F) : ∀ (nodes : List (GNode F)) (slot : ℕ),
    emitSignals spec nodes slot = (expandSignals spec nodes).map (codeSignals · slot)
  | [], _ => rfl
  | node :: nodes, slot => by
      have ih := emitSignals_eq spec nodes
      have hone := emitUnaryInput_eq spec (emitNode_eq spec (spec.nodes.length + 1) []) node.id slot
      -- one signal: its input, its op, the rest
      have hsignal : ∀ t : Terminal,
          (do
            let c ← emitUnaryInput spec (emitNode spec (spec.nodes.length + 1) []) node.id slot
            let rest ← emitSignals spec nodes c.2
            .ok (c.1 ++ t.op :: rest.1, rest.2))
          = (do
              let e ← expandUnaryInput spec (expandNode spec (spec.nodes.length + 1) []) node.id
              let rest ← expandSignals spec nodes
              .ok ((t, e) :: rest) : Except CompileError (List (Terminal × Expr F))).map
              (codeSignals · slot) := by
        intro t
        rw [hone]
        cases expandUnaryInput spec (expandNode spec (spec.nodes.length + 1) []) node.id with
        | error err => rfl
        | ok e =>
            simp only [Except.map, bind, Except.bind, ih]
            cases expandSignals spec nodes <;> rfl
      rw [emitSignals, expandSignals, GNode.terminal]
      match node.type with
      | some NodeType.buySignal => exact hsignal Terminal.buy
      | some NodeType.sellSignal => exact hsignal Terminal.sell
      | none => exact ih slot
      | some NodeType.dataSource => exact ih slot
      | some NodeType.ema => exact ih slot
      | some NodeType.momentum => exact ih slot
      | some NodeType.reversion => exact ih slot
      | some NodeType.condition => exact ih slot
      | some NodeType.andGate => exact ih slot
      | some NodeType.orGate => exact ih slot

/-! ## Accepted graphs -/

omit [F64 F] in
theorem mem_ids_of_byId {spec : GraphSpec F} {id : String} {node : GNode F}
    (h : spec.byId id = some node) : id ∈ spec.nodes.map GNode.id := by
  have hmem := List.mem_reverse.mp (List.mem_of_find?_eq_some h)
  have hid : node.id = id := by simpa using List.find?_some h
  exact hid ▸ List.mem_map_of_mem hmem

/-- **An accepted graph** has valid connections and expands into the trees of its signals, and the
program is their code. -/
theorem compile_eq {spec : GraphSpec F} {prog : List (Op F)} (h : compile spec = .ok prog) :
    validate spec spec.connections = .ok () ∧
      ∃ signals, expandSignals spec spec.nodes = .ok signals ∧
        prog = (codeSignals signals 0).1 := by
  rw [compile, emitSignals_eq] at h
  obtain ⟨_, hvalid, h⟩ := Fallible.bind_eq_ok h
  obtain ⟨c, hcode, h⟩ := Fallible.bind_eq_ok h
  obtain ⟨signals, hs, rfl⟩ := Fallible.map_eq_ok hcode
  exact ⟨hvalid, signals, hs, (Except.ok.inj h).symm⟩

end HotpathIpc
