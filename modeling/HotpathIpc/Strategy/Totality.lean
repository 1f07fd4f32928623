import HotpathIpc.Strategy.Faithful
import Mathlib.Data.List.Perm.Subperm
import Mathlib.Logic.Relation

/-!
# What the compiler accepts

The compiler walks the graph backwards from its signals.  This file says that the walk ends, what
every error of it means, and so which graphs are accepted.

* `Path` — the ids on the way down to a node, each declared and none twice.  `lowerNode` is the
  source's recursion with a path and without a bound; it ends because a path has room for the
  declared ids only, and **`emitNode_eq_lowerNode`** makes it the compiler's.
* `GraphSpec.Met` — the nodes met backwards from the signals, through conditions, gates and signals.
* **`explains_of_error`** — every error names a fault of the graph that is really there.
* **`compile_exact`** — without a fault the graph is accepted, and with one it is not.
-/

namespace HotpathIpc

open Lists (exists_of_forall₂_left)
open Relation (ReflTransGen TransGen)

variable {F : Type} [F64 F]

/-! ## The recursion without a bound -/

/-- The ids on the way down to a node. -/
structure Path (spec : GraphSpec F) where
  ids : List String
  nodup : ids.Nodup
  declared : ids ⊆ spec.nodes.map GNode.id

namespace Path

variable {spec : GraphSpec F}

def start (spec : GraphSpec F) : Path spec := ⟨[], List.nodup_nil, List.nil_subset _⟩

/-- How many more ids can follow. -/
def room (path : Path spec) : ℕ := spec.nodes.length - path.ids.length

def push (path : Path spec) {id : String} {node : GNode F} (hon : id ∉ path.ids)
    (hnode : spec.byId id = some node) : Path spec where
  ids := id :: path.ids
  nodup := List.nodup_cons.mpr ⟨hon, path.nodup⟩
  declared := List.cons_subset.mpr ⟨mem_ids_of_byId hnode, path.declared⟩

omit [F64 F] in
theorem length_le (path : Path spec) : path.ids.length ≤ spec.nodes.length := by
  have hle := (List.subperm_of_subset path.nodup path.declared).length_le
  rwa [List.length_map] at hle

omit [F64 F] in
theorem room_push (path : Path spec) {id : String} {node : GNode F} (hon : id ∉ path.ids)
    (hnode : spec.byId id = some node) : (path.push hon hnode).room < path.room := by
  have hle := (path.push hon hnode).length_le
  have hlen : (path.push hon hnode).ids.length = path.ids.length + 1 := rfl
  unfold room
  omega

end Path

/-- `emit_node` as the source has it. -/
def lowerNode (spec : GraphSpec F) (path : Path spec) (id : String) (slot : ℕ) :
    Except CompileError (Code F) :=
  if hon : id ∈ path.ids then .error CompileError.cycle
  else match hnode : spec.byId id with
    | none => .error (CompileError.unknownNode id)
    | some node =>
        let emit := fun src slot => lowerNode spec (path.push hon hnode) src slot
        match node.type with
        | some NodeType.dataSource => .ok ([Op.pushPrice], slot)
        | some NodeType.ema => .ok ([Op.ema slot node.period], slot + 1)
        | some NodeType.momentum => .ok ([Op.momentum slot node.lookback], slot + 1)
        | some NodeType.reversion => .ok ([Op.reversion slot node.window], slot + 1)
        | some NodeType.condition => do
            let c ← emitUnaryInput spec emit id slot
            .ok (c.1 ++ [Op.pushConst node.value, node.comparison], c.2)
        | some NodeType.andGate => emitGate emit Op.and (spec.incoming id) slot
        | some NodeType.orGate => emitGate emit Op.or (spec.incoming id) slot
        | some NodeType.buySignal => emitUnaryInput spec emit id slot
        | some NodeType.sellSignal => emitUnaryInput spec emit id slot
        | none => .error (CompileError.unknownType node.ntype)
termination_by path.room
decreasing_by exact path.room_push hon hnode

/-- **The bound is never met**: with any bound that exceeds the room on the path, the compiler's
walk is the one without a bound. -/
theorem emitNode_eq_lowerNode (spec : GraphSpec F) : ∀ (bound : ℕ) (path : Path spec) (id : String)
    (slot : ℕ), spec.nodes.length < bound + path.ids.length →
      emitNode spec bound path.ids id slot = lowerNode spec path id slot
  | 0, path, _, _, hb => by
      have hle := path.length_le
      omega
  | bound + 1, path, id, slot, hb => by
      rw [emitNode, lowerNode]
      by_cases hon : id ∈ path.ids
      · rw [if_pos hon, dif_pos hon]
      · rw [if_neg hon, dif_neg hon]
        have hemit : ∀ {node : GNode F} (hnode : spec.byId id = some node),
            (fun src slot => lowerNode spec (path.push hon hnode) src slot)
              = emitNode spec bound (id :: path.ids) := by
          intro node hnode
          funext src slot
          refine (emitNode_eq_lowerNode spec bound (path.push hon hnode) src slot ?_).symm
          have hlen : (path.push hon hnode).ids.length = path.ids.length + 1 := rfl
          omega
        simp only [hemit]
        clear hemit
        cases spec.byId id <;> rfl

/-! ## The nodes that are met -/

/-- A condition, a gate or a signal: what it says depends on what is wired into it. -/
def GNode.combines (node : GNode F) : Bool :=
  match node.type with
  | some NodeType.condition => true
  | some NodeType.andGate => true
  | some NodeType.orGate => true
  | some NodeType.buySignal => true
  | some NodeType.sellSignal => true
  | _ => false

/-- A condition or a signal, which takes one input. -/
def GNode.unary (node : GNode F) : Bool :=
  match node.type with
  | some NodeType.condition => true
  | some NodeType.buySignal => true
  | some NodeType.sellSignal => true
  | _ => false

namespace GraphSpec

variable (spec : GraphSpec F)

/-- `src` is wired into the condition, gate or signal `id`. -/
def ReadBy (src id : String) : Prop :=
  ∃ node, spec.byId id = some node ∧ node.combines = true ∧ src ∈ spec.incoming id

/-- The nodes met backwards from the declared signals; sources and indicators are leaves. -/
def Met (id : String) : Prop :=
  ∃ node ∈ spec.nodes, node.terminal.isSome ∧ ReflTransGen spec.ReadBy id node.id

/-- Every connection is between declared nodes. -/
def Declared : Prop :=
  ∀ c ∈ spec.connections, (spec.byId c.1).isSome ∧ (spec.byId c.2).isSome

instance : Decidable spec.Declared :=
  inferInstanceAs (Decidable (∀ c ∈ spec.connections, (spec.byId c.1).isSome ∧
    (spec.byId c.2).isSome))

/-- The fault that an error speaks of. -/
def Explains : CompileError → Prop
  | CompileError.cycle => ∃ id, spec.Met id ∧ TransGen spec.ReadBy id id
  | CompileError.unknownNode _ => ¬ spec.Declared
  | CompileError.unknownType ntype =>
      ∃ id node, spec.Met id ∧ spec.byId id = some node ∧ node.type = none ∧ node.ntype = ntype
  | CompileError.tooManyInputs id ntype got =>
      ∃ node, spec.Met id ∧ spec.byId id = some node ∧ node.unary = true ∧ node.ntype = ntype ∧
        (spec.incoming id).length = got ∧ 1 < got

end GraphSpec

/-! ## What an error says -/

section Levels

variable {spec : GraphSpec F} {expand : String → Except CompileError (Expr F)} {err : CompileError}

theorem expandUnaryInput_error {id : String} (h : expandUnaryInput spec expand id = .error err) :
    (∃ src ∈ spec.incoming id, expand src = .error err) ∨
      (1 < (spec.incoming id).length ∧ err = CompileError.tooManyInputs id
        ((spec.byId id).elim "" GNode.ntype) (spec.incoming id).length) := by
  rw [expandUnaryInput] at h
  cases hin : spec.incoming id with
  | nil =>
      rw [hin] at h
      cases h
  | cons src srcs =>
      rw [hin] at h
      cases srcs with
      | nil => exact Or.inl ⟨src, List.mem_cons_self, h⟩
      | cons src' srcs => exact Or.inr ⟨by simp, (Except.error.inj h).symm⟩

omit [F64 F] in
theorem expandFold_error (f : Binary) : ∀ {srcs : List String} {e : Expr F},
    expandFold expand f srcs e = .error err → ∃ src ∈ srcs, expand src = .error err
  | [], _, h => nomatch h
  | src :: srcs, _, h => by
      rw [expandFold] at h
      rcases Fallible.bind_eq_error h with hsrc | ⟨e', -, h⟩
      · exact ⟨src, List.mem_cons_self, hsrc⟩
      · obtain ⟨src', hmem, herr⟩ := expandFold_error f h
        exact ⟨src', List.mem_cons_of_mem _ hmem, herr⟩

theorem expandGate_error (f : Binary) {srcs : List String}
    (h : expandGate expand f srcs = .error err) : ∃ src ∈ srcs, expand src = .error err := by
  cases srcs with
  | nil => cases h
  | cons src srcs =>
      rw [expandGate] at h
      rcases Fallible.bind_eq_error h with hsrc | ⟨e, -, h⟩
      · exact ⟨src, List.mem_cons_self, hsrc⟩
      · obtain ⟨src', hmem, herr⟩ := expandFold_error f h
        exact ⟨src', List.mem_cons_of_mem _ hmem, herr⟩

end Levels

/-- **Where an error comes from**: the node is on the path, is not known, is of no type, has too
many inputs, or one of the nodes it reads has the error. -/
theorem expandNode_error {spec : GraphSpec F} {bound : ℕ} {onStack : List String} {id : String}
    {err : CompileError} (h : expandNode spec (bound + 1) onStack id = .error err) :
    (id ∈ onStack ∧ err = CompileError.cycle) ∨
    (spec.byId id = none ∧ err = CompileError.unknownNode id) ∨
    id ∉ onStack ∧ ∃ node, spec.byId id = some node ∧
      ((node.type = none ∧ err = CompileError.unknownType node.ntype) ∨
      (node.unary = true ∧ 1 < (spec.incoming id).length ∧
        err = CompileError.tooManyInputs id node.ntype (spec.incoming id).length) ∨
      (node.combines = true ∧ ∃ src ∈ spec.incoming id,
        expandNode spec bound (id :: onStack) src = .error err)) := by
  rw [expandNode] at h
  by_cases hon : id ∈ onStack
  · rw [if_pos hon] at h
    exact Or.inl ⟨hon, (Except.error.inj h).symm⟩
  rw [if_neg hon] at h
  cases hnode : spec.byId id with
  | none =>
      rw [hnode] at h
      exact Or.inr (Or.inl ⟨rfl, (Except.error.inj h).symm⟩)
  | some node =>
      rw [hnode] at h
      refine Or.inr (Or.inr ⟨hon, node, rfl, ?_⟩)
      have hunary : node.unary = true → node.combines = true →
          expandUnaryInput spec (expandNode spec bound (id :: onStack)) id = .error err →
          (node.unary = true ∧ 1 < (spec.incoming id).length ∧
            err = CompileError.tooManyInputs id node.ntype (spec.incoming id).length) ∨
          (node.combines = true ∧ ∃ src ∈ spec.incoming id,
            expandNode spec bound (id :: onStack) src = .error err) := by
        intro hone hcombines hin
        rcases expandUnaryInput_error hin with hsrc | ⟨hmany, herr⟩
        · exact Or.inr ⟨hcombines, hsrc⟩
        · rw [hnode] at herr
          exact Or.inl ⟨hone, hmany, herr⟩
      cases htype : node.type with
      | none =>
          simp only [htype] at h
          exact Or.inl ⟨rfl, (Except.error.inj h).symm⟩
      | some type =>
          refine Or.inr ?_
          cases type with
          | dataSource | ema | momentum | reversion =>
              simp only [htype] at h
              cases h
          | condition =>
              simp only [htype] at h
              rcases Fallible.bind_eq_error h with hin | ⟨e, -, h⟩
              · exact hunary (by simp [GNode.unary, htype]) (by simp [GNode.combines, htype]) hin
              · cases h
          | andGate | orGate =>
              simp only [htype] at h
              exact Or.inr ⟨by simp [GNode.combines, htype], expandGate_error _ h⟩
          | buySignal | sellSignal =>
              simp only [htype] at h
              exact hunary (by simp [GNode.unary, htype]) (by simp [GNode.combines, htype]) h

/-! ## Every error is a fault -/

/-- The walk is at `id`, below the ids of the path, each of which reads what is under it. -/
structure Walk (spec : GraphSpec F) (bound : ℕ) (onStack : List String) (id : String) : Prop where
  nodup : onStack.Nodup
  declared : onStack ⊆ spec.nodes.map GNode.id
  room : spec.nodes.length < bound + onStack.length
  below : ∀ x ∈ onStack, TransGen spec.ReadBy id x
  met : spec.Met id
  known : spec.Declared → (spec.byId id).isSome

section Faults

variable {spec : GraphSpec F} {err : CompileError}

omit [F64 F] in
theorem Walk.step {bound : ℕ} {onStack : List String} {id src : String} {node : GNode F}
    (h : Walk spec (bound + 1) onStack id) (hon : id ∉ onStack) (hnode : spec.byId id = some node)
    (hcombines : node.combines = true) (hsrc : src ∈ spec.incoming id) :
    Walk spec bound (id :: onStack) src := by
  have hread : spec.ReadBy src id := ⟨node, hnode, hcombines, hsrc⟩
  refine ⟨List.nodup_cons.mpr ⟨hon, h.nodup⟩,
    List.cons_subset.mpr ⟨mem_ids_of_byId hnode, h.declared⟩, ?_, fun x hx => ?_, ?_, fun hall => ?_⟩
  · have hroom := h.room
    rw [List.length_cons]
    omega
  · rcases List.mem_cons.mp hx with rfl | hx
    · exact TransGen.single hread
    · exact TransGen.head hread (h.below x hx)
  · obtain ⟨signal, hmem, hterm, hpath⟩ := h.met
    exact ⟨signal, hmem, hterm, ReflTransGen.head hread hpath⟩
  · exact (hall _ (mem_incoming.mp hsrc)).1

theorem explains_of_expand : ∀ {bound : ℕ} {onStack : List String} {id : String},
    Walk spec bound onStack id → expandNode spec bound onStack id = .error err → spec.Explains err
  | 0, onStack, id, hw, _ => by
      -- a path of declared ids, none twice, does not reach the bound
      have hle := (List.subperm_of_subset hw.nodup hw.declared).length_le
      have hroom := hw.room
      rw [List.length_map] at hle
      omega
  | bound + 1, onStack, id, hw, h => by
      rcases expandNode_error h with ⟨hon, rfl⟩ | ⟨hnone, rfl⟩ | ⟨hon, node, hnode, hcases⟩
      · exact ⟨id, hw.met, hw.below id hon⟩
      · intro hall
        have hsome := hw.known hall
        rw [hnone] at hsome
        exact absurd hsome (by simp)
      · rcases hcases with ⟨htype, rfl⟩ | ⟨hone, hmany, rfl⟩ | ⟨hcombines, src, hsrc, herr⟩
        · exact ⟨id, node, hw.met, hnode, htype, rfl⟩
        · exact ⟨node, hw.met, hnode, hone, rfl, rfl, hmany⟩
        · exact explains_of_expand (hw.step hon hnode hcombines hsrc) herr

theorem expandSignals_error : ∀ {nodes : List (GNode F)}, expandSignals spec nodes = .error err →
    ∃ node ∈ nodes, node.terminal.isSome ∧
      expandUnaryInput spec (expandNode spec (spec.nodes.length + 1) []) node.id = .error err
  | [], h => nomatch h
  | node :: nodes, h => by
      rw [expandSignals] at h
      cases hterm : node.terminal with
      | none =>
          rw [hterm] at h
          obtain ⟨node', hmem, hrest⟩ := expandSignals_error h
          exact ⟨node', List.mem_cons_of_mem _ hmem, hrest⟩
      | some t =>
          simp only [hterm] at h
          rcases Fallible.bind_eq_error h with hin | ⟨e, -, h⟩
          · exact ⟨node, List.mem_cons_self, by rw [hterm]; rfl, hin⟩
          · rcases Fallible.bind_eq_error h with hrest | ⟨rest, -, h⟩
            · obtain ⟨node', hmem, hrest⟩ := expandSignals_error hrest
              exact ⟨node', List.mem_cons_of_mem _ hmem, hrest⟩
            · cases h

omit [F64 F] in
/-- Connections are accepted, or one of their ids is reported. -/
theorem validate_cases (spec : GraphSpec F) :
    ∀ cs : List (String × String), validate spec cs = .ok () ∨
      ∃ c ∈ cs, ∃ id, (c.1 = id ∨ c.2 = id) ∧ spec.byId id = none ∧
        validate spec cs = .error (CompileError.unknownNode id)
  | [] => Or.inl rfl
  | c :: cs => by
      rw [validate]
      split
      · rename_i h1
        exact Or.inr ⟨c, List.mem_cons_self, c.1, Or.inl rfl, Option.isNone_iff_eq_none.mp h1, rfl⟩
      · split
        · rename_i h2
          exact Or.inr ⟨c, List.mem_cons_self, c.2, Or.inr rfl, Option.isNone_iff_eq_none.mp h2, rfl⟩
        · rcases validate_cases spec cs with hok | ⟨c', hc', rest⟩
          · exact Or.inl hok
          · exact Or.inr ⟨c', List.mem_cons_of_mem _ hc', rest⟩

omit [F64 F] in
theorem combines_of_terminal {node : GNode F} (h : node.terminal.isSome) :
    node.combines = true ∧ node.unary = true := by
  unfold GNode.terminal at h
  split at h
  · simp [GNode.combines, GNode.unary, ‹node.type = _›]
  · simp [GNode.combines, GNode.unary, ‹node.type = _›]
  · exact absurd h (by decide)

omit [F64 F] in
theorem undeclared {c : String × String} {id : String} (hc : c ∈ spec.connections)
    (hid : c.1 = id ∨ c.2 = id) (hnone : spec.byId id = none) : ¬ spec.Declared := by
  intro hall
  obtain ⟨h1, h2⟩ := hall c hc
  rcases hid with rfl | rfl
  · rw [hnone] at h1
    exact absurd h1 (by simp)
  · rw [hnone] at h2
    exact absurd h2 (by simp)

theorem compile_error (h : compile spec = .error err) : (¬ spec.Declared ∧
    ∃ id, err = CompileError.unknownNode id) ∨
      (validate spec spec.connections = .ok () ∧ expandSignals spec spec.nodes = .error err) := by
  rw [compile, emitSignals_eq] at h
  rcases validate_cases spec spec.connections with hok | ⟨c, hc, id, hid, hnone, herr⟩
  · rw [hok] at h
    rcases Fallible.bind_eq_error h with h | ⟨_, -, h⟩
    · cases h
    rcases Fallible.bind_eq_error h with h | ⟨_, -, h⟩
    · exact Or.inr ⟨hok, Fallible.map_eq_error h⟩
    · cases h
  · rw [herr] at h
    exact Or.inl ⟨undeclared hc hid hnone, id, (Except.error.inj h).symm⟩

/-- **Every error names a fault that is there.** -/
theorem explains_of_error (hids : (spec.nodes.map GNode.id).Nodup)
    (h : compile spec = .error err) : spec.Explains err := by
  rcases compile_error h with ⟨hno, id, rfl⟩ | ⟨hvalid, herr⟩
  · exact hno
  · obtain ⟨node, hmem, hterm, hin⟩ := expandSignals_error herr
    have hnode := byId_of_mem hids hmem
    obtain ⟨hcombines, hone⟩ := combines_of_terminal hterm
    rcases expandUnaryInput_error hin with ⟨src, hsrc, herr⟩ | ⟨hmany, rfl⟩
    · refine explains_of_expand ⟨List.nodup_nil, List.nil_subset _, Nat.lt_succ_self _,
        fun x hx => absurd hx List.not_mem_nil, ?_, fun hall => ?_⟩ herr
      · exact ⟨node, hmem, hterm, ReflTransGen.single ⟨node, hnode, hcombines, hsrc⟩⟩
      · exact (hall _ (mem_incoming.mp hsrc)).1
    · refine ⟨node, ⟨node, hmem, hterm, ReflTransGen.refl⟩, hnode, hone, ?_, rfl, hmany⟩
      rw [hnode]
      rfl

end Faults

/-! ## Every fault is an error -/

section Accepted

variable {spec : GraphSpec F}

omit [F64 F] in
theorem takesPrice_of_combines {node : GNode F} (h : node.combines = true) :
    node.takesPrice = false := by
  unfold GNode.combines at h
  unfold GNode.takesPrice
  split at h <;> simp_all

omit [F64 F] in
theorem operands_of_combines {id : String} {node : GNode F} (hnode : spec.byId id = some node)
    (h : node.combines = true) : spec.operands node = spec.incoming id := by
  rw [operands_of_reads (takesPrice_of_combines h), byId_id hnode]

/-- A node that spells out a tree is of a type, and has one input if it takes one. -/
theorem sound_of_denotes {id : String} {node : GNode F} {e : Expr F} (h : Denotes spec id e)
    (hnode : spec.byId id = some node) :
    node.type.isSome ∧ (node.unary = true → (spec.incoming id).length ≤ 1) := by
  obtain ⟨node', es, hnode', hes, he⟩ := h.level
  obtain rfl := Option.some.inj (hnode.symm.trans hnode')
  have hlen := hes.length_eq
  have hone : ∀ {e' : Expr F}, node.combines = true → Expr.single es = some e' →
      (spec.incoming id).length ≤ 1 := by
    intro e' hcombines hsingle
    rw [← operands_of_combines hnode hcombines, hlen]
    match es with
    | [] => exact Nat.zero_le _
    | [_] => exact Nat.le_refl _
    | _ :: _ :: _ => exact absurd hsingle (by simp [Expr.single])
  rcases tree_cases he with ⟨htype, -⟩ | ⟨htype, -⟩ | ⟨htype, -⟩ | ⟨htype, -⟩ |
    ⟨htype, e', hsingle, -⟩ | ⟨htype, -⟩ | ⟨htype, -⟩ | ⟨htype | htype, hsingle⟩
  · exact ⟨by simp [htype], by simp [GNode.unary, htype]⟩
  · exact ⟨by simp [htype], by simp [GNode.unary, htype]⟩
  · exact ⟨by simp [htype], by simp [GNode.unary, htype]⟩
  · exact ⟨by simp [htype], by simp [GNode.unary, htype]⟩
  · exact ⟨by simp [htype], fun _ => hone (by simp [GNode.combines, htype]) hsingle⟩
  · exact ⟨by simp [htype], by simp [GNode.unary, htype]⟩
  · exact ⟨by simp [htype], by simp [GNode.unary, htype]⟩
  · exact ⟨by simp [htype], fun _ => hone (by simp [GNode.combines, htype]) hsingle⟩
  · exact ⟨by simp [htype], fun _ => hone (by simp [GNode.combines, htype]) hsingle⟩

/-- A tree is finite, so what its node reads, directly or not, is well founded. -/
theorem acc_of_denotes {id : String} {e : Expr F} (h : Denotes spec id e) :
    Acc spec.ReadBy id := by
  induction h with
  | @node id node es e hnode hlen _ _ ih =>
      refine Acc.intro id fun src hread => ?_
      obtain ⟨node', hnode', hcombines, hsrc⟩ := hread
      obtain rfl := Option.some.inj (hnode.symm.trans hnode')
      rw [← operands_of_combines hnode hcombines] at hsrc
      have hall : List.Forall₂ (fun src _ => Acc spec.ReadBy src) (spec.operands node) es :=
        List.forall₂_iff_zip.mpr ⟨hlen, fun hq => ih _ hq⟩
      obtain ⟨_, -, hacc⟩ := exists_of_forall₂_left hall hsrc
      exact hacc

omit [F64 F] in
/-- Nothing well founded is on a cycle. -/
theorem not_cycle_of_acc {id : String} (h : Acc spec.ReadBy id) :
    ¬ TransGen spec.ReadBy id id := by
  intro hcycle
  have hacc := h.transGen
  induction hacc with
  | intro x _ ih => exact ih x hcycle (h.inv_of_transGen hcycle) hcycle

/-- **Every node that is met spells out a tree**, if the graph is accepted. -/
theorem denotes_of_met (hids : (spec.nodes.map GNode.id).Nodup)
    {signals : List (Terminal × Expr F)} (hok : expandSignals spec spec.nodes = .ok signals)
    {id : String} (h : spec.Met id) : ∃ e, Denotes spec id e := by
  obtain ⟨node, hmem, hterm, hpath⟩ := h
  induction hpath using ReflTransGen.head_induction_on with
  | refl =>
      obtain ⟨t, ht⟩ := Option.isSome_iff_exists.mp hterm
      obtain ⟨e, ⟨es, hes, hsingle⟩, -⟩ := signal_mem hok hmem ht
      have hnode := byId_of_mem hids hmem
      refine ⟨e, denotes_of_level hnode ?_ ((tree_of_terminal ht es).trans hsingle)⟩
      rwa [operands_of_combines hnode (combines_of_terminal hterm).1]
  | head hread _ ih =>
      obtain ⟨node', hnode', hcombines, hsrc⟩ := hread
      obtain ⟨e, hden⟩ := ih
      obtain ⟨node'', es, hnode'', hes, -⟩ := hden.level
      obtain rfl := Option.some.inj (hnode'.symm.trans hnode'')
      rw [operands_of_combines hnode' hcombines] at hes
      obtain ⟨e', -, hden'⟩ := exists_of_forall₂_left hes hsrc
      exact ⟨e', hden'⟩

omit [F64 F] in
/-- Connections are accepted exactly when they are between declared nodes. -/
theorem validate_iff : validate spec spec.connections = .ok () ↔ spec.Declared := by
  refine ⟨fun hok => validate_ok hok, fun hall => ?_⟩
  rcases validate_cases spec spec.connections with hok | ⟨c, hc, id, hid, hnone, -⟩
  · exact hok
  · exact absurd hall (undeclared hc hid hnone)

/-- From a declared node the walk meets declared nodes only. -/
theorem expand_known (hall : spec.Declared) {x : String} : ∀ {bound : ℕ} {onStack : List String}
    {id : String}, (spec.byId id).isSome →
      expandNode spec bound onStack id ≠ .error (CompileError.unknownNode x)
  | 0, _, _, _ => by simp [expandNode]
  | bound + 1, onStack, id, hsome => by
      intro h
      rcases expandNode_error h with ⟨-, herr⟩ | ⟨hnone, -⟩ | ⟨-, node, -, hcases⟩
      · cases herr
      · rw [hnone] at hsome
        exact absurd hsome (by simp)
      · rcases hcases with ⟨-, herr⟩ | ⟨-, -, herr⟩ | ⟨-, src, hsrc, herr⟩
        · cases herr
        · cases herr
        · exact expand_known hall (hall _ (mem_incoming.mp hsrc)).1 herr

/-- Undeclared ids are the only ones reported as unknown, and always are. -/
theorem unknownNode_iff :
    (∃ id, compile spec = .error (CompileError.unknownNode id)) ↔ ¬ spec.Declared := by
  constructor
  · rintro ⟨id, h⟩ hall
    rcases compile_error h with ⟨hno, -⟩ | ⟨-, herr⟩
    · exact hno hall
    · obtain ⟨node, -, -, hin⟩ := expandSignals_error herr
      rcases expandUnaryInput_error hin with ⟨src, hsrc, herr⟩ | ⟨-, herr⟩
      · exact expand_known hall (hall _ (mem_incoming.mp hsrc)).1 herr
      · cases herr
  · intro hno
    rcases validate_cases spec spec.connections with hok | ⟨-, -, id, -, -, herr⟩
    · exact absurd (validate_iff.mp hok) hno
    · refine ⟨id, ?_⟩
      rw [compile, herr]
      rfl

end Accepted

/-! ## The compiler is exact -/

/-- **Compilation is total and exact.**  The recursion ends without a bound, and the compiler's
result is that recursion's.  An unknown node is reported exactly when a connection names an
undeclared id.  If none does, and the ids are distinct, a graph is accepted exactly when no met
condition or signal has more than one input, no met node is of an unknown type, and no met node is
on a cycle; and a cycle is reported only if there is one. -/
theorem compile_exact (spec : GraphSpec F) :
    (∀ id slot, emitNode spec (spec.nodes.length + 1) [] id slot
      = lowerNode spec (Path.start spec) id slot) ∧
    ((∃ id, compile spec = .error (CompileError.unknownNode id)) ↔ ¬ spec.Declared) ∧
    (spec.Declared → (spec.nodes.map GNode.id).Nodup →
      ((∃ prog, compile spec = .ok prog) ↔
        (∀ id node, spec.Met id → spec.byId id = some node →
          (node.unary = true → (spec.incoming id).length ≤ 1) ∧ node.type.isSome) ∧
        ¬ ∃ id, spec.Met id ∧ TransGen spec.ReadBy id id) ∧
      (compile spec = .error CompileError.cycle →
        ∃ id, spec.Met id ∧ TransGen spec.ReadBy id id)) := by
  refine ⟨fun id slot => ?_, unknownNode_iff, fun hall hids => ⟨⟨?_, ?_⟩, ?_⟩⟩
  · exact emitNode_eq_lowerNode spec _ (Path.start spec) id slot (Nat.lt_succ_self _)
  · rintro ⟨prog, hok⟩
    obtain ⟨-, signals, hsignals, -⟩ := compile_eq hok
    refine ⟨fun id node hmet hnode => ?_, ?_⟩
    · obtain ⟨e, hden⟩ := denotes_of_met hids hsignals hmet
      exact (sound_of_denotes hden hnode).symm
    · rintro ⟨id, hmet, hcycle⟩
      obtain ⟨e, hden⟩ := denotes_of_met hids hsignals hmet
      exact not_cycle_of_acc (acc_of_denotes hden) hcycle
  · rintro ⟨hnodes, hacyclic⟩
    cases hc : compile spec with
    | ok prog => exact ⟨prog, rfl⟩
    | error err =>
        have hfault := explains_of_error hids hc
        cases err with
        | cycle => exact absurd hfault hacyclic
        | unknownNode id => exact absurd hall hfault
        | unknownType ntype =>
            obtain ⟨id, node, hmet, hnode, htype, -⟩ := hfault
            have hsome := (hnodes id node hmet hnode).2
            rw [htype] at hsome
            exact absurd hsome (by simp)
        | tooManyInputs id ntype got =>
            obtain ⟨node, hmet, hnode, hone, -, rfl, hmany⟩ := hfault
            exact absurd ((hnodes id node hmet hnode).1 hone) (Nat.not_le.mpr hmany)
  · exact fun hc => explains_of_error hids hc

/-- Two conditions on one average, met along two ways, are no cycle. -/
theorem compile_exact_diamond : letI : F64 ℚ := F64.exact fun x => x
    ¬ ∃ id, keptGraph.Met id ∧ TransGen keptGraph.ReadBy id id := by
  let _ : F64 ℚ := F64.exact fun x => x
  have hdeclared : keptGraph.Declared := by decide +kernel
  have hids : (keptGraph.nodes.map GNode.id).Nodup := by decide +kernel
  exact (((compile_exact keptGraph).2.2 hdeclared hids).1.mp ⟨_, kept_compiles⟩).2

end HotpathIpc
