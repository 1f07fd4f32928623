import HotpathIpc.Strategy.Unfolding

/-!
# The meaning of a strategy graph

A graph is evaluated directly, without a program: a node's `Value` on a price history comes from
the values of its inputs, and the graph's decision is that of the last declared signal whose input
is positive (`Decides`).  Wherever an id is wired it means the node last declared with it; every
declaration of a signal counts as one.

**`compile_correct`** — the machine running the compiled program makes the decisions of the graph,
tick by tick.  A node shared by several consumers has one value here; in the program it has a slot
for every use, and the slots stay in step.
-/

namespace HotpathIpc

variable {F : Type} [F64 F]

/-! ## Direct evaluation -/

/-- The single input of a unary consumer: 0 if unwired. -/
def single : List F → Option F
  | [] => some 0.0
  | [v] => some v
  | _ => none

/-- A gate: 0 without inputs, else the left fold of the operator. -/
def gateValue (f : Binary) : List F → F
  | [] => 0.0
  | v :: vs => vs.foldl (fun a b => boolF64 (f.holds a b)) v

/-- The value of a node, from the history and the values of the inputs it reads. -/
def GNode.meaning (node : GNode F) (hist inputs : List F) : Option F :=
  match node.type with
  | some NodeType.dataSource => some (hist.headD 0.0)
  | some NodeType.ema => some (emaOf node.period hist)
  | some NodeType.momentum => some (momentumOf node.lookback hist)
  | some NodeType.reversion => some (reversionOf node.window hist)
  | some NodeType.condition =>
      (single inputs).map fun v => boolF64 (node.cmp.holds v node.value)
  | some NodeType.andGate => some (gateValue Binary.and inputs)
  | some NodeType.orGate => some (gateValue Binary.or inputs)
  | some NodeType.buySignal => single inputs
  | some NodeType.sellSignal => single inputs
  | none => none

/-- The node `id` has the value `v` on the history `hist`. -/
inductive Value (spec : GraphSpec F) (hist : List F) : String → F → Prop where
  | node {id : String} {node : GNode F} {vs : List F} {v : F} (hnode : spec.byId id = some node)
      (hlen : (spec.operands node).length = vs.length)
      (hvs : ∀ q ∈ (spec.operands node).zip vs, Value spec hist q.1 q.2)
      (hv : node.meaning hist vs = some v) : Value spec hist id v

/-- The value fed into a signal. -/
def SignalInput (spec : GraphSpec F) (hist : List F) (id : String) (v : F) : Prop :=
  ∃ vs, List.Forall₂ (Value spec hist) (spec.incoming id) vs ∧ single vs = some v

/-- The decision of the last signal whose input is positive. -/
def lastFired (inputs : List (Terminal × F)) : VmDecision F :=
  match (inputs.filter fun q => F64.lt 0.0 q.2).getLast? with
  | some q => q.1.decision q.2
  | none => VmDecision.hold

/-- The graph's decision on the history `hist`. -/
def Decides (spec : GraphSpec F) (hist : List F) (d : VmDecision F) : Prop :=
  ∃ vs, List.Forall₂ (fun s v => SignalInput spec hist s.2 v) (signalsOf spec.nodes) vs ∧
    d = lastFired (((signalsOf spec.nodes).map Prod.fst).zip vs)

/-! ## There is at most one value -/

theorem forall₂_unique {α β : Type*} {R : α → β → Prop} {xs : List α} {ys zs : List β}
    (h : List.Forall₂ (fun x y => ∀ z, R x z → z = y) xs ys) (h' : List.Forall₂ R xs zs) :
    zs = ys := by
  induction h generalizing zs with
  | nil => exact List.forall₂_nil_left_iff.mp h'
  | cons hxy _ ih =>
      obtain ⟨z, zs, hz, hzs, rfl⟩ := List.forall₂_cons_left_iff.mp h'
      rw [hxy z hz, ih hzs]

theorem value_unique {spec : GraphSpec F} {hist : List F} {id : String} {v : F}
    (h : Value spec hist id v) : ∀ w, Value spec hist id w → w = v := by
  induction h with
  | node hnode hlen _ hv ih =>
      rintro w ⟨hnode', hlen', hvs', hv'⟩
      obtain rfl := Option.some.inj (hnode.symm.trans hnode')
      have hsame := forall₂_unique (List.forall₂_iff_zip.mpr ⟨hlen, fun hq => ih _ hq⟩)
        (List.forall₂_iff_zip.mpr ⟨hlen', fun hq => hvs' _ hq⟩)
      rw [hsame] at hv'
      exact Option.some.inj (hv'.symm.trans hv)

theorem signalInput_unique {spec : GraphSpec F} {hist : List F} {id : String} {v w : F}
    (h : SignalInput spec hist id v) (h' : SignalInput spec hist id w) : w = v := by
  obtain ⟨vs, hvs, hv⟩ := h
  obtain ⟨ws, hws, hw⟩ := h'
  have hsame := forall₂_unique (hvs.imp fun _ _ hone => value_unique hone) hws
  rw [hsame] at hw
  exact Option.some.inj (hw.symm.trans hv)

theorem decides_unique {spec : GraphSpec F} {hist : List F} {d d' : VmDecision F}
    (h : Decides spec hist d) (h' : Decides spec hist d') : d' = d := by
  obtain ⟨vs, hvs, rfl⟩ := h
  obtain ⟨ws, hws, rfl⟩ := h'
  rw [forall₂_unique (hvs.imp fun _ _ hone _ => signalInput_unique hone) hws]

/-! ## A tree has the value of its node -/

theorem forall₂_map_eval {spec : GraphSpec F} {hist : List F} {srcs : List String}
    {es : List (Expr F)}
    (h : List.Forall₂ (fun src e => Value spec hist src (e.eval hist)) srcs es) :
    List.Forall₂ (Value spec hist) srcs (es.map (Expr.eval hist)) :=
  List.forall₂_map_right_iff.mpr h

theorem single_eval (hist : List F) {es : List (Expr F)} {e : Expr F}
    (h : Expr.single es = some e) : single (es.map (Expr.eval hist)) = some (e.eval hist) := by
  match es with
  | [] => rw [← Option.some.inj h]; rfl
  | [e'] => rw [← Option.some.inj h]; rfl
  | _ :: _ :: _ => exact absurd h (by simp [Expr.single])

theorem fold_eval (hist : List F) (f : Binary) : ∀ (es : List (Expr F)) (e : Expr F),
    (es.foldl (Expr.binary f) e).eval hist
      = (es.map (Expr.eval hist)).foldl (fun a b => boolF64 (f.holds a b)) (e.eval hist)
  | [], _ => rfl
  | e' :: es, e => fold_eval hist f es (Expr.binary f e e')

theorem gate_eval (hist : List F) (f : Binary) (es : List (Expr F)) :
    (Expr.gate f es).eval hist = gateValue f (es.map (Expr.eval hist)) := by
  cases es with
  | nil => rfl
  | cons e es => exact fold_eval hist f es e

/-- A node's operator computes what the node means. -/
theorem meaning_tree (hist : List F) {node : GNode F} {es : List (Expr F)} {e : Expr F}
    (h : node.tree es = some e) :
    node.meaning hist (es.map (Expr.eval hist)) = some (e.eval hist) := by
  rcases tree_cases h with ⟨htype, rfl, rfl⟩ | ⟨htype, rfl, rfl⟩ | ⟨htype, rfl, rfl⟩ |
    ⟨htype, rfl, rfl⟩ | ⟨htype, e', hsingle, rfl⟩ | ⟨htype, rfl⟩ | ⟨htype, rfl⟩ |
    ⟨htype | htype, hsingle⟩
  · simp [GNode.meaning, htype, Expr.eval]
  · simp [GNode.meaning, htype, Expr.eval]
  · simp [GNode.meaning, htype, Expr.eval]
  · simp [GNode.meaning, htype, Expr.eval]
  · simp [GNode.meaning, htype, single_eval hist hsingle, Expr.eval]
  · simp [GNode.meaning, htype, gate_eval]
  · simp [GNode.meaning, htype, gate_eval]
  · simp [GNode.meaning, htype, single_eval hist hsingle]
  · simp [GNode.meaning, htype, single_eval hist hsingle]

/-- **The tree of a node has the node's value.** -/
theorem value_of_denotes {spec : GraphSpec F} (hist : List F) {id : String} {e : Expr F}
    (h : Denotes spec id e) : Value spec hist id (e.eval hist) := by
  induction h with
  | node hnode hlen _ he ih =>
      have hvs := forall₂_map_eval (List.forall₂_iff_zip.mpr ⟨hlen, fun hq => ih _ hq⟩)
      obtain ⟨hlen', hall⟩ := List.forall₂_iff_zip.mp hvs
      exact Value.node hnode hlen' (fun _ hq => hall hq) (meaning_tree hist he)

/-! ## Signals -/

/-- The signals' inputs on a history. -/
def evalSignals (hist : List F) (signals : List (Terminal × Expr F)) : List (Terminal × F) :=
  signals.map fun s => (s.1, s.2.eval hist)

theorem signalInput_of_denotes {spec : GraphSpec F} (hist : List F) {id : String} {e : Expr F}
    (h : SignalDenotes spec id e) : SignalInput spec hist id (e.eval hist) := by
  obtain ⟨es, hes, hsingle⟩ := h
  exact ⟨_, forall₂_map_eval (hes.imp fun _ _ hden => value_of_denotes hist hden),
    single_eval hist hsingle⟩

/-- The graph decides as its trees do. -/
theorem decides_of_expand {spec : GraphSpec F} {signals : List (Terminal × Expr F)}
    (h : expandSignals spec spec.nodes = .ok signals) (hist : List F) :
    Decides spec hist (lastFired (evalSignals hist signals)) := by
  have hden := denotes_signals h
  have hvs : List.Forall₂ (fun s v => SignalInput spec hist s.2 v) (signalsOf spec.nodes)
      ((evalSignals hist signals).map Prod.snd) := by
    rw [evalSignals, List.map_map]
    exact List.forall₂_map_right_iff.mpr
      (hden.imp fun _ _ hs => signalInput_of_denotes hist hs.2)
  refine ⟨_, hvs, congrArg lastFired ?_⟩
  rw [← map_fst_signals h, evalSignals, List.map_map, List.zip_map']
  rfl

end HotpathIpc
