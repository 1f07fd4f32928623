import HotpathIpc.Strategy.Totality

/-!
# What the program depends on

Two graphs are compiled side by side.  If they have the same signals in the same order, and the same
nodes and the same wiring wherever the walk goes, the walks are the same and so are the programs,
slots and errors included.  The other nodes and connections have no part in it: they may be in any
order, be more or be fewer.

* `Agree` — two graphs with the same signals, that agree on some nodes and what is wired into them.
  For the nodes that lead to a signal it does not matter in which of the two (`Agree.symm`).
* **`expandNode_agree`** — the two walks, step by step; with one graph twice it says that the bound
  has no part in the result either (**`emitNode_bound`**).
* **`compile_agree`** — the programs are the same if the graphs agree on some nodes that hold the
  signals and what they read; **`compile_eq_of_leads`** takes those that lead to a signal.
-/

namespace HotpathIpc

open Std (ExtTreeMap)

variable {F : Type} [F64 F]

/-! ## Two graphs -/

/-- The buy and sell nodes, in declared order. -/
def GraphSpec.signalNodes (spec : GraphSpec F) : List (GNode F) :=
  spec.nodes.filter fun node => node.terminal.isSome

/-- The same signals in the same order, and the same nodes with the same inputs in the same order,
wherever `P` holds. -/
structure Agree (P : String → Prop) (spec spec' : GraphSpec F) : Prop where
  signals : spec.signalNodes = spec'.signalNodes
  node : ∀ id, P id → spec.byId id = spec'.byId id
  incoming : ∀ id, P id → spec.incoming id = spec'.incoming id

section Leads

variable {spec spec' : GraphSpec F}

omit [F64 F] in
/-- The nodes that lead to a signal are the fewest that hold the signals and what is wired into one
of them. -/
theorem leads_least {P : String → Prop}
    (hroot : ∀ node ∈ spec.nodes, node.terminal.isSome → P node.id)
    (hclosed : ∀ c ∈ spec.connections, P c.2 → P c.1) {id : String} (h : spec.Leads id) : P id := by
  induction h with
  | signal hnode hterm => exact hroot _ hnode hterm
  | wire hwire _ ih => exact hclosed _ hwire ih

omit [F64 F] in
theorem leads_of_agree (h : Agree spec.Leads spec spec') {id : String} (hid : spec.Leads id) :
    spec'.Leads id := by
  induction hid with
  | @signal node hnode hterm =>
      have hmem : node ∈ spec'.signalNodes := h.signals ▸ List.mem_filter.mpr ⟨hnode, hterm⟩
      exact GraphSpec.Leads.signal (List.mem_filter.mp hmem).1 hterm
  | @wire src id hwire hid ih =>
      have hsrc : src ∈ spec'.incoming id := h.incoming id hid ▸ mem_incoming.mpr hwire
      exact GraphSpec.Leads.wire (mem_incoming.mp hsrc) ih

omit [F64 F] in
/-- Where two graphs agree on what leads to a signal in the one, the same leads to it in the
other. -/
theorem leads_iff (h : Agree spec.Leads spec spec') {id : String} :
    spec.Leads id ↔ spec'.Leads id := by
  refine ⟨leads_of_agree h, fun hid => ?_⟩
  induction hid with
  | @signal node hnode hterm =>
      have hmem : node ∈ spec.signalNodes := h.signals ▸ List.mem_filter.mpr ⟨hnode, hterm⟩
      exact GraphSpec.Leads.signal (List.mem_filter.mp hmem).1 hterm
  | @wire src id hwire _ ih =>
      have hsrc : src ∈ spec.incoming id := h.incoming id ih ▸ mem_incoming.mpr hwire
      exact GraphSpec.Leads.wire (mem_incoming.mp hsrc) ih

omit [F64 F] in
theorem Agree.symm (h : Agree spec.Leads spec spec') : Agree spec'.Leads spec' spec where
  signals := h.signals.symm
  node id hid := (h.node id ((leads_iff h).mpr hid)).symm
  incoming id hid := (h.incoming id ((leads_iff h).mpr hid)).symm

end Leads

/-! ## Two walks -/

section Levels

variable {spec spec' : GraphSpec F} {expand expand' : String → Except CompileError (Expr F)}

theorem expandUnaryInput_agree {id : String} (hnode : spec.byId id = spec'.byId id)
    (hin : spec.incoming id = spec'.incoming id)
    (h : ∀ src ∈ spec.incoming id, expand src = expand' src) :
    expandUnaryInput spec expand id = expandUnaryInput spec' expand' id := by
  rw [expandUnaryInput, expandUnaryInput, ← hin, ← hnode]
  cases hsrcs : spec.incoming id with
  | nil => rfl
  | cons src srcs =>
      cases srcs with
      | nil => exact h src (hsrcs ▸ List.mem_cons_self)
      | cons src' srcs => rfl

omit [F64 F] in
theorem expandFold_agree (f : Binary) : ∀ {srcs : List String} {e : Expr F},
    (∀ src ∈ srcs, expand src = expand' src) →
      expandFold expand f srcs e = expandFold expand' f srcs e
  | [], _, _ => rfl
  | src :: srcs, e, h => by
      rw [expandFold, expandFold, h src List.mem_cons_self]
      refine congrArg _ (funext fun e' => ?_)
      exact expandFold_agree f fun src' hsrc' => h src' (List.mem_cons_of_mem _ hsrc')

theorem expandGate_agree (f : Binary) {srcs : List String}
    (h : ∀ src ∈ srcs, expand src = expand' src) :
    expandGate expand f srcs = expandGate expand' f srcs := by
  cases srcs with
  | nil => rfl
  | cons src srcs =>
      rw [expandGate, expandGate, h src List.mem_cons_self]
      refine congrArg _ (funext fun e => ?_)
      exact expandFold_agree f fun src' hsrc' => h src' (List.mem_cons_of_mem _ hsrc')

end Levels

section Walks

variable {P : String → Prop} {spec spec' : GraphSpec F}

/-- **The two walks are the same** below a node on which the graphs agree, whatever the bounds, as
long as neither is met. -/
theorem expandNode_agree (hagree : Agree P spec spec')
    (hclosed : ∀ {src id}, spec.ReadBy src id → P id → P src) :
    ∀ (bound bound' : ℕ) (path : Path spec) (path' : Path spec') (id : String),
      path.ids = path'.ids → spec.nodes.length < bound + path.ids.length →
        spec'.nodes.length < bound' + path'.ids.length → P id →
          expandNode spec bound path.ids id = expandNode spec' bound' path'.ids id
  | 0, _, path, _, _, _, hb, _, _ => by
      have hle := path.length_le
      omega
  | _ + 1, 0, _, path', _, _, _, hb', _ => by
      have hle := path'.length_le
      omega
  | bound + 1, bound' + 1, path, path', id, hids, hb, hb', hP => by
      have hin := hagree.incoming id hP
      rw [expandNode, expandNode, ← hids, ← hagree.node id hP]
      by_cases hon : id ∈ path.ids
      · rw [if_pos hon, if_pos hon]
      rw [if_neg hon, if_neg hon]
      cases hnode : spec.byId id with
      | none => rfl
      | some node =>
          have hnode' : spec'.byId id = some node := (hagree.node id hP).symm.trans hnode
          -- both paths take the node on, and what it reads is in `P` again
          have hrec : node.combines = true → ∀ src ∈ spec.incoming id,
              expandNode spec bound (id :: path.ids) src
                = expandNode spec' bound' (id :: path.ids) src := by
            intro hcombines src hsrc
            have hlen : (path.push hon hnode).ids.length = path.ids.length + 1 := rfl
            have hlen' : (path'.push (hids ▸ hon) hnode').ids.length = path'.ids.length + 1 := rfl
            have hpush : (path.push hon hnode).ids = (path'.push (hids ▸ hon) hnode').ids :=
              congrArg (id :: ·) hids
            have ih := expandNode_agree hagree hclosed bound bound' (path.push hon hnode)
              (path'.push (hids ▸ hon) hnode') src hpush (by omega) (by omega)
              (hclosed ⟨node, hnode, hcombines, hsrc⟩ hP)
            rwa [← hpush] at ih
          have hunary := fun hcombines =>
            expandUnaryInput_agree (hagree.node id hP) hin (hrec hcombines)
          dsimp only
          cases htype : node.type with
          | none => rfl
          | some type =>
              cases type with
              | dataSource | ema | momentum | reversion => rfl
              | condition =>
                  dsimp only
                  rw [hunary (by simp [GNode.combines, htype])]
              | andGate | orGate =>
                  dsimp only
                  rw [← hin]
                  exact expandGate_agree _ (hrec (by simp [GNode.combines, htype]))
              | buySignal | sellSignal => exact hunary (by simp [GNode.combines, htype])

/-- Nodes that are no signals emit nothing. -/
theorem expandSignals_filter : ∀ nodes : List (GNode F), expandSignals spec nodes
    = expandSignals spec (nodes.filter fun node => node.terminal.isSome)
  | [] => rfl
  | node :: nodes => by
      have ih := expandSignals_filter nodes
      cases hterm : node.terminal with
      | none => rw [expandSignals, List.filter_cons_of_neg (by simp [hterm]), hterm, ih]
      | some t =>
          rw [List.filter_cons_of_pos (by simp [hterm]), expandSignals, expandSignals, hterm, ih]

/-- The same signals, expanded in one graph and in the other. -/
theorem expandSignals_agree (hagree : Agree P spec spec')
    (hclosed : ∀ {src id}, spec.ReadBy src id → P id → P src) :
    ∀ {nodes : List (GNode F)}, (∀ node ∈ nodes, P node.id ∧
        ∀ src ∈ spec.incoming node.id, P src) →
      expandSignals spec nodes = expandSignals spec' nodes
  | [], _ => rfl
  | node :: nodes, h => by
      obtain ⟨hP, hsrcs⟩ := h node List.mem_cons_self
      have ih := expandSignals_agree hagree hclosed fun node' hnode' =>
        h node' (List.mem_cons_of_mem _ hnode')
      have hone := expandUnaryInput_agree (hagree.node node.id hP) (hagree.incoming node.id hP)
        fun src hsrc => expandNode_agree hagree hclosed _ _ (Path.start spec) (Path.start spec') src
          rfl (Nat.lt_succ_self _) (Nat.lt_succ_self _) (hsrcs src hsrc)
      rw [expandSignals, expandSignals, ih]
      cases node.terminal with
      | none => rfl
      | some t => exact congrArg (· >>= _) hone

end Walks

/-- **The bound has no part in the result.** -/
theorem emitNode_bound (spec : GraphSpec F) {bound : ℕ} (h : spec.nodes.length < bound)
    (id : String) (slot : ℕ) :
    emitNode spec bound [] id slot = emitNode spec (spec.nodes.length + 1) [] id slot := by
  have hself : Agree (fun _ => True) spec spec := ⟨rfl, fun _ _ => rfl, fun _ _ => rfl⟩
  have hexpand : expandNode spec bound [] id = expandNode spec (spec.nodes.length + 1) [] id :=
    expandNode_agree hself (fun _ _ => trivial) _ _ (Path.start spec) (Path.start spec) id rfl h
      (Nat.lt_succ_self _) trivial
  rw [emitNode_eq, emitNode_eq, hexpand]

/-! ## Two programs -/

section Programs

variable {spec spec' : GraphSpec F}

/-- **The programs are the same** if the graphs agree on nodes that hold the signals and what is
read on the way to them. -/
theorem compile_agree {P : String → Prop} (hagree : Agree P spec spec')
    (hroot : ∀ node ∈ spec.nodes, node.terminal.isSome →
      P node.id ∧ ∀ src ∈ spec.incoming node.id, P src)
    (hclosed : ∀ {src id}, spec.ReadBy src id → P id → P src) (hall : spec.Declared)
    (hall' : spec'.Declared) : compile spec = compile spec' := by
  have hsignals : expandSignals spec spec.nodes = expandSignals spec' spec'.nodes :=
    calc expandSignals spec spec.nodes
        = expandSignals spec spec.signalNodes := expandSignals_filter _
      _ = expandSignals spec' spec.signalNodes :=
          expandSignals_agree hagree hclosed fun node hnode => by
            obtain ⟨hmem, hterm⟩ := List.mem_filter.mp hnode
            exact hroot node hmem hterm
      _ = expandSignals spec' spec'.signalNodes := congrArg _ hagree.signals
      _ = expandSignals spec' spec'.nodes := (expandSignals_filter _).symm
  rw [compile, compile, validate_iff.mpr hall, validate_iff.mpr hall', emitSignals_eq,
    emitSignals_eq, hsignals]

/-- **Only the wiring that leads to a signal counts.**  Two graphs whose connections are between
declared nodes, with the same signals in the same order, and with the same nodes and inputs on the
way to a signal, compile to the same program, slots included, or fail with the same error.  Their
ids need not be distinct. -/
theorem compile_eq_of_leads (hagree : Agree spec.Leads spec spec') (hall : spec.Declared)
    (hall' : spec'.Declared) : compile spec = compile spec' := by
  refine compile_agree hagree (fun node hmem hterm => ?_) (fun hread hid => ?_) hall hall'
  · have hleads := GraphSpec.Leads.signal hmem hterm
    exact ⟨hleads, fun src hsrc => GraphSpec.Leads.wire (mem_incoming.mp hsrc) hleads⟩
  · obtain ⟨_, -, -, hsrc⟩ := hread
    exact GraphSpec.Leads.wire (mem_incoming.mp hsrc) hid

end Programs

/-- `keptGraph` in another order, with an average and a gate besides that lead to no signal. -/
def paddedGraph : GraphSpec ℚ where
  nodes :=
    [⟨"out", "or_gate", ∅, ∅⟩, ⟨"x", "ema", ExtTreeMap.ofList [("period", (7 : ℚ))], ∅⟩,
      ⟨"low", "condition", ExtTreeMap.ofList [("value", (50 : ℚ))],
        ExtTreeMap.ofList [("op", "less_than")]⟩,
      ⟨"b", "buy_signal", ∅, ∅⟩, ⟨"y", "and_gate", ∅, ∅⟩, ⟨"d", "data_source", ∅, ∅⟩,
      ⟨"high", "condition", ExtTreeMap.ofList [("value", (100 : ℚ))], ∅⟩,
      ⟨"e", "ema", ExtTreeMap.ofList [("period", (3 : ℚ))], ∅⟩]
  connections := [("y", "y"), ("out", "b"), ("high", "out"), ("x", "y"), ("low", "out"),
    ("e", "low"), ("e", "y"), ("e", "high"), ("d", "e")]

/-- The other nodes do not lead to a signal. -/
theorem compile_eq_of_leads_padded : letI : F64 ℚ := F64.exact fun x => x
    compile keptGraph = compile paddedGraph := by
  let _ : F64 ℚ := F64.exact fun x => x
  have hids : ∀ id, keptGraph.Leads id → id ∈ ["d", "e", "high", "low", "out", "b"] :=
    fun id hid => leads_least (by decide +kernel) (by decide +kernel) hid
  have hnode : ∀ id ∈ ["d", "e", "high", "low", "out", "b"],
      keptGraph.byId id = paddedGraph.byId id := by
    simp only [List.forall_mem_cons]
    exact ⟨rfl, rfl, rfl, rfl, rfl, rfl, List.forall_mem_nil _⟩
  have hin : ∀ id ∈ ["d", "e", "high", "low", "out", "b"],
      keptGraph.incoming id = paddedGraph.incoming id := by decide +kernel
  exact compile_eq_of_leads ⟨rfl, fun id hid => hnode id (hids id hid),
    fun id hid => hin id (hids id hid)⟩ (by decide +kernel) (by decide +kernel)

end HotpathIpc
