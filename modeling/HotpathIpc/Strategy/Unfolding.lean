import HotpathIpc.Strategy.Lowering
import HotpathIpc.Library.Lists

/-!
# What a graph unfolds into

The tree that a node spells out (`Denotes`), said of the graph and not of the compiler: a node's
operator over the trees of the inputs it reads.  Sources and indicators read none.

* **`expandNode_ok`**, **`expandSignals_ok`** — all that an accepted expansion says, one level at a
  time; what follows about nodes is proved from these and not by walking the compiler again.
* `Visits` — the nodes met backwards from the signals through nodes that read their inputs;
  **`visited_contained`** — their trees are all in the program.
-/

namespace HotpathIpc

open Lists (map_eq_of_forall₂ exists_of_forall₂_left)

variable {F : Type} [F64 F]

/-! ## The tree of a node -/

/-- The inputs a node reads: sources and indicators take the price only. -/
def GraphSpec.operands (spec : GraphSpec F) (node : GNode F) : List String :=
  match node.type with
  | some NodeType.dataSource => []
  | some NodeType.ema => []
  | some NodeType.momentum => []
  | some NodeType.reversion => []
  | _ => spec.incoming node.id

/-- Sources and indicators take the price and no operand. -/
def GNode.takesPrice (node : GNode F) : Bool :=
  match node.type with
  | some NodeType.dataSource => true
  | some NodeType.ema => true
  | some NodeType.momentum => true
  | some NodeType.reversion => true
  | _ => false

namespace Expr

/-- The single operand of a unary consumer: 0 if there is none. -/
def single : List (Expr F) → Option (Expr F)
  | [] => some (const 0.0)
  | [e] => some e
  | _ => none

/-- A gate: 0 without operands, else they are folded from the left. -/
def gate (f : Binary) : List (Expr F) → Expr F
  | [] => const 0.0
  | e :: es => es.foldl (binary f) e

end Expr

/-- A node's operator, with its parameters, over its operands; `none` where it cannot take these. -/
def GNode.tree (node : GNode F) (es : List (Expr F)) : Option (Expr F) :=
  match node.type, es with
  | some NodeType.dataSource, [] => some Expr.price
  | some NodeType.ema, [] => some (Expr.ema node.period)
  | some NodeType.momentum, [] => some (Expr.momentum node.lookback)
  | some NodeType.reversion, [] => some (Expr.reversion node.window)
  | some NodeType.condition, es =>
      (Expr.single es).map fun e => Expr.binary node.cmp e (Expr.const node.value)
  | some NodeType.andGate, es => some (Expr.gate Binary.and es)
  | some NodeType.orGate, es => some (Expr.gate Binary.or es)
  | some NodeType.buySignal, es => Expr.single es
  | some NodeType.sellSignal, es => Expr.single es
  | _, _ => none

/-- All that a node can make of its operands. -/
theorem tree_cases {node : GNode F} {es : List (Expr F)} {e : Expr F} (h : node.tree es = some e) :
    (node.type = some NodeType.dataSource ∧ es = [] ∧ e = Expr.price) ∨
    (node.type = some NodeType.ema ∧ es = [] ∧ e = Expr.ema node.period) ∨
    (node.type = some NodeType.momentum ∧ es = [] ∧ e = Expr.momentum node.lookback) ∨
    (node.type = some NodeType.reversion ∧ es = [] ∧ e = Expr.reversion node.window) ∨
    (node.type = some NodeType.condition ∧ ∃ e', Expr.single es = some e' ∧
      e = Expr.binary node.cmp e' (Expr.const node.value)) ∨
    (node.type = some NodeType.andGate ∧ e = Expr.gate Binary.and es) ∨
    (node.type = some NodeType.orGate ∧ e = Expr.gate Binary.or es) ∨
    ((node.type = some NodeType.buySignal ∨ node.type = some NodeType.sellSignal) ∧
      Expr.single es = some e) := by
  unfold GNode.tree at h
  split at h <;> simp_all [eq_comm]

omit [F64 F] in
theorem operands_of_reads {spec : GraphSpec F} {node : GNode F} (h : node.takesPrice = false) :
    spec.operands node = spec.incoming node.id := by
  unfold GNode.takesPrice at h
  unfold GraphSpec.operands
  split at h <;> simp_all

/-- So its tree has none. -/
theorem tree_of_takesPrice {node : GNode F} {es : List (Expr F)} {e : Expr F}
    (h : node.takesPrice = true) (he : node.tree es = some e) : es = [] := by
  unfold GNode.takesPrice at h
  rcases tree_cases he with ⟨-, hes, -⟩ | ⟨-, hes, -⟩ | ⟨-, hes, -⟩ | ⟨-, hes, -⟩ |
    ⟨htype, -⟩ | ⟨htype, -⟩ | ⟨htype, -⟩ | ⟨htype | htype, -⟩
  · exact hes
  · exact hes
  · exact hes
  · exact hes
  all_goals simp [htype] at h

/-- What holds of constants, of a node's own leaf and of every operator over trees it holds of, holds
of the node's tree if it holds of the operands. -/
theorem holds_tree {P : Expr F → Prop} (hconst : ∀ c, P (Expr.const c))
    (hbinary : ∀ f e₁ e₂, P e₁ → P e₂ → P (Expr.binary f e₁ e₂)) {node : GNode F}
    {es : List (Expr F)} {e : Expr F} (he : node.tree es = some e)
    (hleaf : node.takesPrice = true → P e) (hes : ∀ t ∈ es, P t) : P e := by
  have hsingle : ∀ {e' : Expr F}, Expr.single es = some e' → P e' := by
    intro e' h
    match es with
    | [] => exact Option.some.inj h ▸ hconst 0.0
    | [t] => exact Option.some.inj h ▸ hes t List.mem_cons_self
    | _ :: _ :: _ => exact absurd h (by simp [Expr.single])
  have hfold : ∀ (f : Binary) (ts : List (Expr F)) (t : Expr F), P t → (∀ t' ∈ ts, P t') →
      P (ts.foldl (Expr.binary f) t) := by
    intro f ts
    induction ts with
    | nil => exact fun _ ht _ => ht
    | cons t' ts ih =>
        intro t ht hts
        exact ih _ (hbinary f t t' ht (hts t' List.mem_cons_self))
          fun u hu => hts u (List.mem_cons_of_mem _ hu)
  have hgate : ∀ f : Binary, P (Expr.gate f es) := by
    intro f
    match es with
    | [] => exact hconst 0.0
    | t :: ts =>
        exact hfold f ts t (hes t List.mem_cons_self) fun u hu => hes u (List.mem_cons_of_mem _ hu)
  rcases tree_cases he with ⟨htype, -⟩ | ⟨htype, -⟩ | ⟨htype, -⟩ | ⟨htype, -⟩ |
    ⟨-, e', h, rfl⟩ | ⟨-, rfl⟩ | ⟨-, rfl⟩ | ⟨-, h⟩
  · exact hleaf (by simp [GNode.takesPrice, htype])
  · exact hleaf (by simp [GNode.takesPrice, htype])
  · exact hleaf (by simp [GNode.takesPrice, htype])
  · exact hleaf (by simp [GNode.takesPrice, htype])
  · exact hbinary _ _ _ (hsingle h) (hconst _)
  · exact hgate Binary.and
  · exact hgate Binary.or
  · exact hsingle h

/-- The node `id` spells out the tree `e`. -/
inductive Denotes (spec : GraphSpec F) : String → Expr F → Prop where
  | node {id : String} {node : GNode F} {es : List (Expr F)} {e : Expr F}
      (hnode : spec.byId id = some node) (hlen : (spec.operands node).length = es.length)
      (hes : ∀ q ∈ (spec.operands node).zip es, Denotes spec q.1 q.2)
      (he : node.tree es = some e) : Denotes spec id e

omit [F64 F] in
theorem byId_id {spec : GraphSpec F} {id : String} {node : GNode F}
    (h : spec.byId id = some node) : node.id = id := by
  simpa using List.find?_some h

/-! ## One level of an accepted expansion -/

section Levels

variable {spec : GraphSpec F} {expand : String → Except CompileError (Expr F)}

theorem expandUnaryInput_ok {id : String} {e : Expr F}
    (hok : expandUnaryInput spec expand id = .ok e) : ∃ es,
      List.Forall₂ (fun src e => expand src = .ok e) (spec.incoming id) es ∧
        Expr.single es = some e := by
  rw [expandUnaryInput] at hok
  cases hin : spec.incoming id with
  | nil =>
      rw [hin] at hok
      exact ⟨[], List.Forall₂.nil, congrArg some (Except.ok.inj hok)⟩
  | cons src srcs =>
      rw [hin] at hok
      cases srcs with
      | nil => exact ⟨[e], List.Forall₂.cons hok List.Forall₂.nil, rfl⟩
      | cons src' srcs => cases hok

omit [F64 F] in
theorem expandFold_ok (f : Binary) : ∀ {srcs : List String} {e e' : Expr F},
    expandFold expand f srcs e = .ok e' → ∃ es,
      List.Forall₂ (fun src e => expand src = .ok e) srcs es ∧ e' = es.foldl (Expr.binary f) e
  | [], _, _, hok => ⟨[], List.Forall₂.nil, (Except.ok.inj hok).symm⟩
  | src :: srcs, e, e', hok => by
      rw [expandFold] at hok
      obtain ⟨e₂, hsrc, hok⟩ := Fallible.bind_eq_ok hok
      obtain ⟨es, hes, rfl⟩ := expandFold_ok f hok
      exact ⟨e₂ :: es, List.Forall₂.cons hsrc hes, rfl⟩

theorem expandGate_ok (f : Binary) {srcs : List String} {e : Expr F}
    (hok : expandGate expand f srcs = .ok e) : ∃ es,
      List.Forall₂ (fun src e => expand src = .ok e) srcs es ∧ e = Expr.gate f es := by
  cases srcs with
  | nil => exact ⟨[], List.Forall₂.nil, (Except.ok.inj hok).symm⟩
  | cons src srcs =>
      rw [expandGate] at hok
      obtain ⟨e₁, hsrc, hok⟩ := Fallible.bind_eq_ok hok
      obtain ⟨es, hes, rfl⟩ := expandFold_ok f hok
      exact ⟨e₁ :: es, List.Forall₂.cons hsrc hes, rfl⟩

end Levels

/-- **One level**: a node that is accepted is known, off the path, and its tree is its operator over
the trees of the inputs it reads. -/
theorem expandNode_ok {spec : GraphSpec F} {bound : ℕ} {onStack : List String} {id : String}
    {e : Expr F} (hok : expandNode spec (bound + 1) onStack id = .ok e) : ∃ node es,
      spec.byId id = some node ∧
        List.Forall₂ (fun src e => expandNode spec bound (id :: onStack) src = .ok e)
          (spec.operands node) es ∧
        node.tree es = some e := by
  rw [expandNode] at hok
  by_cases hon : id ∈ onStack
  · rw [if_pos hon] at hok
    cases hok
  rw [if_neg hon] at hok
  cases hnode : spec.byId id with
  | none =>
      rw [hnode] at hok
      cases hok
  | some node =>
      rw [hnode] at hok
      refine ⟨node, ?_⟩
      have hid := byId_id hnode
      -- one case per node type: the inputs it reads, and what it makes of them
      cases htype : node.type with
      | none =>
          simp only [htype] at hok
          cases hok
      | some type =>
          cases type with
          | dataSource | ema | momentum | reversion =>
              simp only [htype] at hok
              exact ⟨[], rfl, by simp [GraphSpec.operands, htype],
                by simp [GNode.tree, htype, Except.ok.inj hok]⟩
          | condition =>
              simp only [htype] at hok
              obtain ⟨e₁, hin, hok⟩ := Fallible.bind_eq_ok hok
              obtain ⟨es, hes, hsingle⟩ := expandUnaryInput_ok hin
              exact ⟨es, rfl, by simpa [GraphSpec.operands, htype, hid] using hes,
                by simp [GNode.tree, htype, hsingle, Except.ok.inj hok]⟩
          | andGate | orGate =>
              simp only [htype] at hok
              obtain ⟨es, hes, rfl⟩ := expandGate_ok _ hok
              exact ⟨es, rfl, by simpa [GraphSpec.operands, htype, hid] using hes,
                by simp [GNode.tree, htype]⟩
          | buySignal | sellSignal =>
              simp only [htype] at hok
              obtain ⟨es, hes, hsingle⟩ := expandUnaryInput_ok hok
              exact ⟨es, rfl, by simpa [GraphSpec.operands, htype, hid] using hes,
                by simp [GNode.tree, htype, hsingle]⟩

theorem denotes_of_level {spec : GraphSpec F} {id : String} {node : GNode F} {es : List (Expr F)}
    {e : Expr F} (hnode : spec.byId id = some node)
    (hes : List.Forall₂ (Denotes spec) (spec.operands node) es) (he : node.tree es = some e) :
    Denotes spec id e := by
  obtain ⟨hlen, hall⟩ := List.forall₂_iff_zip.mp hes
  exact Denotes.node hnode hlen (fun _ hq => hall hq) he

/-- The other way round, with the operands as a list. -/
theorem Denotes.level {spec : GraphSpec F} {id : String} {e : Expr F} (h : Denotes spec id e) :
    ∃ node es, spec.byId id = some node ∧
      List.Forall₂ (Denotes spec) (spec.operands node) es ∧ node.tree es = some e := by
  obtain ⟨hnode, hlen, hes, he⟩ := h
  exact ⟨_, _, hnode, List.forall₂_iff_zip.mpr ⟨hlen, fun hq => hes _ hq⟩, he⟩

/-- **What the compiler expands a node into is what the node spells out.** -/
theorem denotes_of_expand {spec : GraphSpec F} : ∀ {bound : ℕ} {onStack : List String}
    {id : String} {e : Expr F}, expandNode spec bound onStack id = .ok e → Denotes spec id e
  | 0, _, _, _, hok => nomatch hok
  | _ + 1, _, _, _, hok => by
      obtain ⟨node, es, hnode, hes, he⟩ := expandNode_ok hok
      exact denotes_of_level hnode (hes.imp fun _ _ hsrc => denotes_of_expand hsrc) he

/-! ## Signals -/

/-- The signal nodes, declaration by declaration. -/
def signalsOf (nodes : List (GNode F)) : List (Terminal × String) :=
  nodes.filterMap fun node => node.terminal.map fun t => (t, node.id)

/-- The tree fed into a signal. -/
def SignalDenotes (spec : GraphSpec F) (id : String) (e : Expr F) : Prop :=
  ∃ es, List.Forall₂ (Denotes spec) (spec.incoming id) es ∧ Expr.single es = some e

/-- The expanded signals are the declared ones, each with its input. -/
theorem expandSignals_ok {spec : GraphSpec F} : ∀ {nodes : List (GNode F)}
    {signals : List (Terminal × Expr F)}, expandSignals spec nodes = .ok signals →
      List.Forall₂ (fun s t => s.1 = t.1 ∧
        expandUnaryInput spec (expandNode spec (spec.nodes.length + 1) []) s.2 = .ok t.2)
        (signalsOf nodes) signals
  | [], _, hok => by
      obtain rfl := Except.ok.inj hok
      exact List.Forall₂.nil
  | node :: nodes, signals, hok => by
      rw [expandSignals] at hok
      cases hterm : node.terminal with
      | none =>
          rw [hterm] at hok
          rw [show signalsOf (node :: nodes) = signalsOf nodes by simp [signalsOf, hterm]]
          exact expandSignals_ok hok
      | some t =>
          simp only [hterm] at hok
          obtain ⟨e, hin, hok⟩ := Fallible.bind_eq_ok hok
          obtain ⟨rest, hrest, hok⟩ := Fallible.bind_eq_ok hok
          obtain rfl := Except.ok.inj hok
          rw [show signalsOf (node :: nodes) = (t, node.id) :: signalsOf nodes by
            simp [signalsOf, hterm]]
          exact List.Forall₂.cons ⟨rfl, hin⟩ (expandSignals_ok hrest)

theorem denotes_signals {spec : GraphSpec F} {nodes : List (GNode F)}
    {signals : List (Terminal × Expr F)} (hok : expandSignals spec nodes = .ok signals) :
    List.Forall₂ (fun s t => s.1 = t.1 ∧ SignalDenotes spec s.2 t.2) (signalsOf nodes) signals := by
  refine (expandSignals_ok hok).imp fun s t ⟨hterm, hin⟩ => ⟨hterm, ?_⟩
  obtain ⟨es, hes, hsingle⟩ := expandUnaryInput_ok hin
  exact ⟨es, hes.imp fun _ _ hsrc => denotes_of_expand hsrc, hsingle⟩

theorem map_fst_signals {spec : GraphSpec F} {nodes : List (GNode F)}
    {signals : List (Terminal × Expr F)} (hok : expandSignals spec nodes = .ok signals) :
    signals.map Prod.fst = (signalsOf nodes).map Prod.fst :=
  (map_eq_of_forall₂ ((denotes_signals hok).imp fun _ _ hs => hs.1)).symm

/-! ## Trees in trees -/

/-- `e.Contains t`: the tree `t` is `e` or below it. -/
inductive Expr.Contains : Expr F → Expr F → Prop where
  | self (e : Expr F) : Contains e e
  | left {f : Binary} {e₁ e₂ t : Expr F} : Contains e₁ t → Contains (Expr.binary f e₁ e₂) t
  | right {f : Binary} {e₁ e₂ t : Expr F} : Contains e₂ t → Contains (Expr.binary f e₁ e₂) t

omit [F64 F] in
theorem Expr.Contains.trans {e t u : Expr F} (h : e.Contains t) (h' : t.Contains u) :
    e.Contains u := by
  induction h with
  | self => exact h'
  | left _ ih => exact left (ih h')
  | right _ ih => exact right (ih h')

theorem mem_single {es : List (Expr F)} {e t : Expr F} (h : Expr.single es = some e)
    (ht : t ∈ es) : t = e := by
  match es with
  | [] => exact absurd ht List.not_mem_nil
  | [e'] => exact (List.mem_singleton.mp ht).trans (Option.some.inj h)
  | _ :: _ :: _ => exact absurd h (by simp [Expr.single])

omit [F64 F] in
theorem contained_fold (f : Binary) {t : Expr F} : ∀ {es : List (Expr F)} {e : Expr F},
    e.Contains t ∨ t ∈ es → (es.foldl (Expr.binary f) e).Contains t
  | [], _, h => h.elim id fun ht => absurd ht List.not_mem_nil
  | e' :: es, e, h => by
      rw [List.foldl_cons]
      refine contained_fold f ?_
      rcases h with h | h
      · exact Or.inl (Expr.Contains.left h)
      · rcases List.mem_cons.mp h with rfl | h
        · exact Or.inl (Expr.Contains.right (Expr.Contains.self t))
        · exact Or.inr h

theorem contained_gate (f : Binary) {es : List (Expr F)} {t : Expr F} (ht : t ∈ es) :
    (Expr.gate f es).Contains t := by
  cases es with
  | nil => exact absurd ht List.not_mem_nil
  | cons e es =>
      refine contained_fold f ?_
      rcases List.mem_cons.mp ht with rfl | ht
      · exact Or.inl (Expr.Contains.self t)
      · exact Or.inr ht

/-- A node's tree contains its operands. -/
theorem contained_tree {node : GNode F} {es : List (Expr F)} {e t : Expr F}
    (he : node.tree es = some e) (ht : t ∈ es) : e.Contains t := by
  rcases tree_cases he with ⟨-, rfl, -⟩ | ⟨-, rfl, -⟩ | ⟨-, rfl, -⟩ | ⟨-, rfl, -⟩ |
    ⟨-, e', hsingle, rfl⟩ | ⟨-, rfl⟩ | ⟨-, rfl⟩ | ⟨-, hsingle⟩
  · exact absurd ht List.not_mem_nil
  · exact absurd ht List.not_mem_nil
  · exact absurd ht List.not_mem_nil
  · exact absurd ht List.not_mem_nil
  · rw [mem_single hsingle ht]
    exact Expr.Contains.left (Expr.Contains.self e')
  · exact contained_gate Binary.and ht
  · exact contained_gate Binary.or ht
  · exact mem_single hsingle ht ▸ Expr.Contains.self e

/-! ## Visited nodes -/

/-- The nodes met backwards from the signals, through nodes that read their inputs. -/
inductive GraphSpec.Visits (spec : GraphSpec F) : String → Prop where
  | signal {node : GNode F} {src : String} (hnode : node ∈ spec.nodes)
      (hterm : node.terminal.isSome) (hsrc : src ∈ spec.incoming node.id) : spec.Visits src
  | input {id src : String} {node : GNode F} (hid : spec.Visits id)
      (hnode : spec.byId id = some node) (hsrc : src ∈ spec.operands node) : spec.Visits src

/-- A signal node's input is among the signals of the program. -/
theorem signal_mem {spec : GraphSpec F} {signals : List (Terminal × Expr F)}
    (hok : expandSignals spec spec.nodes = .ok signals) {node : GNode F} {t : Terminal}
    (hnode : node ∈ spec.nodes) (hterm : node.terminal = some t) :
    ∃ e, SignalDenotes spec node.id e ∧ (t, e) ∈ signals := by
  have hmem : (t, node.id) ∈ signalsOf spec.nodes :=
    List.mem_filterMap.mpr ⟨node, hnode, by rw [hterm]; rfl⟩
  obtain ⟨s, hs, hst, hden⟩ := exists_of_forall₂_left (denotes_signals hok) hmem
  exact ⟨s.2, hden, by rw [show t = s.1 from hst]; exact hs⟩

/-- **The tree of a visited node is in the program.** -/
theorem visited_contained {spec : GraphSpec F} {signals : List (Terminal × Expr F)}
    (hok : expandSignals spec spec.nodes = .ok signals) {id : String} (h : spec.Visits id) :
    ∃ e, Denotes spec id e ∧ ∃ s ∈ signals, s.2.Contains e := by
  induction h with
  | signal hnode hterm hsrc =>
      obtain ⟨t, ht⟩ := Option.isSome_iff_exists.mp hterm
      obtain ⟨e, ⟨es, hes, hsingle⟩, hmem⟩ := signal_mem hok hnode ht
      obtain ⟨e', he', hden⟩ := exists_of_forall₂_left hes hsrc
      obtain rfl := mem_single hsingle he'
      exact ⟨e', hden, _, hmem, Expr.Contains.self e'⟩
  | input _ hnode hsrc ih =>
      obtain ⟨e, hden, s, hs, hcontains⟩ := ih
      obtain ⟨node', es, hnode', hes, he⟩ := hden.level
      obtain rfl := Option.some.inj (hnode.symm.trans hnode')
      obtain ⟨e', he', hden'⟩ := exists_of_forall₂_left hes hsrc
      exact ⟨e', hden', s, hs, hcontains.trans (contained_tree he he')⟩

end HotpathIpc
