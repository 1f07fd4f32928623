import HotpathIpc.Strategy.Steps
import HotpathIpc.Strategy.Unfolding

/-!
# Where a program's indicators come from

An indicator instruction is emitted for a node of the graph and carries that node's parameter.

* **`indicator_of_mem`** — every indicator of a compiled program is that of a visited node.
* **`mem_of_visits`** — every visited node that is an indicator has an instruction in the program.

With them what is said of all the instructions of a program is said of the visited nodes: the
program is numbered and its parameters are casts (`compiled_words`).
-/

namespace HotpathIpc

open Lists (exists_of_forall₂_left)

variable {F : Type}

/-- The instruction of a tree that is an indicator, with this slot. -/
def Expr.indicator (slot : ℕ) : Expr F → Option (Op F)
  | Expr.ema period => some (Op.ema slot period)
  | Expr.momentum lookback => some (Op.momentum slot lookback)
  | Expr.reversion window => some (Op.reversion slot window)
  | _ => none

variable [F64 F]

/-- The instruction of a node that is an indicator, with this slot. -/
def GNode.indicator (node : GNode F) (slot : ℕ) : Option (Op F) :=
  match node.type with
  | some NodeType.ema => some (Op.ema slot node.period)
  | some NodeType.momentum => some (Op.momentum slot node.lookback)
  | some NodeType.reversion => some (Op.reversion slot node.window)
  | _ => none

theorem isSome_indicator (node : GNode F) (s s' : ℕ) :
    (node.indicator s).isSome = (node.indicator s').isSome := by
  unfold GNode.indicator
  split <;> rfl

theorem takesPrice_of_indicator {node : GNode F} {s : ℕ} {op : Op F}
    (h : node.indicator s = some op) : node.takesPrice = true := by
  unfold GNode.indicator at h
  split at h
  · simp [GNode.takesPrice, ‹node.type = _›]
  · simp [GNode.takesPrice, ‹node.type = _›]
  · simp [GNode.takesPrice, ‹node.type = _›]
  · cases h

/-! ## Trees and their code -/

omit [F64 F] in
theorem code_of_indicator {e : Expr F} {s : ℕ} {op : Op F} (h : e.indicator s = some op) :
    (e.code s).1 = [op] := by
  cases e with
  | ema | momentum | reversion => exact congrArg (fun op => [op]) (Option.some.inj h)
  | _ => cases h

omit [F64 F] in
/-- An indicator in a tree's code is a leaf of the tree. -/
theorem indicator_of_mem_code {e : Expr F} {slot s : ℕ} {op : Op F} (h : op ∈ (e.code slot).1)
    (hslot : op.slot = some s) : ∃ t, e.Contains t ∧ t.indicator s = some op := by
  induction e generalizing slot with
  | binary f e₁ e₂ ih₁ ih₂ =>
      simp only [Expr.code, List.mem_append, List.mem_singleton] at h
      rcases h with (h | h) | rfl
      · obtain ⟨t, ht, hop⟩ := ih₁ h
        exact ⟨t, Expr.Contains.left ht, hop⟩
      · obtain ⟨t, ht, hop⟩ := ih₂ h
        exact ⟨t, Expr.Contains.right ht, hop⟩
      · have hnone : (f.op : Op F).slot = none := by cases f <;> rfl
        rw [hnone] at hslot
        cases hslot
  | price | const =>
      rw [List.mem_singleton.mp h] at hslot
      cases hslot
  | ema | momentum | reversion =>
      obtain rfl := List.mem_singleton.mp h
      exact ⟨_, Expr.Contains.self _, by rw [← Option.some.inj hslot]; rfl⟩

omit [F64 F] in
/-- The code of a tree below is in the code of the tree. -/
theorem code_subset {e t : Expr F} (h : e.Contains t) (slot : ℕ) :
    ∃ s, (t.code s).1 ⊆ (e.code slot).1 := by
  induction h generalizing slot with
  | self e => exact ⟨slot, List.Subset.refl _⟩
  | @left f e₁ e₂ t _ ih =>
      obtain ⟨s, hs⟩ := ih slot
      refine ⟨s, fun op hop => ?_⟩
      exact List.mem_append_left _ (List.mem_append_left _ (hs hop))
  | @right f e₁ e₂ t _ ih =>
      obtain ⟨s, hs⟩ := ih (e₁.code slot).2
      refine ⟨s, fun op hop => ?_⟩
      exact List.mem_append_left _ (List.mem_append_right _ (hs hop))

omit [F64 F] in
theorem indicator_of_mem_signals : ∀ {signals : List (Terminal × Expr F)} {slot s : ℕ} {op : Op F},
    op ∈ (codeSignals signals slot).1 → op.slot = some s →
      ∃ sig ∈ signals, ∃ t, sig.2.Contains t ∧ t.indicator s = some op
  | [], _, _, _, h, _ => absurd h List.not_mem_nil
  | sig :: signals, slot, s, op, h, hslot => by
      simp only [codeSignals, List.mem_append, List.mem_cons] at h
      rcases h with h | rfl | h
      · obtain ⟨t, ht⟩ := indicator_of_mem_code h hslot
        exact ⟨sig, List.mem_cons_self, t, ht⟩
      · have hnone : (sig.1.op : Op F).slot = none := by cases sig.1 <;> rfl
        rw [hnone] at hslot
        cases hslot
      · obtain ⟨sig', hsig', ht⟩ := indicator_of_mem_signals h hslot
        exact ⟨sig', List.mem_cons_of_mem _ hsig', ht⟩

omit [F64 F] in
theorem signal_subset : ∀ {signals : List (Terminal × Expr F)} {sig : Terminal × Expr F},
    sig ∈ signals → ∀ slot, ∃ s, (sig.2.code s).1 ⊆ (codeSignals signals slot).1
  | [], _, h, _ => absurd h List.not_mem_nil
  | sig :: signals, sig', h, slot => by
      rcases List.mem_cons.mp h with rfl | h
      · exact ⟨slot, List.subset_append_left _ _⟩
      · obtain ⟨s, hs⟩ := signal_subset h (sig.2.code slot).2
        refine ⟨s, fun op hop => ?_⟩
        exact List.mem_append_right _ (List.mem_cons_of_mem _ (hs hop))

/-! ## Trees and the graph -/

/-- A leaf's indicator is that of its node. -/
theorem indicator_tree {node : GNode F} {es : List (Expr F)} {e t : Expr F}
    (htree : node.tree es = some e) (hprice : node.takesPrice = true) (ht : e.Contains t) (s : ℕ) :
    t.indicator s = node.indicator s := by
  unfold GNode.takesPrice at hprice
  rcases tree_cases htree with ⟨htype, -, rfl⟩ | ⟨htype, -, rfl⟩ | ⟨htype, -, rfl⟩ |
    ⟨htype, -, rfl⟩ | ⟨htype, -⟩ | ⟨htype, -⟩ | ⟨htype, -⟩ | ⟨htype | htype, -⟩
  · cases ht
    simp only [GNode.indicator, htype, Expr.indicator]
  · cases ht
    simp only [GNode.indicator, htype, Expr.indicator]
  · cases ht
    simp only [GNode.indicator, htype, Expr.indicator]
  · cases ht
    simp only [GNode.indicator, htype, Expr.indicator]
  all_goals simp [htype] at hprice

/-- The indicators below a visited node are those of visited nodes: by induction on what the node
spells out, an indicator being no constant and no operator. -/
theorem indicator_of_denotes {spec : GraphSpec F} {id : String} {e : Expr F}
    (hden : Denotes spec id e) : spec.Visits id → ∀ t s op, e.Contains t →
      t.indicator s = some op →
        ∃ id' node, spec.Visits id' ∧ spec.byId id' = some node ∧ node.indicator s = some op := by
  induction hden with
  | @node id node es e hnode hlen _ htree ih =>
      intro hvisits
      refine holds_tree (P := fun e => ∀ t s op, e.Contains t → t.indicator s = some op →
        ∃ id' node, spec.Visits id' ∧ spec.byId id' = some node ∧ node.indicator s = some op)
        ?_ ?_ htree ?_ ?_
      · intro c t s op ht hop
        cases ht
        cases hop
      · intro f e₁ e₂ h₁ h₂ t s op ht hop
        cases ht with
        | self => cases hop
        | left ht => exact h₁ t s op ht hop
        | right ht => exact h₂ t s op ht hop
      · intro hprice t s op ht hop
        rw [indicator_tree htree hprice ht] at hop
        exact ⟨id, node, hvisits, hnode, hop⟩
      · intro e' he'
        have hall : List.Forall₂ (fun src e => src ∈ spec.operands node ∧
            (src, e) ∈ (spec.operands node).zip es) (spec.operands node) es :=
          List.forall₂_iff_zip.mpr ⟨hlen, fun hq => ⟨(List.of_mem_zip hq).1, hq⟩⟩
        obtain ⟨src, -, hsrc, hq⟩ := exists_of_forall₂_left hall.flip he'
        exact ih (src, e') hq (GraphSpec.Visits.input hvisits hnode hsrc)

section Compiled

variable {spec : GraphSpec F} {prog : List (Op F)}

/-- **Every indicator of a program is that of a visited node.** -/
theorem indicator_of_mem (h : compile spec = .ok prog) {op : Op F} {s : ℕ} (hop : op ∈ prog)
    (hslot : op.slot = some s) :
    ∃ id node, spec.Visits id ∧ spec.byId id = some node ∧ node.indicator s = some op := by
  obtain ⟨-, signals, hok, rfl⟩ := compile_eq h
  obtain ⟨sig, hsig, t, ht, hind⟩ := indicator_of_mem_signals hop hslot
  obtain ⟨p, hp, -, es, hes, hsingle⟩ := exists_of_forall₂_left (denotes_signals hok).flip hsig
  obtain ⟨node, hnode, hmap⟩ := List.mem_filterMap.mp hp
  obtain ⟨term, hterm, rfl⟩ := Option.map_eq_some_iff.mp hmap
  match es with
  | [] =>
      -- a signal without an input
      rw [← Option.some.inj hsingle] at ht
      cases ht
      cases hind
  | [e] =>
      rw [← Option.some.inj hsingle] at ht
      obtain ⟨src, hsrc, hden⟩ := exists_of_forall₂_left hes.flip List.mem_cons_self
      have hsome : node.terminal.isSome := Option.isSome_of_eq_some hterm
      exact indicator_of_denotes hden (GraphSpec.Visits.signal hnode hsome hsrc) t s op ht hind
  | _ :: _ :: _ => exact absurd hsingle (by simp [Expr.single])

/-- **Every visited indicator is in the program.** -/
theorem mem_of_visits (h : compile spec = .ok prog) {id : String} {node : GNode F}
    (hvisits : spec.Visits id) (hnode : spec.byId id = some node)
    (hind : (node.indicator 0).isSome) : ∃ op ∈ prog, ∃ s, node.indicator s = some op := by
  obtain ⟨-, signals, hok, rfl⟩ := compile_eq h
  obtain ⟨e, hden, sig, hsig, hcontains⟩ := visited_contained hok hvisits
  obtain ⟨node', es, hnode', -, htree⟩ := hden.level
  obtain rfl := Option.some.inj (hnode.symm.trans hnode')
  obtain ⟨s₁, hs₁⟩ := signal_subset hsig 0
  obtain ⟨s, hs⟩ := code_subset hcontains s₁
  rw [isSome_indicator node 0 s] at hind
  obtain ⟨op, hop⟩ := Option.isSome_iff_exists.mp hind
  refine ⟨op, hs₁ (hs ?_), s, hop⟩
  rw [← indicator_tree htree (takesPrice_of_indicator hop) (Expr.Contains.self e)] at hop
  rw [code_of_indicator hop]
  exact List.mem_singleton_self op

/-- **A compiled program** has its slots in order and words for parameters. -/
theorem compiled_words (h : compile spec = .ok prog) :
    Numbered 0 prog ∧ ∀ op ∈ prog, op.Word := by
  constructor
  · obtain ⟨-, signals, -, rfl⟩ := compile_eq h
    exact numbered_signals signals 0
  · intro op hop n hn
    obtain ⟨s, hslot⟩ : ∃ s, op.slot = some s := by
      cases op <;> first | exact ⟨_, rfl⟩ | cases hn
    obtain ⟨_, node, -, -, hind⟩ := indicator_of_mem h hop hslot
    unfold GNode.indicator at hind
    split at hind
    · obtain rfl := Option.some.inj hind
      exact Option.some.inj hn ▸ F64.toUSize_lt _
    · obtain rfl := Option.some.inj hind
      exact Option.some.inj hn ▸ F64.toUSize_lt _
    · obtain rfl := Option.some.inj hind
      exact Option.some.inj hn ▸ F64.toUSize_lt _
    · cases hind

end Compiled

end HotpathIpc
