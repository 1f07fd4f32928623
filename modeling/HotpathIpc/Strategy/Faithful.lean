import HotpathIpc.Strategy.Unfolding
import Mathlib.Data.List.Nodup

/-!
# What becomes of the wiring

A program is read back by running it on trees instead of numbers (`readBack`): what the terminal
ops pop are the trees it evaluates.  A connection is kept if, in these trees, the value of its
source is an operand of its target (`Feeds`).

**`faithful_iff`** — the compiler keeps every connection on the way to a signal, except those that
carry something other than the price into a node that takes the price only.  Those it drops, and
all that is wired behind them, without an error.
-/

namespace HotpathIpc

open Std (ExtTreeMap)
open Lists (exists_of_forall₂_left)

variable {F : Type}

/-! ## Reading a program back -/

/-- The trees on the stack and the signals so far. -/
abbrev Reading (F : Type) := List (Expr F) × List (Terminal × Expr F)

/-- Two operands off the stack of trees, one tree onto it. -/
def Reading.binary (f : Binary) : Reading F → Option (Reading F)
  | (e₂ :: e₁ :: stack, out) => some (Expr.binary f e₁ e₂ :: stack, out)
  | _ => none

def Reading.terminal (t : Terminal) : Reading F → Option (Reading F)
  | (e :: stack, out) => some (stack, out ++ [(t, e)])
  | _ => none

/-- One instruction, on trees.  The compiler emits no `not`, and trees have none. -/
def readOp (r : Reading F) : Op F → Option (Reading F)
  | Op.pushPrice => some (Expr.price :: r.1, r.2)
  | Op.pushConst c => some (Expr.const c :: r.1, r.2)
  | Op.ema _ period => some (Expr.ema period :: r.1, r.2)
  | Op.momentum _ lookback => some (Expr.momentum lookback :: r.1, r.2)
  | Op.reversion _ window => some (Expr.reversion window :: r.1, r.2)
  | Op.gt => r.binary Binary.gt
  | Op.lt => r.binary Binary.lt
  | Op.ge => r.binary Binary.ge
  | Op.le => r.binary Binary.le
  | Op.eq => r.binary Binary.eq
  | Op.and => r.binary Binary.and
  | Op.or => r.binary Binary.or
  | Op.not => none
  | Op.buy => r.terminal Terminal.buy
  | Op.sell => r.terminal Terminal.sell

/-- The trees that a program evaluates for its signals. -/
def readBack (prog : List (Op F)) : Option (List (Terminal × Expr F)) :=
  (prog.foldlM readOp ([], [])).map Prod.snd

theorem read_code (e : Expr F) (slot : ℕ) (r : Reading F) :
    (e.code slot).1.foldlM readOp r = some (e :: r.1, r.2) := by
  induction e generalizing slot r with
  | binary f e₁ e₂ ih₁ ih₂ =>
      have hop : readOp (e₂ :: e₁ :: r.1, r.2) f.op = some (Expr.binary f e₁ e₂ :: r.1, r.2) := by
        cases f <;> rfl
      simp only [Expr.code, List.foldlM_append, ih₁, ih₂, Option.bind_eq_bind, Option.bind_some]
      simpa using hop
  | _ => rfl

theorem read_signals : ∀ (signals : List (Terminal × Expr F)) (slot : ℕ)
    (out : List (Terminal × Expr F)),
      (codeSignals signals slot).1.foldlM readOp ([], out) = some ([], out ++ signals)
  | [], _, out => by simp [codeSignals]
  | s :: signals, slot, out => by
      have hop : readOp ([s.2], out) (s.1.op : Op F) = some ([], out ++ [s]) := by
        obtain ⟨t, e⟩ := s
        cases t <;> rfl
      have ih := read_signals signals (s.2.code slot).2 (out ++ [s])
      simp only [codeSignals, List.foldlM_append, read_code, Option.bind_eq_bind, Option.bind_some,
        List.foldlM_cons, hop, ih, List.append_assoc, List.singleton_append]

/-- **The code of the signals reads back as the signals.** -/
theorem readBack_signals (signals : List (Terminal × Expr F)) (slot : ℕ) :
    readBack (codeSignals signals slot).1 = some signals := by
  rw [readBack, read_signals]
  rfl

/-! ## Connections -/

variable [F64 F]

namespace GraphSpec

/-- A directed path of connections leads from the node to a signal. -/
inductive Leads (spec : GraphSpec F) : String → Prop where
  | signal {node : GNode F} (hnode : node ∈ spec.nodes) (hterm : node.terminal.isSome) :
      spec.Leads node.id
  | wire {src id : String} (hwire : (src, id) ∈ spec.connections) (hid : spec.Leads id) :
      spec.Leads src

/-- The connection carries something other than the price into a node that takes the price only. -/
def ignores (spec : GraphSpec F) (c : String × String) : Bool :=
  match spec.byId c.1, spec.byId c.2 with
  | some a, some b => decide (a.type ≠ some NodeType.dataSource) && b.takesPrice
  | _, _ => false

end GraphSpec

/-- Among the trees a program evaluates, `e` is one made for `b`: the input of a signal, or a tree
within one. -/
def Placed (trees : List (Terminal × Expr F)) (b : GNode F) (e : Expr F) : Prop :=
  match b.terminal with
  | some t => (t, e) ∈ trees
  | none => ∃ s ∈ trees, s.2.Contains e

/-- In the program, the op of `b` has among its operands the value of `a`: its operands are the
values of all nodes wired into it, each the op of its type with its parameters. -/
def Feeds (spec : GraphSpec F) (trees : List (Terminal × Expr F)) (a b : GNode F) : Prop :=
  ∃ es e, List.Forall₂ (Denotes spec) (spec.incoming b.id) es ∧ b.tree es = some e ∧
    Placed trees b e ∧ ∃ e' ∈ es, Denotes spec a.id e'

/-- **Faithful compilation**: the program fires the declared signals, and keeps every connection,
other than the price itself, on the way to one. -/
def Faithful (spec : GraphSpec F) (prog : List (Op F)) : Prop :=
  ∃ trees, readBack prog = some trees ∧
    trees.map Prod.fst = (signalsOf spec.nodes).map Prod.fst ∧
    ∀ c ∈ spec.connections, ∀ a b, spec.byId c.1 = some a → spec.byId c.2 = some b →
      a.type ≠ some NodeType.dataSource → spec.Leads c.2 → Feeds spec trees a b

omit [F64 F] in
theorem mem_incoming {spec : GraphSpec F} {src id : String} :
    src ∈ spec.incoming id ↔ (src, id) ∈ spec.connections := by
  simp [GraphSpec.incoming]

/-- A signal node takes the one input that it is given. -/
theorem tree_of_terminal {node : GNode F} {t : Terminal} (h : node.terminal = some t)
    (es : List (Expr F)) : node.tree es = Expr.single es := by
  unfold GNode.terminal at h
  unfold GNode.tree
  split at h <;> simp_all

omit [F64 F] in
/-- With distinct ids, a declared node is the one its id means. -/
theorem byId_of_mem {spec : GraphSpec F} (hids : (spec.nodes.map GNode.id).Nodup)
    {node : GNode F} (h : node ∈ spec.nodes) : spec.byId node.id = some node := by
  have hsome : (spec.byId node.id).isSome := by
    rw [GraphSpec.byId, List.find?_isSome]
    exact ⟨node, List.mem_reverse.mpr h, by simp⟩
  obtain ⟨node', hnode'⟩ := Option.isSome_iff_exists.mp hsome
  have hmem : node' ∈ spec.nodes := List.mem_reverse.mp (List.mem_of_find?_eq_some hnode')
  rw [hnode', List.inj_on_of_nodup_map hids hmem h (byId_id hnode')]

omit [F64 F] in
theorem validate_ok {spec : GraphSpec F} : ∀ {cs : List (String × String)},
    validate spec cs = .ok () → ∀ c ∈ cs, (spec.byId c.1).isSome ∧ (spec.byId c.2).isSome
  | [], _ => fun _ hc => absurd hc List.not_mem_nil
  | c :: cs, hok => by
      rw [validate] at hok
      split at hok
      · cases hok
      · split at hok
        · cases hok
        · intro c' hc'
          rcases List.mem_cons.mp hc' with rfl | hc'
          · exact ⟨by simpa [Option.isSome_iff_ne_none] using ‹¬ (spec.byId c'.1).isNone = true›,
              by simpa [Option.isSome_iff_ne_none] using ‹¬ (spec.byId c'.2).isNone = true›⟩
          · exact validate_ok hok c' hc'

/-! ## Which connections are kept -/

section Kept

variable {spec : GraphSpec F} {signals : List (Terminal × Expr F)}

/-- A tree in place brings all its operands into the program. -/
theorem contained_of_placed {b : GNode F} {es : List (Expr F)} {e t : Expr F}
    (hplaced : Placed signals b e) (htree : b.tree es = some e) (ht : t ∈ es) :
    ∃ s ∈ signals, s.2.Contains t := by
  have hcontains := contained_tree htree ht
  unfold Placed at hplaced
  split at hplaced
  · exact ⟨_, hplaced, hcontains⟩
  · obtain ⟨s, hs, hplaced⟩ := hplaced
    exact ⟨s, hs, hplaced.trans hcontains⟩

/-- Whatever is wired into a signal feeds it. -/
theorem feeds_signal (hok : expandSignals spec spec.nodes = .ok signals) {a b : GNode F}
    {t : Terminal} (hb : b ∈ spec.nodes) (hterm : b.terminal = some t)
    (hwire : a.id ∈ spec.incoming b.id) : Feeds spec signals a b := by
  obtain ⟨e, ⟨es, hes, hsingle⟩, hmem⟩ := signal_mem hok hb hterm
  refine ⟨es, e, hes, (tree_of_terminal hterm es).trans hsingle, ?_,
    exists_of_forall₂_left hes hwire⟩
  rw [Placed, hterm]
  exact hmem

/-- Whatever is wired into a node that reads its inputs feeds it, if the node's tree is there. -/
theorem feeds_reader {a b : GNode F} {e : Expr F} (hb : spec.byId b.id = some b)
    (hterm : b.terminal = none) (hreads : b.takesPrice = false) (hden : Denotes spec b.id e)
    (hplaced : ∃ s ∈ signals, s.2.Contains e) (hwire : a.id ∈ spec.incoming b.id) :
    Feeds spec signals a b := by
  obtain ⟨b', es, hb', hes, htree⟩ := hden.level
  obtain rfl := Option.some.inj (hb.symm.trans hb')
  rw [operands_of_reads hreads] at hes
  refine ⟨es, e, hes, htree, ?_, exists_of_forall₂_left hes hwire⟩
  rw [Placed, hterm]
  exact hplaced

/-- **On the way to a signal**, if no connection is ignored, every one feeds its target: by
induction on the way, the target's tree being an operand of the next node on it. -/
theorem feeds_of_leads (hids : (spec.nodes.map GNode.id).Nodup)
    (hvalid : validate spec spec.connections = .ok ())
    (hok : expandSignals spec spec.nodes = .ok signals)
    (hkept : ∀ c ∈ spec.connections, spec.Leads c.2 → spec.ignores c = false) {id : String}
    (hleads : spec.Leads id) : ∀ a b, (a.id, id) ∈ spec.connections → spec.byId a.id = some a →
      spec.byId id = some b → a.type ≠ some NodeType.dataSource → Feeds spec signals a b := by
  have hreads : ∀ {a b : GNode F} {id : String}, (a.id, id) ∈ spec.connections →
      spec.byId a.id = some a → spec.byId id = some b → a.type ≠ some NodeType.dataSource →
      spec.Leads id → b.takesPrice = false := by
    intro a b id hc ha hb hprice hleads
    have hno := hkept _ hc hleads
    simpa [GraphSpec.ignores, ha, hb, hprice] using hno
  induction hleads with
  | signal hnode hterm =>
      intro a b hc ha hb hprice
      obtain rfl := Option.some.inj ((byId_of_mem hids hnode).symm.trans hb)
      obtain ⟨t, ht⟩ := Option.isSome_iff_exists.mp hterm
      exact feeds_signal hok hnode ht (mem_incoming.mpr hc)
  | @wire src id hwire hid ih =>
      intro a b hc ha hb hprice
      obtain rfl := byId_id hb
      cases hterm : b.terminal with
      | some t =>
          have hmem : b ∈ spec.nodes := List.mem_reverse.mp (List.mem_of_find?_eq_some hb)
          exact feeds_signal hok hmem hterm (mem_incoming.mpr hc)
      | none =>
          have hbreads := hreads hc ha hb hprice (GraphSpec.Leads.wire hwire hid)
          have hbprice : b.type ≠ some NodeType.dataSource := by
            intro htype
            simp [GNode.takesPrice, htype] at hbreads
          obtain ⟨next, hnext⟩ := Option.isSome_iff_exists.mp (validate_ok hvalid _ hwire).2
          obtain ⟨es, e, -, htree, hplaced, e', he', hden⟩ := ih b next hwire hb hnext hbprice
          exact feeds_reader hb hterm hbreads hden (contained_of_placed hplaced htree he')
            (mem_incoming.mpr hc)

/-- An ignored connection feeds nothing. -/
theorem not_feeds_ignored {a b : GNode F} (hb : b.takesPrice = true)
    (hwire : a.id ∈ spec.incoming b.id) : ¬ Feeds spec signals a b := by
  rintro ⟨es, e, hes, htree, -, -⟩
  obtain rfl := tree_of_takesPrice hb htree
  obtain ⟨_, hmem, -⟩ := exists_of_forall₂_left hes hwire
  exact absurd hmem List.not_mem_nil

/-- A faithful compilation has nothing to ignore. -/
theorem kept_of_faithful {prog : List (Op F)} (h : Faithful spec prog) :
    ∀ c ∈ spec.connections, spec.Leads c.2 → spec.ignores c = false := by
  obtain ⟨trees, hread, -, hfeeds⟩ := h
  intro c hc hleads
  cases ha : spec.byId c.1 with
  | none => simp [GraphSpec.ignores, ha]
  | some a =>
      cases hb : spec.byId c.2 with
      | none => simp [GraphSpec.ignores, hb]
      | some b =>
          rw [GraphSpec.ignores, ha, hb]
          by_contra hno
          obtain ⟨hprice, htakes⟩ : a.type ≠ some NodeType.dataSource ∧ b.takesPrice = true := by
            simpa using hno
          refine not_feeds_ignored htakes ?_ (hfeeds c hc a b ha hb hprice hleads)
          rw [mem_incoming, byId_id ha, byId_id hb]
          exact hc

end Kept

/-- **Which graphs are compiled faithfully.**  An accepted graph with distinct ids has every
connection on the way to a signal in its program exactly when none of them carries something other
than the price into a source or an indicator. -/
theorem faithful_iff {spec : GraphSpec F} {prog : List (Op F)}
    (hids : (spec.nodes.map GNode.id).Nodup) (h : compile spec = .ok prog) :
    Faithful spec prog ↔
      ∀ c ∈ spec.connections, spec.Leads c.2 → spec.ignores c = false := by
  obtain ⟨hvalid, signals, hok, rfl⟩ := compile_eq h
  refine ⟨kept_of_faithful, fun hkept => ⟨signals, readBack_signals signals 0,
    map_fst_signals hok, fun c hc a b ha hb hprice hleads => ?_⟩⟩
  refine feeds_of_leads hids hvalid hok hkept hleads a b ?_ ?_ hb hprice
  · rw [byId_id ha]
    exact hc
  · rw [byId_id ha]
    exact ha

/-- An average above 100 or below 50 buys. -/
def keptGraph : GraphSpec ℚ where
  nodes :=
    [⟨"d", "data_source", ∅, ∅⟩, ⟨"e", "ema", ExtTreeMap.ofList [("period", (3 : ℚ))], ∅⟩,
      ⟨"high", "condition", ExtTreeMap.ofList [("value", (100 : ℚ))], ∅⟩,
      ⟨"low", "condition", ExtTreeMap.ofList [("value", (50 : ℚ))],
        ExtTreeMap.ofList [("op", "less_than")]⟩,
      ⟨"out", "or_gate", ∅, ∅⟩, ⟨"b", "buy_signal", ∅, ∅⟩]
  connections := [("d", "e"), ("e", "high"), ("e", "low"), ("high", "out"), ("low", "out"),
    ("out", "b")]

theorem kept_compiles : letI : F64 ℚ := F64.exact fun x => x
    compile keptGraph = .ok [Op.ema 0 3, Op.pushConst 100, Op.gt, Op.ema 1 3, Op.pushConst 50, Op.lt,
      Op.or, Op.buy] := by
  let _ : F64 ℚ := F64.exact fun x => x
  decide +kernel

theorem faithful_iff_run : letI : F64 ℚ := F64.exact fun x => x
    Faithful keptGraph [Op.ema 0 3, Op.pushConst 100, Op.gt, Op.ema 1 3, Op.pushConst 50, Op.lt,
      Op.or, Op.buy] := by
  let _ : F64 ℚ := F64.exact fun x => x
  have hkept : ∀ c ∈ keptGraph.connections, keptGraph.ignores c = false := by decide +kernel
  exact (faithful_iff (by decide +kernel) kept_compiles).mpr fun c hc _ => hkept c hc

/-- A condition on the price, wired into an average. -/
def droppedGraph : GraphSpec ℚ where
  nodes :=
    [⟨"d", "data_source", ∅, ∅⟩,
      ⟨"c", "condition", ExtTreeMap.ofList [("value", (100 : ℚ))], ∅⟩,
      ⟨"e", "ema", ExtTreeMap.ofList [("period", (3 : ℚ))], ∅⟩,
      ⟨"h", "condition", ExtTreeMap.ofList [("value", (50 : ℚ))], ∅⟩, ⟨"b", "buy_signal", ∅, ∅⟩]
  connections := [("d", "c"), ("c", "e"), ("e", "h"), ("h", "b")]

/-- **A wired node that is dropped without an error**: the program has the average of the price, and
no comparison with 100. -/
theorem wired_condition_dropped : letI : F64 ℚ := F64.exact fun x => x
    (droppedGraph.nodes.map GNode.id).Nodup ∧
      compile droppedGraph = .ok [Op.ema 0 3, Op.pushConst 50, Op.gt, Op.buy] ∧
      ¬ Faithful droppedGraph [Op.ema 0 3, Op.pushConst 50, Op.gt, Op.buy] := by
  let _ : F64 ℚ := F64.exact fun x => x
  refine ⟨by decide +kernel, by decide +kernel, fun hfaithful => ?_⟩
  have hmem : (⟨"b", "buy_signal", ∅, ∅⟩ : GNode ℚ) ∈ droppedGraph.nodes := by simp [droppedGraph]
  have hwire : ("h", "b") ∈ droppedGraph.connections := by decide
  have hwire' : ("e", "h") ∈ droppedGraph.connections := by decide
  have hleads : droppedGraph.Leads "e" :=
    GraphSpec.Leads.wire hwire' (GraphSpec.Leads.wire hwire (GraphSpec.Leads.signal hmem rfl))
  have hkept := kept_of_faithful hfaithful ("c", "e") (by decide) hleads
  exact absurd hkept (by decide +kernel)

end HotpathIpc
