import HotpathIpc.Strategy.Meaning
import Mathlib.Data.List.Induction

/-!
# The compiled program decides as the graph

The program is the code of the signals, each run on an empty stack (`codeSignals_runs`).  A tick
takes the indicators from one history to the next (`run_cells`), so a run over a sequence of prices
makes, at every tick, the decision of the history up to it (`decisions_cells`).
-/

namespace HotpathIpc

open Std (ExtTreeMap)

variable {F : Type} [F64 F]

/-! ## One tick -/

/-- A signal with this input, after the decision `dec`. -/
def fire (dec : VmDecision F) (q : Terminal × F) : VmDecision F :=
  if F64.lt 0.0 q.2 then q.1.decision q.2 else dec

theorem foldl_fire (dec : VmDecision F) (qs : List (Terminal × F)) :
    qs.foldl fire dec = match (qs.filter fun q => F64.lt 0.0 q.2).getLast? with
      | some q => q.1.decision q.2
      | none => dec := by
  induction qs using List.reverseRecOn with
  | nil => rfl
  | append_singleton qs q ih =>
      rw [List.foldl_append, List.filter_append, List.foldl_cons, List.foldl_nil, fire]
      by_cases hq : F64.lt 0.0 q.2 = true
      · simp [hq]
      · simp [hq, ih]

theorem lastFired_eq (qs : List (Terminal × F)) : lastFired qs = qs.foldl fire VmDecision.hold :=
  (foldl_fire VmDecision.hold qs).symm

section Tick

variable {hist : List F} {price : F} {slot : ℕ} {dec : VmDecision F}

theorem cells_terminal (hist : List F) (t : Terminal) : cells hist [(t.op : Op F)] = [] := by
  cases t <;> rfl

theorem exec_terminal (t : Terminal) (m : Machine F) :
    m.exec price t.op = some { m.pop.2 with decision := fire m.pop.2.decision (t, m.pop.1) } := by
  cases t <;> by_cases hv : F64.lt 0.0 m.pop.1 = true <;>
    simp [Machine.exec, Terminal.op, Terminal.decision, fire, hv]

theorem runs_terminal (t : Terminal) (v : F) (stack : List F) :
    Runs hist price slot [(t.op : Op F)] (v :: stack, dec) (stack, fire dec (t, v)) := by
  intro done rest _
  simp [Machine.run, cells_terminal, exec_terminal, Machine.pop]

/-- **The code of the signals** leaves the stack empty and folds their inputs into the decision. -/
theorem codeSignals_runs : ∀ (signals : List (Terminal × Expr F)) (slot : ℕ) (dec : VmDecision F),
    (∀ op ∈ (codeSignals signals slot).1, op.Sized) →
      peakDepth 0 (codeSignals signals slot).1 ≤ STACK_CAP →
        Runs hist price slot (codeSignals signals slot).1 ([], dec)
          ([], (evalSignals (price :: hist) signals).foldl fire dec)
  | [], _, _, _, _ => fun _ _ _ => rfl
  | s :: signals, slot, dec, hsized, hpeak => by
      simp only [codeSignals] at hsized hpeak ⊢
      obtain ⟨hpeak₁, hpeak₂⟩ := Depth.peak_le_of_append Op.depth hpeak
      rw [code_depth] at hpeak₂
      have hterm : (s.1.op : Op F).depth 1 = 0 := by cases s.1 <;> rfl
      have hpeak₃ : peakDepth 0 (codeSignals signals (s.2.code slot).2).1 ≤ STACK_CAP := by
        rw [Depth.peak, Nat.zero_add, hterm] at hpeak₂
        exact (max_le_iff.mp hpeak₂).2
      have hinput : Runs hist price slot (s.2.code slot).1 ([], dec)
          ([s.2.eval (price :: hist)], dec) :=
        code_runs s.2 (fun op hop => hsized op (List.mem_append_left _ hop)) hpeak₁
      have hrest := codeSignals_runs signals (s.2.code slot).2
        (fire dec (s.1, s.2.eval (price :: hist)))
        (fun op hop => hsized op (List.mem_append_right _ (List.mem_cons_of_mem _ hop))) hpeak₃
      -- the input, the terminal op, the signals after it
      refine Runs.append hinput ?_
      rw [← code_slot]
      refine Runs.append (runs_terminal s.1 (s.2.eval (price :: hist)) []) ?_
      rw [cells_terminal]
      exact hrest

end Tick

/-! ## All ticks -/

section Ticks

variable {signals : List (Terminal × Expr F)}

/-- **A tick** takes the machine from the states of one history to those of the next. -/
theorem run_cells (hsized : ∀ op ∈ (codeSignals signals 0).1, op.Sized)
    (hpeak : peakDepth 0 (codeSignals signals 0).1 ≤ STACK_CAP) (hist : List F) (price : F) :
    Vm.run ⟨(codeSignals signals 0).1, cells hist (codeSignals signals 0).1⟩ price
      = some (⟨(codeSignals signals 0).1, cells (price :: hist) (codeSignals signals 0).1⟩,
          lastFired (evalSignals (price :: hist) signals)) := by
  have hcode : Runs hist price 0 (codeSignals signals 0).1 ([], VmDecision.hold)
      ([], (evalSignals (price :: hist) signals).foldl fire VmDecision.hold) :=
    codeSignals_runs signals 0 VmDecision.hold hsized hpeak
  have hrun := hcode [] [] rfl
  rw [List.nil_append, List.append_nil, List.nil_append, List.append_nil] at hrun
  rw [Vm.run, hrun, lastFired_eq]
  rfl

/-- The decisions of the trees at each of some more prices. -/
def decisionsFrom (signals : List (Terminal × Expr F)) : List F → List F → List (VmDecision F)
  | _, [] => []
  | hist, price :: prices =>
      lastFired (evalSignals (price :: hist) signals) :: decisionsFrom signals (price :: hist) prices

theorem decisions_cells (hsized : ∀ op ∈ (codeSignals signals 0).1, op.Sized)
    (hpeak : peakDepth 0 (codeSignals signals 0).1 ≤ STACK_CAP) : ∀ (prices hist : List F),
      Vm.decisions ⟨(codeSignals signals 0).1, cells hist (codeSignals signals 0).1⟩ prices
        = some (decisionsFrom signals hist prices)
  | [], _ => rfl
  | price :: prices, hist => by
      rw [Vm.decisions, run_cells hsized hpeak, Option.bind_eq_bind, Option.bind_some,
        decisions_cells hsized hpeak prices (price :: hist)]
      rfl

theorem length_decisionsFrom : ∀ (hist prices : List F),
    (decisionsFrom signals hist prices).length = prices.length
  | _, [] => rfl
  | hist, price :: prices => congrArg (· + 1) (length_decisionsFrom (price :: hist) prices)

/-- The decision at a tick is that of the prices up to it. -/
theorem getElem?_decisionsFrom : ∀ {prices hist : List F} {t : ℕ} {d : VmDecision F},
    (decisionsFrom signals hist prices)[t]? = some d →
      d = lastFired (evalSignals ((prices.take (t + 1)).reverse ++ hist) signals)
  | [], _, _, _, h => by simp [decisionsFrom] at h
  | price :: prices, hist, 0, d, h => by simpa [decisionsFrom] using h.symm
  | price :: prices, hist, t + 1, d, h => by
      rw [decisionsFrom, List.getElem?_cons_succ] at h
      rw [getElem?_decisionsFrom h, List.take_succ_cons, List.reverse_cons, List.append_assoc,
        List.singleton_append]

/-- A new machine has the states of the empty history. -/
theorem new_cells {prog : List (Op F)} (h : ∀ op ∈ prog, op.Sized) :
    Vm.new prog = ⟨prog, cells [] prog⟩ := by
  rw [Vm.new, cells]
  exact congrArg _ (List.filterMap_congr fun op hop => (cell_nil (h op hop)).symm)

/-- The decision at a tick is that of the graph. -/
theorem decides_at {spec : GraphSpec F} (hexpand : expandSignals spec spec.nodes = .ok signals)
    {prices : List F} {t : ℕ} {d : VmDecision F} (h : (decisionsFrom signals [] prices)[t]? = some d) :
    Decides spec (prices.take (t + 1)).reverse d := by
  have hd := getElem?_decisionsFrom h
  rw [List.append_nil] at hd
  exact hd ▸ decides_of_expand hexpand (prices.take (t + 1)).reverse

end Ticks

/-- **Compiler correctness.**  If the stack is deep enough for an accepted graph's program and its
parameters give the buffers a size, the machine makes at every tick the decision of the graph on
the prices up to it. -/
theorem compile_correct {spec : GraphSpec F} {prog : List (Op F)} (h : compile spec = .ok prog)
    (hpeak : peakDepth 0 prog ≤ STACK_CAP) (hsized : ∀ op ∈ prog, op.Sized) (prices : List F) :
    ∃ ds, (Vm.new prog).decisions prices = some ds ∧ ds.length = prices.length ∧
      ∀ t d, ds[t]? = some d → ∀ d', Decides spec (prices.take (t + 1)).reverse d' ↔ d' = d := by
  obtain ⟨-, signals, hexpand, rfl⟩ := compile_eq h
  refine ⟨decisionsFrom signals [] prices, ?_, length_decisionsFrom [] prices, ?_⟩
  · rw [new_cells hsized]
    exact decisions_cells hsized hpeak prices []
  · intro t d ht d'
    have hgraph := decides_at hexpand ht
    constructor
    · exact decides_unique hgraph
    · rintro rfl
      exact hgraph

/-- An average that is read twice: above 100 and below 200 buys, above 100 alone sells. -/
def sharedGraph : GraphSpec ℚ where
  nodes :=
    [⟨"d", "data_source", ∅, ∅⟩,
      ⟨"e", "ema", ExtTreeMap.ofList [("period", (3 : ℚ))], ∅⟩,
      ⟨"high", "condition", ExtTreeMap.ofList [("value", (100 : ℚ))], ∅⟩,
      ⟨"low", "condition", ExtTreeMap.ofList [("value", (200 : ℚ))],
        ExtTreeMap.ofList [("op", "less_than")]⟩,
      ⟨"band", "and_gate", ∅, ∅⟩, ⟨"s", "sell_signal", ∅, ∅⟩, ⟨"b", "buy_signal", ∅, ∅⟩]
  connections :=
    [("d", "e"), ("e", "high"), ("e", "low"), ("high", "band"), ("low", "band"), ("band", "b"),
      ("high", "s")]

/-- Its program: the average is computed three times, in a slot for each use. -/
def sharedProgram : List (Op ℚ) :=
  [Op.ema 0 3, Op.pushConst 100, Op.gt, Op.sell, Op.ema 1 3, Op.pushConst 100, Op.gt, Op.ema 2 3,
    Op.pushConst 200, Op.lt, Op.and, Op.buy]

theorem compile_correct_run : letI : F64 ℚ := F64.exact fun x => x
    ∃ ds, (Vm.new sharedProgram).decisions [90, 150, 400] = some ds ∧ ds.length = 3 ∧
      ∀ t d, ds[t]? = some d →
        ∀ d', Decides sharedGraph ([90, 150, 400].take (t + 1)).reverse d' ↔ d' = d :=
  letI : F64 ℚ := F64.exact fun x => x
  compile_correct (by decide +kernel) (by decide +kernel) (by decide +kernel) [90, 150, 400]

end HotpathIpc
