import HotpathIpc.Pipeline.Accounts

/-!
# The books of the execution stage

What the counters, the contexts and the mark-to-market P&L of `src/bin/execution.rs` add up to, in
every run of the pipeline: any orders, any interleaving, any reports on the way.

* `Ledger` — the execution stage against the commands it received and the reports it booked.
* **`completes_once`** — no command completes twice, and there is a context or a completion for no
  more than the commands received.
* **`profit_is_holding`** — the P&L is what the position held gained from one fill price to the
  next, less the commissions.
-/

namespace HotpathIpc

open Std (ExtTreeMap)

/-! ## Completions -/

/-- The last report of an order. -/
def ExecutionReport.Completes (id : UInt64) (r : ExecutionReport) : Prop :=
  r.status = 2 ∧ r.orderId = id

instance (id : UInt64) (r : ExecutionReport) : Decidable (r.Completes id) :=
  inferInstanceAs (Decidable (_ ∧ _))

/-- The execution stage once the commands `cmds` are received and the reports `rs` booked. -/
structure Ledger (cmds : List OrderCommand) (rs : List ExecutionReport) (x : Execution) :
    Prop where
  fills : x.fills = rs.length
  completed : x.completedOrders = rs.countP fun r => r.status = 2
  /-- a completion uses up a context -/
  contexts : ∀ id, (rs.countP fun r => r.Completes id) + (if id ∈ x.orderCtx then 1 else 0)
    ≤ cmds.countP fun cmd => cmd.orderId = id
  size : x.completedOrders + x.orderCtx.size ≤ cmds.length

namespace Ledger

variable {cmds : List OrderCommand} {rs : List ExecutionReport} {x : Execution}

theorem new : Ledger [] [] Execution.new :=
  ⟨rfl, rfl, fun id => by simp [Execution.new], by simp [Execution.new]⟩

theorem phase (h : Ledger cmds rs x) (ph : Phase) : Ledger cmds rs { x with phase := ph } :=
  ⟨h.fills, h.completed, h.contexts, h.size⟩

/-- A command received can add a context. -/
theorem order (h : Ledger cmds rs x) (cmd : OrderCommand) :
    Ledger (cmds ++ [cmd]) rs (x.order cmd) := by
  refine ⟨h.fills, h.completed, fun id => ?_, ?_⟩
  · have hid := h.contexts id
    rw [Execution.order, List.countP_append, List.countP_singleton]
    by_cases heq : cmd.orderId = id
    · simp only [heq, decide_true, if_true]
      split <;> omega
    · have hmem : id ∈ x.orderCtx.insert cmd.orderId (cmd.originTs, cmd.side) ↔ id ∈ x.orderCtx := by
        rw [ExtTreeMap.mem_insert]
        simp [heq]
      simp only [hmem]
      omega
  · have hsize := h.size
    have hinsert := ExtTreeMap.size_insert_le (t := x.orderCtx) (k := cmd.orderId)
      (v := (cmd.originTs, cmd.side))
    rw [List.length_append, List.length_singleton]
    show x.completedOrders + (x.orderCtx.insert cmd.orderId (cmd.originTs, cmd.side)).size ≤ _
    omega

/-- A report booked can use up a context, which was there. -/
theorem book (h : Ledger cmds rs x) (maxFills : ℕ) {r : ExecutionReport} {ctx : UInt64 × UInt8}
    (hctx : x.orderCtx[r.orderId]? = some ctx) :
    Ledger cmds (rs ++ [r]) (x.book maxFills r ctx) := by
  have hmem : r.orderId ∈ x.orderCtx := by
    rw [ExtTreeMap.mem_iff_isSome_getElem?, hctx]
    rfl
  have hfills : (x.book maxFills r ctx).fills = (rs ++ [r]).length := by
    rw [List.length_append, List.length_singleton, ← h.fills, Execution.book]
    dsimp only
    split <;> rfl
  have hcount : ∀ p : ExecutionReport → Bool,
      (rs ++ [r]).countP p = rs.countP p + if p r then 1 else 0 := fun p => by
    rw [List.countP_append, List.countP_singleton]
  by_cases h2 : r.status = 2
  · have hbook : (x.book maxFills r ctx).orderCtx = x.orderCtx.erase r.orderId ∧
        (x.book maxFills r ctx).completedOrders = x.completedOrders + 1 := by
      simp [Execution.book, h2]
    have hpos : 0 < x.orderCtx.size := by
      refine Nat.pos_of_ne_zero fun h0 => ?_
      rw [ExtTreeMap.eq_empty_iff_size_eq_zero.mpr h0] at hmem
      exact ExtTreeMap.not_mem_empty hmem
    refine ⟨hfills, ?_, fun id => ?_, ?_⟩
    · rw [hbook.2, hcount, h.completed]
      simp [h2]
    · have hid := h.contexts id
      rw [hbook.1, hcount]
      by_cases heq : r.orderId = id
      · subst heq
        simpa [ExecutionReport.Completes, h2, hmem] using hid
      · simpa [ExecutionReport.Completes, heq] using hid
    · have hsize := h.size
      rw [hbook.1, hbook.2, ExtTreeMap.size_erase,
        if_pos (ExtTreeMap.contains_iff_mem.mpr hmem)]
      omega
  · have hbook : (x.book maxFills r ctx).orderCtx = x.orderCtx ∧
        (x.book maxFills r ctx).completedOrders = x.completedOrders := by
      simp [Execution.book, h2]
    refine ⟨hfills, ?_, fun id => ?_, ?_⟩
    · rw [hbook.2, hcount, h.completed]
      simp [h2]
    · rw [hbook.1, hcount]
      simpa [ExecutionReport.Completes, h2] using h.contexts id
    · rw [hbook.1, hbook.2]
      exact h.size

end Ledger

section Runs

variable (commission : Int → UInt64 → Int) (maxFills : ℕ) (ds : List Draws) (as : List Action)

theorem ledger_step {s : Pipeline} {cmds : List OrderCommand} {rs : List ExecutionReport}
    (a : Action) (h : Ledger cmds rs s.execution) :
    Ledger (cmds ++ (s.step commission maxFills a).2.orders)
      (rs ++ (s.step commission maxFills a).2.booked)
      (s.step commission maxFills a).1.execution := by
  rcases execution_cases commission maxFills s a with ⟨ph, hx, ho, hb⟩ | ⟨cmd, rest, -, ho, hx⟩
      | ⟨r, ctx, hctx, ho, hx⟩
  · rw [hx, ho, hb, List.append_nil, List.append_nil]
    exact h.phase ph
  · rw [hx, ho]
    simpa using h.order cmd
  · rw [hx, ho]
    simpa using h.book maxFills hctx

theorem ledger_run :
    let tr := Mealy.trace (Pipeline.step commission maxFills) (Pipeline.start ds) as
    Ledger (ordersOf tr) (bookedOf tr)
      (Mealy.exec (Pipeline.step commission maxFills) (Pipeline.start ds) as).execution := by
  refine Mealy.history_invariant
    (J := fun h s => Ledger (ordersOf h) (bookedOf h) s.execution) (g := fun _ _ _ => True)
    (fun h s a hs _ => ?_) as Ledger.new fun _ _ _ _ => trivial
  have hstep := ledger_step commission maxFills a hs
  simpa [ordersOf, bookedOf] using hstep

/-- **No command completes twice.**  In every run: under every id no more reports completed than
commands were sent, each booked report counts as one fill and each completion as one order, and
completions and contexts together are no more than the commands sent. -/
theorem completes_once (commission : Int → UInt64 → Int) (maxFills : ℕ) (ds : List Draws)
    (as : List Action) :
    let rs := bookedOf (Mealy.trace (Pipeline.step commission maxFills) (Pipeline.start ds) as)
    let x := (Mealy.exec (Pipeline.step commission maxFills) (Pipeline.start ds) as).execution
    (∀ id, (rs.countP fun r => r.Completes id)
        ≤ (sentCommands as).countP fun cmd => cmd.orderId = id) ∧
      x.fills = rs.length ∧ x.completedOrders = (rs.countP fun r => r.status = 2) ∧
      x.completedOrders + x.orderCtx.size ≤ (sentCommands as).length := by
  intro rs x
  have h := ledger_run commission maxFills ds as
  obtain ⟨-, hsent, -⟩ := queues_trace commission maxFills ds as
  refine ⟨fun id => ?_, h.fills, h.completed, ?_⟩
  · have hid := h.contexts id
    rw [← hsent, List.countP_append]
    exact (Nat.le_of_add_right_le hid).trans (Nat.le_add_right _ _)
  · rw [← hsent, List.length_append]
    exact h.size.trans (Nat.le_add_right _ _)

/-! ## The P&L -/

/-- Mark-to-market P&L: realized cash flow and the value of the open position. -/
def Execution.equity (x : Execution) : ℚ := x.cash + x.position * x.lastPrice

/-- What holding the position from the last fill price to that of a report gained, less its
commission. -/
def Execution.holding (x : Execution) (r : ExecutionReport) : ℚ :=
  x.position * (r.executedPrice / scale - x.lastPrice) - r.commission / scale

/-- A fill is marked at its own price, so what it trades it is worth. -/
theorem equity_book (x : Execution) (r : ExecutionReport) (ctx : UInt64 × UInt8) :
    (x.book maxFills r ctx).equity = x.equity + x.holding r := by
  by_cases hside : ctx.2 = 0 <;> by_cases h2 : r.status = 2 <;>
    simp [Execution.book, Execution.equity, Execution.holding, hside, h2] <;> ring

/-- **The P&L is made by holding.**  In every run, whatever is bought and sold: the P&L is the sum,
over the reports booked, of what the position before each gained since the fill before it, less
all commissions. -/
theorem profit_is_holding :
    (Mealy.exec (Pipeline.step commission maxFills) (Pipeline.start ds) as).execution.equity
      = ((Mealy.trace (Pipeline.step commission maxFills) (Pipeline.start ds) as).map fun e =>
          (e.out.booked.map e.pre.execution.holding).sum).sum := by
  have hstep : ∀ e ∈ Mealy.trace (Pipeline.step commission maxFills) (Pipeline.start ds) as,
      e.post.execution.equity + 0 = e.pre.execution.equity
        + (e.out.booked.map e.pre.execution.holding).sum := by
    intro e he
    have hs := Mealy.step_of_mem_trace he
    have hpost : (Pipeline.step commission maxFills e.pre e.input).1 = e.post := congrArg Prod.fst hs
    have hout : (Pipeline.step commission maxFills e.pre e.input).2 = e.out := congrArg Prod.snd hs
    have hcases := execution_cases commission maxFills e.pre e.input
    rw [hpost, hout] at hcases
    rcases hcases with ⟨ph, hx, -, hb⟩ | ⟨cmd, rest, -, ho, hx⟩ | ⟨r, ctx, -, ho, hx⟩
    · rw [hx, hb]
      rfl
    · rw [hx, ho]
      rfl
    · rw [hx, ho, equity_book]
      simp
  have hrun := Mealy.conserve (fun s : Pipeline => s.execution.equity) _ (fun _ => 0) hstep
  have hstart : (Pipeline.start ds).execution.equity = 0 := by
    simp [Pipeline.start, Execution.new, Execution.equity]
  rw [List.map_const', List.sum_replicate, nsmul_zero, add_zero, hstart, zero_add] at hrun
  exact hrun

end Runs

end HotpathIpc
