import HotpathIpc.Pipeline.Delivery
import Mathlib.Algebra.BigOperators.Ring.List
import Mathlib.Algebra.BigOperators.Ring.Finset

/-!
# Position and cash agree with the venue

The execution stage learns of fills from reports that carry neither a side nor the quantity
ordered.  In a marketable run in which no report overtakes its command it books every report
(`booked_eq_published`), each with the side of its own command, so a total that grows by `w r side`
with each booked report ends at a sum over the orders that the exchange matched (`meter_run`).

Position, cash and the count of completed orders are three such totals: `accounts_agree`.
-/

namespace HotpathIpc

variable {commission : Int → UInt64 → Int}

/-! ## What the venue says -/

/-- +1 for a buy, -1 for a sell. -/
def direction (side : UInt8) : ℚ := if side = 0 then 1 else -1

/-- The fills of an order that meets a book. -/
def fillsOn (p : Book × OrderCommand) : List Fill := (p.1.submit p.2.newOrder).2.1

/-- Price times quantity over the fills of an order. -/
def traded (p : Book × OrderCommand) : ℚ :=
  ((fillsOn p).map fun f => (f.priceTicks : ℚ) / scale * (f.quantity.toNat / scale)).sum

/-- The commissions on the fills of an order. -/
def commissions (commission : Int → UInt64 → Int) (p : Book × OrderCommand) : ℚ :=
  ((fillsOn p).map fun f => (commission f.priceTicks f.quantity : ℚ) / scale).sum

/-- The order is of positive quantity and its submit returned `Filled`. -/
def Completes (p : Book × OrderCommand) : Prop :=
  p.2.quantity ≠ 0 ∧ (p.1.submit p.2.newOrder).2.2 = Outcome.filled

instance (p : Book × OrderCommand) : Decidable (Completes p) :=
  inferInstanceAs (Decidable (_ ∧ _))

/-- The accounts `x` say what the venue's matches `ps` of the commands `cmds` say. -/
structure Agrees (commission : Int → UInt64 → Int) (cmds : List OrderCommand)
    (ps : List (Book × OrderCommand)) (x : Execution) : Prop where
  /-- every command is matched, once and in order -/
  commands : ps.map Prod.snd = cmds
  position : x.position = (ps.map fun p => direction p.2.side *
    ((p.2.quantity.toNat - p.1.rejectedRemainder p.2.newOrder) / scale)).sum
  cash : x.cash = (ps.map fun p => -direction p.2.side * traded p).sum
    - (ps.map (commissions commission)).sum
  completed : x.completedOrders = ps.countP fun p => Completes p
  contexts : ∀ id ctx, x.orderCtx[id]? = some ctx ↔
    ∃ p ∈ ps, p.2.orderId = id ∧ ctx = (p.2.originTs, p.2.side) ∧ ¬ Completes p

/-! ## Totals of the execution stage -/

/-- The side commanded under an id. -/
def sideOf (cmds : List OrderCommand) (id : UInt64) : UInt8 :=
  ((cmds.find? fun c => c.orderId = id).map OrderCommand.side).getD 0

theorem sideOf_of_mem {cmds : List OrderCommand}
    (hn : (cmds.map OrderCommand.orderId).Nodup) {cmd : OrderCommand} (h : cmd ∈ cmds) :
    sideOf cmds cmd.orderId = cmd.side := by
  obtain ⟨c, hc⟩ : ∃ c, cmds.find? (fun c => c.orderId = cmd.orderId) = some c :=
    Option.isSome_iff_exists.mp (List.find?_isSome.mpr ⟨cmd, h, by simp⟩)
  have hid : c.orderId = cmd.orderId := by simpa using List.find?_some hc
  have heq : c = cmd := List.inj_on_of_nodup_map hn (List.mem_of_find?_eq_some hc) h hid
  rw [sideOf, hc, heq]
  rfl

theorem sum_map_flatMap {α β M : Type*} [AddCommMonoid M] (f : α → List β) (w : β → M)
    (xs : List α) : ((xs.flatMap f).map w).sum = (xs.map fun x => ((f x).map w).sum).sum := by
  induction xs with
  | nil => rfl
  | cons x xs ih => rw [List.flatMap_cons, List.map_append, List.sum_append, ih, List.map_cons,
      List.sum_cons]

theorem sum_map_sub {α M : Type*} [AddCommGroup M] (f g : α → M) (xs : List α) :
    (xs.map fun x => f x - g x).sum = (xs.map f).sum - (xs.map g).sum := by
  induction xs with
  | nil => simp
  | cons x xs ih => simp only [List.map_cons, List.sum_cons, ih, add_sub_add_comm]

theorem countP_eq_sum {α : Type*} (p : α → Prop) [DecidablePred p] (xs : List α) :
    xs.countP (fun x => p x) = (xs.map fun x => if p x then 1 else 0).sum := by
  induction xs with
  | nil => rfl
  | cons x xs ih => simp [List.countP_cons, ih, add_comm]

/-- A total of the execution stage that grows by `w r side` with each report it books. -/
structure Meter {M : Type*} [AddCommMonoid M] (total : Execution → M)
    (w : ExecutionReport → UInt8 → M) : Prop where
  phase : ∀ x ph, total { x with phase := ph } = total x
  order : ∀ x cmd, total (x.order cmd) = total x
  book : ∀ maxFills x r ctx, total (x.book maxFills r ctx) = total x + w r ctx.2

section Runs

variable {ds : List Draws} {as : List Action}

/-- A context that is found is that of the command. -/
theorem side_of_ctx (h : Marketable as) {e : Move}
    (he : e ∈ Mealy.trace (Pipeline.step commission 0) (Pipeline.start ds) as)
    {id : UInt64} {ctx : UInt64 × UInt8} (hctx : e.pre.execution.orderCtx[id]? = some ctx) :
    ctx.2 = sideOf (sentCommands as) id := by
  obtain ⟨h₁, h₂, hsplit⟩ := List.append_of_mem he
  obtain ⟨as₁, as₂, rfl, -, hpre, -, -⟩ := Mealy.trace_split hsplit
  rw [hpre] at hctx
  obtain ⟨cmd, hcmd, rfl, rfl, -⟩ := ((contexts_trace commission 0 ds h.left).lookup id ctx).mp hctx
  have hsent : cmd ∈ sentCommands as₁ := by
    rw [← (queues_trace commission 0 ds as₁).2.1]
    exact List.mem_append_left _ hcmd
  refine (sideOf_of_mem h.fresh ?_).symm
  rw [sentCommands_append]
  exact List.mem_append_left _ hsent

theorem meter_trace {M : Type*} [AddCommMonoid M] {total : Execution → M}
    {w : ExecutionReport → UInt8 → M} (hm : Meter total w) (h : Marketable as) :
    total (Mealy.exec (Pipeline.step commission 0) (Pipeline.start ds) as).execution
      = total Execution.new
        + ((bookedOf (Mealy.trace (Pipeline.step commission 0) (Pipeline.start ds) as)).map
            fun r => w r (sideOf (sentCommands as) r.orderId)).sum := by
  have hstep : ∀ e ∈ Mealy.trace (Pipeline.step commission 0) (Pipeline.start ds) as,
      total e.post.execution + 0 = total e.pre.execution
        + (e.out.booked.map fun r => w r (sideOf (sentCommands as) r.orderId)).sum := by
    intro e he
    have hs := Mealy.step_of_mem_trace he
    have hpost : (Pipeline.step commission 0 e.pre e.input).1 = e.post := congrArg Prod.fst hs
    have hout : (Pipeline.step commission 0 e.pre e.input).2 = e.out := congrArg Prod.snd hs
    have hcases := execution_cases commission 0 e.pre e.input
    rw [hpost, hout] at hcases
    rcases hcases with ⟨ph, hx, -, hb⟩ | ⟨cmd, rest, -, ho, hx⟩ | ⟨r, ctx, hctx, ho, hx⟩
    · simp only [hx, hb, hm.phase, List.map_nil, List.sum_nil]
    · simp only [hx, ho, hm.order, Seen.booked, List.map_nil, List.sum_nil]
    · simp only [hx, ho, hm.book, side_of_ctx h he hctx, Seen.booked, List.map_cons, List.map_nil,
        List.sum_cons, List.sum_nil, add_zero]
  have hrun := Mealy.conserve (fun s : Pipeline => total s.execution) _ (fun _ => 0) hstep
  rw [List.map_const', List.sum_replicate, nsmul_zero, add_zero] at hrun
  rw [hrun, sum_map_flatMap]
  rfl

/-! ## Every report is booked -/

/-- If no report overtakes its command, the reports booked are the reports received. -/
theorem booked_eq_received (h : Marketable as)
    (hno : ∀ e ∈ Mealy.trace (Pipeline.step commission 0) (Pipeline.start ds) as,
      ¬ e.pre.Overtaken e.input) :
    bookedOf (Mealy.trace (Pipeline.step commission 0) (Pipeline.start ds) as)
      = receivedOf (Mealy.trace (Pipeline.step commission 0) (Pipeline.start ds) as) := by
  refine List.flatMap_congr fun e he => ?_
  cases ho : e.out with
  | nothing => rfl
  | turn ev t => rfl
  | order cmd => rfl
  | report r v =>
      rw [(verdict_of_mem h he ho).2 (hno e he)]
      rfl

/-- Everything sent has been received. -/
structure Consumed (s : Pipeline) : Prop where
  toExchange : s.toExchange = []
  toExecution : s.toExecution = []
  inFlight : s.inFlight = []

/-- **A total of the execution stage is a sum over the venue's matches.** -/
theorem meter_run {M : Type*} [AddCommMonoid M] {total : Execution → M}
    {w : ExecutionReport → UInt8 → M} (hm : Meter total w) (h : Marketable as)
    (hno : ∀ e ∈ Mealy.trace (Pipeline.step commission 0) (Pipeline.start ds) as,
      ¬ e.pre.Overtaken e.input)
    (hend : Consumed (Mealy.exec (Pipeline.step commission 0) (Pipeline.start ds) as)) :
    total (Mealy.exec (Pipeline.step commission 0) (Pipeline.start ds) as).execution
      = total Execution.new
        + ((matchedOf (Mealy.trace (Pipeline.step commission 0) (Pipeline.start ds) as)).map
            fun p => ((fillsOn p).map fun f => w (f.takerReport commission) p.2.side).sum).sum := by
  obtain ⟨htaken, -, hflow⟩ := queues_trace commission 0 ds as
  obtain ⟨hpub, hlive, -, -⟩ := published_trace commission 0 ds h
  rw [hend.inFlight, List.append_nil] at hflow
  rw [meter_trace hm h, booked_eq_received h hno, hflow, hpub, sum_map_flatMap]
  refine congrArg (_ + ·) (congrArg List.sum (List.map_congr_left fun p hp => ?_))
  have hside : sideOf (sentCommands as) p.2.orderId = p.2.side := by
    refine sideOf_of_mem h.fresh ?_
    rw [← htaken]
    exact List.mem_append_left _ (List.mem_map_of_mem hp)
  rw [marketReports, List.map_map]
  refine congrArg List.sum (List.map_congr_left fun f hf => ?_)
  have hid : f.takerOrderId = p.2.orderId := (submit_isBy _ (hlive p hp).1 f hf).1
  rw [Function.comp_apply, ← hside, ← hid]
  rfl

/-! ## Position, cash, completed orders -/

theorem meter_position : Meter Execution.position
    fun r side => direction side * ((r.executedQuantity.toNat : ℚ) / scale) where
  phase _ _ := rfl
  order _ _ := rfl
  book maxFills x r ctx := by
    by_cases hs : ctx.2 = 0 <;> by_cases h2 : r.status = 2 <;>
      simp [Execution.book, direction, hs, h2] <;> ring

theorem meter_cash : Meter Execution.cash
    fun r side => -direction side * ((r.executedPrice : ℚ) / scale
      * (r.executedQuantity.toNat / scale)) - r.commission / scale where
  phase _ _ := rfl
  order _ _ := rfl
  book maxFills x r ctx := by
    by_cases hs : ctx.2 = 0 <;> by_cases h2 : r.status = 2 <;>
      simp [Execution.book, direction, hs, h2] <;> ring

theorem meter_completed : Meter Execution.completedOrders
    fun r _ => if r.status = 2 then 1 else 0 where
  phase _ _ := rfl
  order _ _ := rfl
  book maxFills x r ctx := by
    by_cases h2 : r.status = 2 <;> simp [Execution.book, h2]

/-- The position an order leaves: what was commanded less what was rejected. -/
theorem sum_position {p : Book × OrderCommand} (hlive : p.1.LiveLevels) (hm : p.2.IsNewMarket) :
    ((fillsOn p).map fun f => direction p.2.side * ((f.quantity.toNat : ℚ) / scale)).sum
      = direction p.2.side
        * ((p.2.quantity.toNat - p.1.rejectedRemainder p.2.newOrder) / scale) := by
  have hsum : ((fillsOn p).map fun f => f.quantity.toNat).sum + p.1.rejectedRemainder p.2.newOrder
      = p.2.quantity.toNat := sum_fills_market hlive (isLimit_newMarket hm)
  have hcast : ((fillsOn p).map fun f => (f.quantity.toNat : ℚ)).sum
      = p.2.quantity.toNat - p.1.rejectedRemainder p.2.newOrder := by
    rw [eq_sub_iff_add_eq, ← hsum, Nat.cast_add, Nat.cast_list_sum, List.map_map]
    rfl
  simp only [div_eq_mul_inv, ← mul_assoc]
  rw [List.sum_map_mul_right, List.sum_map_mul_left, hcast]

/-- The cash an order moves. -/
theorem sum_cash (p : Book × OrderCommand) :
    ((fillsOn p).map fun f => -direction p.2.side * ((f.priceTicks : ℚ) / scale
        * (f.quantity.toNat / scale)) - (commission f.priceTicks f.quantity : ℚ) / scale).sum
      = -direction p.2.side * traded p - commissions commission p := by
  rw [sum_map_sub, List.sum_map_mul_left]
  rfl

theorem countP_terminal {p : Book × OrderCommand} (hlive : p.1.LiveLevels) :
    (fillsOn p).countP (fun f => f.takerRemainingAfter = 0) = if Completes p then 1 else 0 :=
  (terminal_fills p.2.newOrder hlive).2

theorem status_takerReport (f : Fill) :
    (f.takerReport commission).status = 2 ↔ f.takerRemainingAfter = 0 := by
  by_cases h0 : f.takerRemainingAfter = 0 <;> simp [Fill.takerReport, h0]

/-- An order completes exactly if one of its reports is terminal. -/
theorem completes_iff (commission : Int → UInt64 → Int) {p : Book × OrderCommand}
    (hlive : p.1.LiveLevels) :
    Completes p ↔ ∃ r ∈ marketReports commission p, r.status = 2 := by
  have hpos : 0 < (fillsOn p).countP (fun f => f.takerRemainingAfter = 0) ↔ Completes p := by
    rw [countP_terminal hlive]
    by_cases hc : Completes p <;> simp [hc]
  rw [← hpos, List.countP_pos_iff]
  constructor
  · rintro ⟨f, hf, h0⟩
    exact ⟨_, List.mem_map_of_mem hf, (status_takerReport f).mpr (by simpa using h0)⟩
  · rintro ⟨_, hr, h2⟩
    obtain ⟨f, hf, rfl⟩ := List.mem_map.mp hr
    exact ⟨f, hf, by simpa using (status_takerReport f).mp h2⟩

/-- **The contexts left at the end** are those of the orders that did not complete. -/
theorem contexts_left (h : Marketable as)
    (hno : ∀ e ∈ Mealy.trace (Pipeline.step commission 0) (Pipeline.start ds) as,
      ¬ e.pre.Overtaken e.input)
    (hend : Consumed (Mealy.exec (Pipeline.step commission 0) (Pipeline.start ds) as))
    (id : UInt64) (ctx : UInt64 × UInt8) :
    (Mealy.exec (Pipeline.step commission 0) (Pipeline.start ds) as).execution.orderCtx[id]?
        = some ctx ↔
      ∃ p ∈ matchedOf (Mealy.trace (Pipeline.step commission 0) (Pipeline.start ds) as),
        p.2.orderId = id ∧ ctx = (p.2.originTs, p.2.side) ∧ ¬ Completes p := by
  obtain ⟨htaken, hdrained, hflow⟩ := queues_trace commission 0 ds as
  obtain ⟨hpub, hlive, -, -⟩ := published_trace commission 0 ds h
  rw [hend.toExchange, List.append_nil] at htaken
  rw [hend.toExecution, List.append_nil] at hdrained
  rw [hend.inFlight, List.append_nil] at hflow
  rw [(contexts_trace commission 0 ds h).lookup, hdrained, booked_eq_received h hno, hflow, hpub,
    ← htaken]
  have hids : ((matchedOf (Mealy.trace (Pipeline.step commission 0) (Pipeline.start ds) as)).map
      fun p => p.2.orderId).Nodup := by
    have hn := h.fresh
    rwa [← htaken, List.map_map] at hn
  -- among the reports, those of an order are told by its id
  have hown : ∀ p ∈ matchedOf (Mealy.trace (Pipeline.step commission 0) (Pipeline.start ds) as),
      (∀ r ∈ (matchedOf (Mealy.trace (Pipeline.step commission 0) (Pipeline.start ds) as)).flatMap
          (marketReports commission), r.status = 2 → r.orderId ≠ p.2.orderId) ↔ ¬ Completes p := by
    intro p hp
    rw [completes_iff commission (hlive p hp).1]
    constructor
    · rintro hall ⟨r, hr, h2⟩
      exact hall r (List.mem_flatMap_of_mem hp hr) h2
        ((marketReports_spec (hlive p hp).1).1 r hr).1
    · intro hnone r hr h2 heq
      obtain ⟨p', hp', hr'⟩ := List.mem_flatMap.mp hr
      have hid := ((marketReports_spec (hlive p' hp').1).1 r hr').1
      have hpp : p' = p := List.inj_on_of_nodup_map hids hp' hp (hid.symm.trans heq)
      exact hnone ⟨r, hpp ▸ hr', h2⟩
  constructor
  · rintro ⟨cmd, hcmd, rfl, rfl, hterm⟩
    obtain ⟨p, hp, rfl⟩ := List.mem_map.mp hcmd
    exact ⟨p, hp, rfl, rfl, (hown p hp).mp hterm⟩
  · rintro ⟨p, hp, rfl, rfl, hc⟩
    exact ⟨p.2, List.mem_map_of_mem hp, rfl, rfl, (hown p hp).mpr hc⟩

/-- **Position and cash agree with the venue.** -/
theorem accounts_agree (commission : Int → UInt64 → Int) (ds : List Draws) (as : List Action)
    (h : Marketable as)
    (hno : ∀ e ∈ Mealy.trace (Pipeline.step commission 0) (Pipeline.start ds) as,
      ¬ e.pre.Overtaken e.input)
    (hend : Consumed (Mealy.exec (Pipeline.step commission 0) (Pipeline.start ds) as)) :
    Agrees commission (sentCommands as)
      (matchedOf (Mealy.trace (Pipeline.step commission 0) (Pipeline.start ds) as))
      (Mealy.exec (Pipeline.step commission 0) (Pipeline.start ds) as).execution where
  commands := by
    have htaken := (queues_trace commission 0 ds as).1
    rwa [hend.toExchange, List.append_nil] at htaken
  position := by
    obtain ⟨-, hlive, -, -⟩ := published_trace commission 0 ds h
    rw [meter_run meter_position h hno hend]
    refine (zero_add _).trans (congrArg List.sum (List.map_congr_left fun p hp => ?_))
    exact sum_position (hlive p hp).1 (hlive p hp).2
  cash := by
    rw [meter_run meter_cash h hno hend, ← sum_map_sub]
    refine (zero_add _).trans (congrArg List.sum (List.map_congr_left fun p _ => ?_))
    exact sum_cash p
  completed := by
    obtain ⟨-, hlive, -, -⟩ := published_trace commission 0 ds h
    rw [meter_run meter_completed h hno hend, countP_eq_sum]
    refine (zero_add _).trans (congrArg List.sum (List.map_congr_left fun p hp => ?_))
    simp only [status_takerReport]
    rw [← countP_eq_sum, countP_terminal (hlive p hp).1]
  contexts := contexts_left h hno hend

/-- A buy of two units, and a sell of one more than the book holds. -/
def buyThenSell : List Action :=
  [Action.send ⟨1, 0, 200000000, 0, 0, 0, 0⟩, Action.send ⟨2, 0, 6600000000, 0, 1, 0, 0⟩,
    Action.take, Action.publish, Action.publish, Action.round calmRound, Action.take]
    ++ List.replicate 65 Action.publish ++ List.replicate 136 Action.receive

theorem accounts_agree_run :
    Agrees oneBp (sentCommands buyThenSell)
      (matchedOf (Mealy.trace (Pipeline.step oneBp 0)
        (Pipeline.start (List.replicate 64 calmRound)) buyThenSell))
      (Mealy.exec (Pipeline.step oneBp 0)
        (Pipeline.start (List.replicate 64 calmRound)) buyThenSell).execution :=
  accounts_agree oneBp _ buyThenSell ⟨by decide +kernel, by decide +kernel⟩ (by decide +kernel)
    ⟨by decide +kernel, by decide +kernel, by decide +kernel⟩

end Runs

end HotpathIpc
