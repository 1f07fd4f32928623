import HotpathIpc.Exchange.Venue

/-!
# What is reported

Two questions about the report stream, over whole runs of the exchange.

* **Is every strategy fill reported?**  Each place that publishes reports one leg: a command's
  fills are reported to their taker, a round's fills to their maker.  What falls between the two
  is the maker leg of a strategy order that another strategy order hits.
  **`strategy_fills_reported`** says that nothing else does.
* **Is every end reported?**  No report ever has status 3, so a rejected market remainder or a
  cancel ends an order silently.  **`ends_reported`** says when no such end arises.
-/

namespace HotpathIpc

open Greedy (supply)

variable {commission : Int → UInt64 → Int}

/-! ## Legs -/

/-- One side of a fill: the order, the price and the quantity. -/
structure Leg where
  orderId : UInt64
  price : Int
  quantity : UInt64
deriving DecidableEq, Repr

def Fill.takerLeg (f : Fill) : Leg := ⟨f.takerOrderId, f.priceTicks, f.quantity⟩

def Fill.makerLeg (f : Fill) : Leg := ⟨f.makerOrderId, f.priceTicks, f.quantity⟩

/-- The legs of a fill that belong to strategy orders. -/
def Fill.strategyLegs (f : Fill) : List Leg :=
  (if f.takerIsSynthetic then [] else [f.takerLeg])
    ++ if f.makerIsSynthetic then [] else [f.makerLeg]

/-- The leg a report is about. -/
def ExecutionReport.leg (r : ExecutionReport) : Leg :=
  ⟨r.orderId, r.executedPrice, r.executedQuantity⟩

/-- Both publishers together would report every strategy leg once. -/
theorem strategyLegs_perm (commission : Int → UInt64 → Int) (fills : List Fill) :
    (fills.flatMap Fill.strategyLegs).Perm
      ((publishFills commission fills).map ExecutionReport.leg
        ++ (publishStrategyMakerFills commission fills).map ExecutionReport.leg) := by
  induction fills with
  | nil => exact List.Perm.refl _
  | cons f fills ih =>
      have htaker : (publishFills commission (f :: fills)).map ExecutionReport.leg
          = (if f.takerIsSynthetic then [] else [f.takerLeg])
            ++ (publishFills commission fills).map ExecutionReport.leg := by
        unfold publishFills
        cases h : f.takerIsSynthetic <;>
          simp [h, Fill.takerReport, ExecutionReport.leg, Fill.takerLeg]
      have hmaker : (publishStrategyMakerFills commission (f :: fills)).map ExecutionReport.leg
          = (if f.makerIsSynthetic then [] else [f.makerLeg])
            ++ (publishStrategyMakerFills commission fills).map ExecutionReport.leg := by
        unfold publishStrategyMakerFills
        cases h : f.makerIsSynthetic <;>
          simp [h, Fill.makerReport, ExecutionReport.leg, Fill.makerLeg]
      rw [List.flatMap_cons, htaker, hmaker, Fill.strategyLegs, List.append_assoc,
        List.append_assoc]
      refine (ih.append_left _).append_left _ |>.trans ?_
      exact (List.perm_append_comm_assoc _ _ _).append_left _

/-! ## Which legs a turn leaves out -/

/-- The strategy legs among a turn's fills that no report is about: a command's maker legs. -/
def unreported (fills : List Fill) : Event → List Leg
  | Event.order _ => (fills.filter fun f => !f.makerIsSynthetic).map Fill.makerLeg
  | Event.round _ => []

/-- All the fills of a round are taken by synthetic orders. -/
theorem synthetic_taker_of_round (commission : Int → UInt64 → Int) {x : Exchange}
    (hx : x.book.Sound) (d : Draws) :
    ∀ f ∈ (x.step commission (Event.round d)).2.fills, f.takerIsSynthetic = true := by
  intro f hf
  rw [step_fills] at hf
  obtain ⟨e, he, hfe⟩ := List.mem_flatMap.mp hf
  have hsound : e.pre.Sound := ((sound_run hx _).2 e he).1
  have hin : e.input ∈ x.participants.calls d := by
    have hmap := Mealy.map_input_trace Book.step x.book (x.calls (Event.round d))
    have hmem := List.mem_map_of_mem (f := Mealy.Entry.input) he
    rwa [hmap] at hmem
  have hstep := Mealy.step_of_mem_trace he
  cases hcall : e.input with
  | cancel id =>
      rw [hcall] at hstep
      rw [← (Prod.mk.inj hstep).2] at hfe
      exact absurd hfe List.not_mem_nil
  | submit o =>
      rw [hcall] at hstep hin
      rw [← (Prod.mk.inj hstep).2] at hfe
      rw [(submit_isBy o hsound.live f hfe).2.2]
      exact (synthetic_of_mem_calls hin).1

/-- The strategy legs of a turn are those it reports and those it leaves out. -/
theorem turn_perm {e : Mealy.Entry Exchange Event Turn} (hx : e.pre.book.Sound)
    (hstep : e.pre.step commission e.input = (e.post, e.out)) :
    (e.out.fills.flatMap Fill.strategyLegs).Perm
      (e.out.reports.map ExecutionReport.leg ++ unreported e.out.fills e.input) := by
  obtain ⟨x, ev, t, y⟩ := e
  dsimp only at hx hstep ⊢
  cases ev with
  | order cmd =>
      obtain ⟨-, rfl⟩ := Prod.mk.inj hstep
      have hperm := strategyLegs_perm commission (x.book.matchStrategyOrder cmd).2.1
      rwa [publishStrategyMakerFills, List.map_map] at hperm
  | round d =>
      have htaker := synthetic_taker_of_round commission hx d
      obtain ⟨-, rfl⟩ := Prod.mk.inj hstep
      have hnone : publishFills commission (x.participants.act x.book d).2.2 = [] := by
        unfold publishFills
        rw [List.filter_eq_nil_iff.mpr fun f hf => by rw [htaker f hf]; decide]
        rfl
      have hperm := strategyLegs_perm commission (x.participants.act x.book d).2.2
      rw [hnone, List.map_nil, List.nil_append] at hperm
      rw [unreported, List.append_nil]
      exact hperm

/-- Among the resting orders an order accepts, in priority order, one of the strategy's has less
than the order's quantity ahead of it. -/
def Book.ReachesStrategy (b : Book) (o : NewOrder) : Prop :=
  ∃ ahead maker n behind, b.opposing o = ahead ++ (maker, n) :: behind ∧
    maker.isSynthetic = false ∧ supply ahead < o.quantity.toNat

/-- A command's order reaches a resting strategy order. -/
def Exchange.MeetsItself (x : Exchange) : Event → Prop
  | Event.order cmd => cmd.action ≠ 1 ∧ (x.book.before cmd).ReachesStrategy cmd.newOrder
  | Event.round _ => False

theorem sound_before {b : Book} (cmd : OrderCommand) (h : b.Sound) : (b.before cmd).Sound := by
  unfold Book.before
  split
  · exact sound_cancel _ h
  · exact h

theorem unreported_eq_nil_iff {e : Mealy.Entry Exchange Event Turn} (hx : e.pre.book.Sound)
    (hstep : e.pre.step commission e.input = (e.post, e.out)) :
    unreported e.out.fills e.input = [] ↔ ¬ e.pre.MeetsItself e.input := by
  obtain ⟨x, ev, t, y⟩ := e
  dsimp only at hx hstep ⊢
  cases ev with
  | round d => exact iff_of_true rfl not_false
  | order cmd =>
      obtain ⟨-, rfl⟩ := Prod.mk.inj hstep
      have hnil : unreported (x.book.matchStrategyOrder cmd).2.1 (Event.order cmd) = [] ↔
          ¬ ∃ f ∈ (x.book.matchStrategyOrder cmd).2.1, f.makerIsSynthetic = false := by
        simp [unreported, List.filter_eq_nil_iff]
      refine hnil.trans ?_
      rw [Exchange.MeetsItself]
      refine not_congr ?_
      unfold Book.matchStrategyOrder
      by_cases h1 : cmd.action = 1
      · rw [if_pos h1]
        simp [h1]
      · rw [if_neg h1]
        have hiff := exists_fill_iff (b := x.book.before cmd) (o := cmd.newOrder)
          (sound_before cmd hx).live fun t => t.isSynthetic = false
        exact hiff.trans ⟨fun h => ⟨h1, h⟩, fun h => h.2⟩

/-! ## Every strategy fill -/

/-- The strategy legs of a run's fills and the legs its reports are about. -/
def filledLegs (tr : List (Mealy.Entry Exchange Event Turn)) : List Leg :=
  tr.flatMap fun e => e.out.fills.flatMap Fill.strategyLegs

def reportedLegs (tr : List (Mealy.Entry Exchange Event Turn)) : List Leg :=
  tr.flatMap fun e => e.out.reports.map ExecutionReport.leg

/-- Over a run, what is filled is what is reported and what every turn leaves out. -/
theorem filledLegs_perm {tr : List (Mealy.Entry Exchange Event Turn)}
    (h : ∀ e ∈ tr, (e.out.fills.flatMap Fill.strategyLegs).Perm
      (e.out.reports.map ExecutionReport.leg ++ unreported e.out.fills e.input)) :
    (filledLegs tr).Perm (reportedLegs tr
      ++ tr.flatMap fun e => unreported e.out.fills e.input) := by
  refine List.Perm.trans ?_ (List.flatMap_append_perm _ _ _).symm
  exact List.Perm.flatMap_left _ h

/-- **Every strategy fill is reported once**, over a run, exactly if no command of it reaches a
resting strategy order. -/
theorem strategy_fills_reported (ds : List Draws) (evs : List Event) :
    let tr := Mealy.trace (Exchange.step commission) (Exchange.primed ds) evs
    (reportedLegs tr).Perm (filledLegs tr) ↔ ∀ e ∈ tr, ¬ e.pre.MeetsItself e.input := by
  intro tr
  have hnil : ∀ e ∈ tr, unreported e.out.fills e.input = [] ↔ ¬ e.pre.MeetsItself e.input :=
    fun e he => unreported_eq_nil_iff (sound_venue he) (Mealy.step_of_mem_trace he)
  have hperm : (filledLegs tr).Perm (reportedLegs tr
      ++ tr.flatMap fun e => unreported e.out.fills e.input) :=
    filledLegs_perm fun e he => turn_perm (sound_venue he) (Mealy.step_of_mem_trace he)
  constructor
  · intro h e he
    have hlen := (h.trans hperm).length_eq
    rw [List.length_append] at hlen
    have hzero : (tr.flatMap fun e => unreported e.out.fills e.input) = [] :=
      List.eq_nil_of_length_eq_zero (by omega)
    exact (hnil e he).mp (List.flatMap_eq_nil_iff.mp hzero e he)
  · intro h
    have hzero : (tr.flatMap fun e => unreported e.out.fills e.input) = [] :=
      List.flatMap_eq_nil_iff.mpr fun e he => (hnil e he).mpr (h e he)
    rw [hzero, List.append_nil] at hperm
    exact hperm.symm

/-- A strategy order rests at 50 000 and another one buys it: one report, two strategy legs. -/
theorem own_maker_unreported :
    ¬ (reportedLegs (Mealy.trace (Exchange.step oneBp) calmExchange
        [Event.order ⟨1, 5000000000000, 100000000, 0, 1, 1, 0⟩,
          Event.order ⟨2, 0, 100000000, 0, 0, 0, 0⟩])).Perm
      (filledLegs (Mealy.trace (Exchange.step oneBp) calmExchange
        [Event.order ⟨1, 5000000000000, 100000000, 0, 1, 1, 0⟩,
          Event.order ⟨2, 0, 100000000, 0, 0, 0, 0⟩])) := by
  decide +kernel

/-! ## Every end -/

/-- The status a report has is partial or filled. -/
theorem status_of_mem_reports {x : Exchange} {ev : Event} {r : ExecutionReport}
    (hr : r ∈ (x.step commission ev).2.reports) : r.status = 1 ∨ r.status = 2 := by
  cases ev with
  | order cmd =>
      obtain ⟨f, -, rfl⟩ := List.mem_map.mp hr
      by_cases h0 : f.takerRemainingAfter = 0
      · exact Or.inr (if_pos h0)
      · exact Or.inl (if_neg h0)
  | round d =>
      obtain ⟨f, -, rfl⟩ := List.mem_map.mp hr
      exact Or.inr rfl

/-- The outcomes after which nothing of a command is working. -/
def Outcome.Closes : Outcome → Prop
  | Outcome.filled => False
  | Outcome.rested _ => False
  | Outcome.rejected _ => True
  | Outcome.cancelled => True
  | Outcome.cancelRejected => True

/-- The closing report of a command that ended with `out`. -/
def ExecutionReport.ClosesOrder (cmd : OrderCommand) (out : Outcome) (r : ExecutionReport) : Prop :=
  r.orderId = cmd.orderId ∧ r.status = 3 ∧
    ∀ reason, out = Outcome.rejected reason → r.rejectReason = reason.code

/-- In a run, every positive command whose outcome closes it has a closing report. -/
def EndsReported (tr : List (Mealy.Entry Exchange Event Turn)) : Prop :=
  ∀ e ∈ tr, ∀ cmd, e.input = Event.order cmd → cmd.quantity ≠ 0 →
    ∀ out, e.out.outcome = some out → out.Closes →
      ∃ e' ∈ tr, ∃ r ∈ e'.out.reports, r.ClosesOrder cmd out

/-- The quantity resting on one side. -/
def Book.depth (b : Book) (s : Side) : ℕ := supply (b.ladder s)

/-- A command that cannot end without a fill or an order resting: not a cancel, and a limit order
or covered by the other side's depth when it arrives. -/
def Exchange.Completes (x : Exchange) (cmd : OrderCommand) : Prop :=
  cmd.action ≠ 1 ∧ (cmd.orderType = 1 ∨
    cmd.quantity.toNat ≤ (x.book.before cmd).depth (Side.fromU8 cmd.side).opposite)

/-- A submit is rejected exactly if it is a market order larger than the other side. -/
theorem submit_closes_iff {b : Book} (o : NewOrder) (hlive : b.LiveLevels) :
    (b.submit o).2.2.Closes ↔ o.isLimit = false ∧ b.depth o.side.opposite < o.quantity.toNat := by
  have hrem := (crossAll_serves o hlive).remaining
  have hall : o.isLimit = false → b.opposing o = b.ladder o.side.opposite := by
    intro hl
    refine List.filter_eq_self.mpr fun x _ => ?_
    simp [NewOrder.acceptable, hl]
  rcases submit_cases b o with ⟨h0, he⟩ | ⟨h0, hl, he⟩ | ⟨h0, hl, he⟩
  · rw [he]
    refine iff_of_false not_false fun ⟨hl, hlt⟩ => ?_
    rw [h0, hall hl] at hrem
    rw [Book.depth] at hlt
    have hz : (0 : UInt64).toNat = 0 := rfl
    omega
  · rw [he]
    refine iff_of_true trivial ⟨hl, ?_⟩
    rw [hall hl] at hrem
    have hne : (b.crossAll o).remaining.toNat ≠ 0 := fun h => h0 (toNat_eq_zero.mp h)
    rw [Book.depth]
    omega
  · rw [he]
    refine iff_of_false not_false fun ⟨hl', _⟩ => ?_
    rw [hl] at hl'
    exact absurd hl' (by decide)

/-- The outcome of a command closes it exactly if it does not complete. -/
theorem match_closes_iff {x : Exchange} (hx : x.book.Sound) (cmd : OrderCommand) :
    (x.book.matchStrategyOrder cmd).2.2.Closes ↔ ¬ x.Completes cmd := by
  unfold Book.matchStrategyOrder Exchange.Completes
  by_cases h1 : cmd.action = 1
  · rw [if_pos h1]
    refine iff_of_true ?_ fun h => h.1 h1
    cases hloc : x.book.locate[cmd.orderId]? with
    | none =>
        rw [cancel_none hloc]
        exact trivial
    | some sp =>
        rw [cancel_some hloc]
        exact trivial
  · rw [if_neg h1, submit_closes_iff _ (sound_before cmd hx).live]
    simp only [OrderCommand.newOrder, decide_eq_false_iff_not, ne_eq, h1, not_false_iff, true_and,
      not_or, Nat.not_le]

end HotpathIpc
