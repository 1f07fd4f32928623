import HotpathIpc.OrderBook.View

/-!
# Splitting a taker

A taker of `q₁ + q₂` and two takers of `q₁` and `q₂`, one right after the other, take the same
from every maker: the second loop resumes where the first one stopped, wherever that was.

* `liquidity_split`, `opposing_split` — what the second taker still finds.
* **`split_taker`** — makers' totals and the opposite side agree; for market orders the whole
  book does, for limit orders with one limit the sum resting there.
-/

namespace HotpathIpc

open Std (ExtTreeMap)
open Greedy (supply consume residue exhausted)

/-- What fills execute of one maker at one price. -/
def executedAt (maker : UInt64) (px : Int) (fs : List Fill) : ℕ :=
  ((fs.filter fun f => f.makerOrderId = maker ∧ f.priceTicks = px).map
    fun f => f.quantity.toNat).sum

theorem executedAt_append (maker : UInt64) (px : Int) (fs gs : List Fill) :
    executedAt maker px (fs ++ gs) = executedAt maker px fs + executedAt maker px gs := by
  simp [executedAt]

/-- In terms of what the demand takes. -/
theorem executedAt_eq (maker : UInt64) (px : Int) (s : Side) (fs : List Fill) :
    executedAt maker px fs
      = (((fs.map (Fill.take s)).filter fun t =>
          decide (t.tag.orderId = maker ∧ t.tag.price = px)).map Greedy.Take.amount).sum := by
  rw [List.filter_map, List.map_map]
  rfl

/-- A part of an order: another id and quantity, the rest unchanged. -/
def NewOrder.part (o : NewOrder) (orderId quantity : UInt64) : NewOrder :=
  { o with orderId := orderId, quantity := quantity }

@[simp] theorem opposing_part (b : Book) (o : NewOrder) (id q : UInt64) :
    b.opposing (o.part id q) = b.opposing o := rfl

@[simp] theorem outOfReach_part (b : Book) (o : NewOrder) (id q : UInt64) :
    b.outOfReach (o.part id q) = b.outOfReach o := rfl

@[simp] theorem liquidity_part (b : Book) (o : NewOrder) (id q : UInt64) :
    b.liquidity (o.part id q) = b.liquidity o := rfl

variable {b : Book} {o : NewOrder}

/-! ## After the first part -/

/-- **What the second part finds**: what the first left of the orders within reach, and all the
others. -/
theorem opposing_split (o : NewOrder) (hlive : b.LiveLevels) (id q : UInt64) :
    ((b.submit (o.part id q)).1).opposing o = residue q.toNat (b.opposing o) ∧
      ((b.submit (o.part id q)).1).outOfReach o = b.outOfReach o := by
  have hs := crossAll_serves (o.part id q) hlive
  have hhalf := Book.ladder_eq_of_half (half_submit_opposite b (o.part id q))
  obtain ⟨hin, hout⟩ := opposing_crossed hs
  exact ⟨(congrArg (List.filter _) hhalf).trans hin, (congrArg (List.filter _) hhalf).trans hout⟩

theorem liquidity_split (o : NewOrder) (hlive : b.LiveLevels) (id q : UInt64) :
    ((b.submit (o.part id q)).1).liquidity o = b.liquidity o - q.toNat := by
  rw [liquidity_eq, (opposing_split o hlive id q).1, Greedy.supply_residue, liquidity_eq]

/-- What one taker leaves of the opposite ladder. -/
theorem ladder_submit_opposite (o : NewOrder) (hlive : b.LiveLevels) (id q : UInt64) :
    ((b.submit (o.part id q)).1).ladder o.side.opposite
      = residue q.toNat (b.opposing o) ++ b.outOfReach o := by
  have hhalf := Book.ladder_eq_of_half (half_submit_opposite b (o.part id q))
  exact hhalf.trans (crossAll_serves (o.part id q) hlive).ladder

/-- What one taker takes from one maker. -/
theorem executedAt_submit (o : NewOrder) (hlive : b.LiveLevels) (id q maker : UInt64) (px : Int) :
    executedAt maker px (b.submit (o.part id q)).2.1
      = (((consume q.toNat (b.opposing o)).filter fun t =>
          decide (t.tag.orderId = maker ∧ t.tag.price = px)).map Greedy.Take.amount).sum := by
  rw [submit_fills, executedAt_eq maker px o.side.opposite]
  exact congrArg (fun ts => ((List.filter _ ts).map Greedy.Take.amount).sum)
    (crossAll_serves (o.part id q) hlive).fills

/-! ## Both parts -/

section Split

variable {id id₁ id₂ q₁ q₂ : UInt64}

theorem toNat_add_of_lt (h : q₁.toNat + q₂.toNat < 2 ^ 64) :
    (q₁ + q₂).toNat = q₁.toNat + q₂.toNat := by
  rw [UInt64.toNat_add, Nat.mod_eq_of_lt h]

/-- Every maker gives the two parts together what it gives the whole. -/
theorem executedAt_split (o : NewOrder) (hlive : b.LiveLevels)
    (h : q₁.toNat + q₂.toNat < 2 ^ 64) (maker : UInt64) (px : Int) :
    executedAt maker px (b.submit (o.part id (q₁ + q₂))).2.1
      = executedAt maker px (b.submit (o.part id₁ q₁)).2.1
        + executedAt maker px ((b.submit (o.part id₁ q₁)).1.submit (o.part id₂ q₂)).2.1 := by
  have hlive₁ : (b.submit (o.part id₁ q₁)).1.LiveLevels :=
    submit_book (crossAll_serves _ hlive).live
      fun hrem => live_rest (crossAll_serves _ hlive).live hrem
  rw [executedAt_submit o hlive, executedAt_submit o hlive, executedAt_submit o hlive₁,
    (opposing_split o hlive id₁ q₁).1, toNat_add_of_lt h]
  exact Greedy.sum_amount_add (fun t : MakerTag => decide (t.orderId = maker ∧ t.price = px))
    q₁.toNat q₂.toNat (hlive.positive_opposing o)

/-- The opposite side is left the same. -/
theorem half_split (o : NewOrder) (hb : b.Whole) (h : q₁.toNat + q₂.toNat < 2 ^ 64) :
    (b.submit (o.part id (q₁ + q₂))).1.half o.side.opposite
      = ((b.submit (o.part id₁ q₁)).1.submit (o.part id₂ q₂)).1.half o.side.opposite := by
  have hb₁ : (b.submit (o.part id₁ q₁)).1.Whole := whole_step (Call.submit _) hb
  refine half_eq_of_ladder (whole_step (Call.submit _) hb) (whole_step (Call.submit _) hb₁) ?_
  obtain ⟨hin, hout⟩ := opposing_split o hb.sound.live id₁ q₁
  have hwhole := ladder_submit_opposite o hb.sound.live id (q₁ + q₂)
  have hsecond := ladder_submit_opposite o hb₁.sound.live id₂ q₂
  rw [toNat_add_of_lt h, Greedy.residue_add _ _ (hb.sound.live.positive_opposing o)] at hwhole
  rw [hin, hout] at hsecond
  exact hwhole.trans hsecond.symm

/-- For market orders the books are the same altogether. -/
theorem book_split (o : NewOrder) (hmarket : o.isLimit = false) (hb : b.Whole)
    (h : q₁.toNat + q₂.toNat < 2 ^ 64) : (b.submit (o.part id (q₁ + q₂))).1
      = ((b.submit (o.part id₁ q₁)).1.submit (o.part id₂ q₂)).1 := by
  have hpos := hb.sound.live.positive_opposing o
  have hhalf : (b.submit (o.part id (q₁ + q₂))).1.half o.side.opposite
      = ((b.submit (o.part id₁ q₁)).1.submit (o.part id₂ q₂)).1.half o.side.opposite :=
    half_split o hb h
  have hin := (opposing_split o hb.sound.live id₁ q₁).1
  have hb₁ : (b.submit (o.part id₁ q₁)).1.Whole := whole_step (Call.submit _) hb
  rw [submit_market b (o.part id₁ q₁) hmarket] at hhalf hin hb₁ ⊢
  rw [submit_market b (o.part id (q₁ + q₂)) hmarket, submit_market _ (o.part id₂ q₂) hmarket]
    at hhalf ⊢
  have hs := crossAll_serves (o.part id (q₁ + q₂)) hb.sound.live
  have hs₁ := crossAll_serves (o.part id₁ q₁) hb.sound.live
  have hs₂ := crossAll_serves (o.part id₂ q₂) hb₁.sound.live
  refine book_ext (fun s => ?_) ?_
  · rcases Side.eq_or_eq_opposite s o.side with rfl | rfl
    · exact hs.own.trans (hs₂.own.trans hs₁.own).symm
    · exact hhalf
  · -- the makers done after the whole are those done after the first part, then the second
    have hids : exhausted (q₁ + q₂).toNat (b.opposing o)
        = exhausted q₁.toNat (b.opposing o)
          ++ exhausted q₂.toNat (residue q₁.toNat (b.opposing o)) := by
      rw [toNat_add_of_lt h, Greedy.exhausted_add _ _ hpos]
    calc ((b.crossAll (o.part id (q₁ + q₂))).book).locate
        = ((exhausted (q₁ + q₂).toNat (b.opposing o)).map MakerTag.orderId).foldl
            ExtTreeMap.erase b.locate := hs.locate
      _ = ((exhausted q₂.toNat (residue q₁.toNat (b.opposing o))).map MakerTag.orderId).foldl
            ExtTreeMap.erase (b.crossAll (o.part id₁ q₁)).book.locate := by
          rw [hids, List.map_append, List.foldl_append, hs₁.locate]
          rfl
      _ = _ := by
          rw [hs₂.locate, opposing_part, hin]
          rfl

/-- What a limit order adds at its limit. -/
theorem restingAt_submit (o : NewOrder) (hlimit : o.isLimit = true) (hlive : b.LiveLevels) :
    (b.submit o).1.restingAt o.side o.limitPx
      = b.restingAt o.side o.limitPx + (o.quantity.toNat - b.liquidity o) := by
  have hlt : o.quantity.toNat < 2 ^ 64 := o.quantity.toNat_lt
  rw [Book.restingAt, (executes_submit o hlive).own, queueSize_append, Book.restingAt]
  refine congrArg _ ?_
  split
  · rw [queueSize_cons, queueSize_nil, UInt64.toNat_ofNat', Nat.mod_eq_of_lt (by omega)]
    rfl
  · rename_i hno
    have hle : o.quantity.toNat ≤ b.liquidity o :=
      Nat.le_of_not_lt fun hl => hno ⟨hlimit, hl, rfl⟩
    rw [queueSize_nil]
    omega

/-- For limit orders the sums resting at the limit agree. -/
theorem restingAt_split (o : NewOrder) (hlimit : o.isLimit = true) (hb : b.Whole)
    (h : q₁.toNat + q₂.toNat < 2 ^ 64) :
    (b.submit (o.part id (q₁ + q₂))).1.restingAt o.side o.limitPx
      = ((b.submit (o.part id₁ q₁)).1.submit (o.part id₂ q₂)).1.restingAt o.side o.limitPx := by
  have hb₁ : (b.submit (o.part id₁ q₁)).1.Whole := whole_step (Call.submit _) hb
  have hwhole := restingAt_submit (o.part id (q₁ + q₂)) hlimit hb.sound.live
  have hfirst := restingAt_submit (o.part id₁ q₁) hlimit hb.sound.live
  have hsecond := restingAt_submit (o.part id₂ q₂) hlimit hb₁.sound.live
  rw [liquidity_part] at hwhole hfirst hsecond
  rw [liquidity_split o hb.sound.live] at hsecond
  simp only [NewOrder.part] at hwhole hfirst hsecond ⊢
  rw [toNat_add_of_lt h] at hwhole
  omega

end Split

/-- **Splitting a taker changes nothing for the makers**, in any book that calls can lead to. -/
theorem split_taker (cs : List Call) (o : NewOrder) (id₁ id₂ q₁ q₂ : UInt64)
    (h : q₁.toNat + q₂.toNat < 2 ^ 64) :
    let b := Mealy.exec Book.step Book.new cs
    let whole := b.submit (o.part o.orderId (q₁ + q₂))
    let first := b.submit (o.part id₁ q₁)
    let second := first.1.submit (o.part id₂ q₂)
    (∀ maker px, executedAt maker px whole.2.1 = executedAt maker px (first.2.1 ++ second.2.1)) ∧
      whole.1.half o.side.opposite = second.1.half o.side.opposite ∧
      (o.isLimit = false → whole.1 = second.1) ∧
      (o.isLimit = true →
        whole.1.restingAt o.side o.limitPx = second.1.restingAt o.side o.limitPx) := by
  intro b whole first second
  have hb : b.Whole := whole_exec cs
  refine ⟨fun maker px => ?_, half_split o hb h, fun hm => book_split o hm hb h,
    fun hl => restingAt_split o hl hb h⟩
  rw [executedAt_append]
  exact executedAt_split o hb.sound.live h maker px

/-- A split inside the second of three makers, over two levels. -/
theorem split_taker_run :
    let cs := [Call.submit ⟨1, Side.sell, true, 100, 2, 0, true⟩,
      Call.submit ⟨2, Side.sell, true, 100, 5, 0, true⟩,
      Call.submit ⟨3, Side.sell, true, 101, 3, 0, true⟩]
    let o : NewOrder := ⟨10, Side.buy, false, 0, 9, 0, false⟩
    let b := Mealy.exec Book.step Book.new cs
    (b.submit (o.part 10 (4 + 5))).1
      = ((b.submit (o.part 11 4)).1.submit (o.part 12 5)).1 :=
  (split_taker _ _ 11 12 4 5 (by decide)).2.2.1 rfl

end HotpathIpc
