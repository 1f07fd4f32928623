import HotpathIpc.OrderBook.Reference

/-!
# One submit in closed form

The doubly nested loop of `submit`, without the loop.  With `L` the quantity that rests on the
opposite side at prices the order accepts (`Book.liquidity`), a submit of `q` executes
`min q L`; it is filled when `q ≤ L`, and otherwise `q - L` is rejected or rests.

* `ExecutesExactly` — everything a submit does, field by field.
* **`exact_execution`** — it holds of every submit in every book that calls can lead to, whatever
  the ids and quantities.
-/

namespace HotpathIpc

open Std (ExtTreeMap)
open Greedy (supply consume)

/-- A limit order accepts the prices up to its limit, a market order any price. -/
def NewOrder.Within (o : NewOrder) (px : Int) : Prop :=
  o.isLimit = true → match o.side with
    | Side.buy => px ≤ o.limitPx
    | Side.sell => o.limitPx ≤ px

theorem acceptable_iff {o : NewOrder} {px : Int} : o.acceptable px = true ↔ o.Within px := by
  unfold NewOrder.acceptable NewOrder.Within
  cases o.isLimit <;> cases o.side <;> simp

instance (o : NewOrder) (px : Int) : Decidable (o.Within px) :=
  decidable_of_iff _ acceptable_iff

/-- The quantity resting on the opposite side at prices the order accepts. -/
def Book.liquidity (b : Book) (o : NewOrder) : ℕ :=
  supply ((b.ladder o.side.opposite).filter fun x => decide (o.Within x.1.price))

theorem liquidity_eq (b : Book) (o : NewOrder) : b.liquidity o = supply (b.opposing o) := by
  refine congrArg supply (List.filter_congr fun x _ => ?_)
  rw [Bool.eq_iff_iff, decide_eq_true_eq, acceptable_iff]

/-- What a submit of `o` in `b` does, if it leaves `after`, pushes `fills` and returns
`outcome`. -/
structure ExecutesExactly (b : Book) (o : NewOrder) (after : Book) (fills : List Fill)
    (outcome : Outcome) : Prop where
  /-- The fills sum to the smaller of the quantity and the liquidity. -/
  executed : (fills.map fun f => f.quantity.toNat).sum = min o.quantity.toNat (b.liquidity o)
  filled : outcome = Outcome.filled ↔ o.quantity.toNat ≤ b.liquidity o
  rejected : (∃ reason, outcome = Outcome.rejected reason)
    ↔ o.isLimit = false ∧ b.liquidity o < o.quantity.toNat
  rested : (∃ queueAhead, outcome = Outcome.rested queueAhead)
    ↔ o.isLimit = true ∧ b.liquidity o < o.quantity.toNat
  /-- A rejected order has emptied the opposite side. -/
  emptied : (∃ reason, outcome = Outcome.rejected reason) → after.half o.side.opposite = ∅
  /-- A rested order has left no price it accepts. -/
  beyond : (∃ queueAhead, outcome = Outcome.rested queueAhead) →
    ∀ px ∈ after.half o.side.opposite, ¬ o.Within px
  /-- On its own side only the remainder is added, at the back of the queue at its limit. -/
  own : ∀ px, (after.levelMut o.side px).queue = (b.levelMut o.side px).queue
    ++ if o.isLimit = true ∧ b.liquidity o < o.quantity.toNat ∧ px = o.limitPx
      then [⟨o.orderId, UInt64.ofNat (o.quantity.toNat - b.liquidity o), o.isSynthetic⟩] else []
  /-- Prices get worse, or stay, from fill to fill. -/
  worsening : fills.Pairwise fun f g =>
    o.side.opposite.rank f.priceTicks ≤ o.side.opposite.rank g.priceTicks
  within : ∀ f ∈ fills, o.Within f.priceTicks
  /-- Opposite levels beyond the limit are left alone. -/
  frame : ∀ px, ¬ o.Within px →
    (after.half o.side.opposite)[px]? = (b.half o.side.opposite)[px]?

variable {b : Book} {o : NewOrder}

/-! ## The crossing phase -/

theorem crossed_remaining (o : NewOrder) (hlive : b.LiveLevels) :
    (b.crossAll o).remaining.toNat = o.quantity.toNat - b.liquidity o := by
  rw [(crossAll_serves o hlive).remaining, liquidity_eq]

theorem crossed_eq_zero (o : NewOrder) (hlive : b.LiveLevels) :
    (b.crossAll o).remaining = 0 ↔ o.quantity.toNat ≤ b.liquidity o := by
  rw [← toNat_eq_zero, crossed_remaining o hlive]
  omega

theorem executed_crossAll (o : NewOrder) (hlive : b.LiveLevels) :
    ((b.crossAll o).fills.map fun f => f.quantity.toNat).sum
      = min o.quantity.toNat (b.liquidity o) := by
  rw [liquidity_eq, ← Greedy.sum_amount_consume, ← (crossAll_serves o hlive).fills, List.map_map]
  rfl

/-- Everything opposing that is left is beyond the limit, once something remains of the order. -/
theorem beyond_crossAll (hlive : b.LiveLevels) (hrem : (b.crossAll o).remaining ≠ 0) :
    ∀ px ∈ (b.crossAll o).book.half o.side.opposite, ¬ o.Within px := by
  intro px hpx hin
  have hs := crossAll_serves o hlive
  obtain ⟨l, hl⟩ := Option.isSome_iff_exists.mp (ExtTreeMap.mem_iff_isSome_getElem?.mp hpx)
  obtain ⟨m, hm⟩ := List.exists_mem_of_ne_nil _ (hs.live _ _ _ hl).1
  have hmem : (m.tag o.side.opposite px, m.remaining.toNat) ∈ (b.crossAll o).book.opposing o :=
    List.mem_filter.mpr
      ⟨Book.mem_ladder.mpr ⟨l, hl, List.mem_map_of_mem hm⟩, acceptable_iff.mpr hin⟩
  rw [(cross_done hs).resolve_left hrem] at hmem
  exact absurd hmem List.not_mem_nil

/-- The makers an order trades with, in the order it meets them. -/
theorem map_tag_fills (o : NewOrder) (hlive : b.LiveLevels) :
    ((b.crossAll o).fills.map fun f => (f.take o.side.opposite).tag).IsPrefix
      ((b.opposing o).map Prod.fst) := by
  have hp := Greedy.map_tag_prefix o.quantity.toNat (b.opposing o)
  rwa [← (crossAll_serves o hlive).fills, List.map_map] at hp

theorem worsening_crossAll (o : NewOrder) (hlive : b.LiveLevels) :
    (b.crossAll o).fills.Pairwise fun f g =>
      o.side.opposite.rank f.priceTicks ≤ o.side.opposite.rank g.priceTicks := by
  have hsorted : ((b.opposing o).map Prod.fst).Pairwise fun t u =>
      o.side.opposite.rank t.price ≤ o.side.opposite.rank u.price :=
    List.pairwise_map.mpr ((Book.ladder_sorted b o.side.opposite).filter _)
  have htags := hsorted.sublist (map_tag_fills o hlive).sublist
  rwa [List.pairwise_map] at htags

theorem within_crossAll (hlive : b.LiveLevels) :
    ∀ f ∈ (b.crossAll o).fills, o.Within f.priceTicks := by
  intro f hf
  have htag := (map_tag_fills o hlive).subset (List.mem_map_of_mem hf)
  obtain ⟨x, hx, he⟩ := List.mem_map.mp htag
  have hprice : x.1.price = f.priceTicks := congrArg MakerTag.price he
  rw [← hprice, ← acceptable_iff]
  exact (List.mem_filter.mp hx).2

/-! ## Its three endings -/

/-- The queues on the order's own side, if its remainder does not rest. -/
theorem own_crossAll (o : NewOrder) (hlive : b.LiveLevels) (px : Int) :
    ((b.crossAll o).book.levelMut o.side px).queue = (b.levelMut o.side px).queue := by
  rw [Book.levelMut_eq_of_half (crossAll_serves o hlive).own]

/-- The queues on the order's own side, if it does. -/
theorem own_rest (o : NewOrder) (hlive : b.LiveLevels) (px : Int) :
    (((b.crossAll o).book.rest o (b.crossAll o).remaining).1.levelMut o.side px).queue
      = (b.levelMut o.side px).queue ++ if px = o.limitPx
        then [⟨o.orderId, (b.crossAll o).remaining, o.isSynthetic⟩] else [] := by
  rw [Book.levelMut_eq_of_half (half_rest _ o _ o.side), Book.queue_storeLevel]
  by_cases hpx : px = o.limitPx
  · subst hpx
    rw [if_pos ⟨rfl, rfl⟩, if_pos rfl, Book.joined, own_crossAll o hlive]
  · rw [if_neg fun h => hpx h.2, if_neg hpx, own_crossAll o hlive, List.append_nil]

/-- A side without prices is empty. -/
theorem half_eq_empty {s : Side} (h : ∀ px, px ∉ b.half s) : b.half s = ∅ := by
  refine ExtTreeMap.ext_getElem? fun px => ?_
  rw [ExtTreeMap.getElem?_eq_none (h px), ExtTreeMap.getElem?_empty]

/-- **One submit**, in a live book. -/
theorem executes_submit (o : NewOrder) (hlive : b.LiveLevels) :
    ExecutesExactly b o (b.submit o).1 (b.submit o).2.1 (b.submit o).2.2 := by
  have hs := crossAll_serves o hlive
  have hzero := crossed_eq_zero o hlive
  have hframe : ∀ px, ¬ o.Within px → ((b.crossAll o).book.half o.side.opposite)[px]?
      = (b.half o.side.opposite)[px]? := fun px hpx =>
    hs.frame px (by rwa [← acceptable_iff, Bool.not_eq_true] at hpx)
  rcases submit_cases b o with ⟨h0, he⟩ | ⟨h0, hl, he⟩ | ⟨h0, hl, he⟩ <;> rw [he]
  · -- nothing remains
    have hle := hzero.mp h0
    have hlt : ¬ b.liquidity o < o.quantity.toNat := by omega
    exact
      { executed := executed_crossAll o hlive
        filled := by simp [hle]
        rejected := by simp [hlt]
        rested := by simp [hlt]
        emptied := by simp
        beyond := by simp
        own := fun px => by simp [own_crossAll o hlive, hlt]
        worsening := worsening_crossAll o hlive
        within := within_crossAll hlive
        frame := hframe }
  · -- the remainder of a market order is rejected
    have hlt : b.liquidity o < o.quantity.toNat := Nat.lt_of_not_le (mt hzero.mpr h0)
    exact
      { executed := executed_crossAll o hlive
        filled := by simp [hlt]
        rejected := ⟨fun _ => ⟨hl, hlt⟩, fun _ => ⟨_, rfl⟩⟩
        rested := by simp [hl]
        emptied := fun _ => half_eq_empty fun px hpx =>
          beyond_crossAll hlive h0 px hpx fun h => absurd (hl.symm.trans h) (by decide)
        beyond := by simp
        own := fun px => by simp [own_crossAll o hlive, hl]
        worsening := worsening_crossAll o hlive
        within := within_crossAll hlive
        frame := hframe }
  · -- the remainder of a limit order rests
    have hlt : b.liquidity o < o.quantity.toNat := Nat.lt_of_not_le (mt hzero.mpr h0)
    have hrem : (b.crossAll o).remaining
        = UInt64.ofNat (o.quantity.toNat - b.liquidity o) := by
      rw [← crossed_remaining o hlive, UInt64.ofNat_toNat]
    refine
      { executed := executed_crossAll o hlive
        filled := ?_
        rejected := by simp [Book.rest, hl]
        rested := by simp [Book.rest, hl, hlt]
        emptied := by simp [Book.rest]
        beyond := fun _ px hpx => ?_
        own := fun px => ?_
        worsening := worsening_crossAll o hlive
        within := within_crossAll hlive
        frame := fun px hpx => ?_ }
    · simp [Book.rest, hlt]
    · rw [half_rest_opposite] at hpx
      exact beyond_crossAll hlive h0 px hpx
    · rw [own_rest o hlive, hrem]
      simp [hl, hlt]
    · rw [half_rest_opposite]
      exact hframe px hpx

/-- **The exact execution of one submit**, in any book that calls can lead to. -/
theorem exact_execution (cs : List Call) (o : NewOrder) :
    let b := Mealy.exec Book.step Book.new cs
    ExecutesExactly b o (b.submit o).1 (b.submit o).2.1 (b.submit o).2.2 :=
  executes_submit o (sound_exec cs).live

end HotpathIpc
