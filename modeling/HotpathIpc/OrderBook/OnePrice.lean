import HotpathIpc.OrderBook.Outstanding
import HotpathIpc.OrderBook.Reference

/-!
# A submit, seen at one price

The queue at one side and price is one stretch of the ladder (`Book.ladder_split`), so whatever a
submit does elsewhere, it is a single demand there: what it fills at that price is
`Greedy.consume` on the queue and what it leaves is `Greedy.residue` (**`crossed_at`**).

The ids resting at the price are nowhere else (`mem_queue_iff`, `nodup_queue`), so what fills
execute of them can be read off the takes at that price (`executedOf_eq`).
-/

namespace HotpathIpc

open Std (ExtTreeMap)
open Greedy (supply consume residue exhausted Take)
open Lists (filter_middle)

/-! ## One price -/

/-- Being at one side and price. -/
def MakerTag.At (s : Side) (px : Int) (t : MakerTag) : Prop := t.side = s ∧ t.price = px

instance (s : Side) (px : Int) (t : MakerTag) : Decidable (t.At s px) :=
  inferInstanceAs (Decidable (_ ∧ _))

variable {b : Book} {o : NewOrder} {s : Side} {px : Int}

theorem tag_mem_of_consume {q : ℕ} {xs : List (MakerTag × ℕ)} {t : Take MakerTag}
    (h : t ∈ consume q xs) : t.tag ∈ xs.map Prod.fst :=
  (Greedy.map_tag_prefix q xs).subset (List.mem_map_of_mem h)

theorem tag_mem_of_residue {q : ℕ} {xs : List (MakerTag × ℕ)} {x : MakerTag × ℕ}
    (h : x ∈ residue q xs) : x.1 ∈ xs.map Prod.fst := by
  rw [Greedy.map_fst_eq q xs]
  exact List.mem_append_right _ (List.mem_map_of_mem h)

/-- Every tag of a queue is at its place. -/
theorem at_of_makers {q : List RestingOrder} {t : MakerTag}
    (h : t ∈ (makers s px q).map Prod.fst) : t.At s px := by
  obtain ⟨x, hx, rfl⟩ := List.mem_map.mp h
  exact side_of_mem_makers hx

/-- What an order can reach, cut at a price that is within its reach. -/
theorem Book.opposing_cut (b : Book) {o : NewOrder} {px : Int} (hacc : o.acceptable px = true) :
    ∃ xs ys, b.opposing o = xs
        ++ (makers o.side.opposite px (b.levelMut o.side.opposite px).queue ++ ys) ∧
      (∀ t ∈ xs.map Prod.fst, t.price ≠ px) ∧ ∀ t ∈ ys.map Prod.fst, t.price ≠ px := by
  obtain ⟨xs, ys, hladder, hne⟩ := b.ladder_split o.side.opposite px
  refine ⟨xs.filter fun x => o.acceptable x.1.price, ys.filter fun x => o.acceptable x.1.price,
    ?_, fun t ht => ?_, fun t ht => ?_⟩
  · rw [Book.opposing, hladder, List.filter_append, List.filter_append,
      filter_makers o.acceptable, if_pos hacc]
  · obtain ⟨x, hx, rfl⟩ := List.mem_map.mp ht
    exact hne x (List.mem_append_left _ (List.mem_of_mem_filter hx))
  · obtain ⟨x, hx, rfl⟩ := List.mem_map.mp ht
    exact hne x (List.mem_append_right _ (List.mem_of_mem_filter hx))

/-- Crossing takes `k` from the queue at one price: the takes there, what is left, and what is
cleared from the index. -/
def Book.CrossedAt (b : Book) (o : NewOrder) (s : Side) (px : Int) (k : ℕ) : Prop :=
  ((b.crossAll o).fills.map (Fill.take o.side.opposite)).filter (fun t => decide (t.tag.At s px))
      = consume k (makers s px (b.levelMut s px).queue) ∧
    makers s px ((b.crossAll o).book.levelMut s px).queue
      = residue k (makers s px (b.levelMut s px).queue) ∧
    ∀ t ∈ exhausted k (makers s px (b.levelMut s px).queue),
      (b.crossAll o).book.locate[t.orderId]? = none

/-- Within reach it is the demand that is left when the loop comes to the price. -/
theorem crossed_within (hlive : b.LiveLevels) (hacc : o.acceptable px = true) :
    ∃ k, b.CrossedAt o o.side.opposite px k := by
  have hs := crossAll_serves o hlive
  obtain ⟨xs, ys, hopp, hxs, hys⟩ := b.opposing_cut hacc
  have hpos : Greedy.Positive (xs
      ++ (makers o.side.opposite px (b.levelMut o.side.opposite px).queue ++ ys)) :=
    hopp ▸ hlive.positive_opposing o
  refine ⟨o.quantity.toNat - supply xs, ?_, ?_, fun t ht => ?_⟩
  · rw [hs.fills, hopp, Greedy.consume_append, Greedy.consume_append]
    exact filter_middle
      (fun t ht => decide_eq_false fun hat => hxs _ (tag_mem_of_consume ht) hat.2)
      (fun t ht => decide_eq_true (at_of_makers (tag_mem_of_consume ht)))
      fun t ht => decide_eq_false fun hat => hys _ (tag_mem_of_consume ht) hat.2
  · have hout : ∀ x ∈ b.outOfReach o, x.1.price ≠ px := by
      intro x hx hat
      have hno := (List.mem_filter.mp hx).2
      rw [hat, hacc] at hno
      exact absurd hno (by decide)
    rw [← Book.ladder_filter_price, hs.ladder, hopp, Greedy.residue_append hpos.right,
      Greedy.residue_append hpos.right.right, List.append_assoc, List.append_assoc]
    refine filter_middle (fun x hx => decide_eq_false (hxs _ (tag_mem_of_residue hx)))
      (fun x hx => decide_eq_true (at_of_makers (tag_mem_of_residue hx)).2) fun x hx => ?_
    rcases List.mem_append.mp hx with hx | hx
    · exact decide_eq_false (hys _ (tag_mem_of_residue hx))
    · exact decide_eq_false (hout x hx)
  · have hmem : t ∈ exhausted o.quantity.toNat (b.opposing o) := by
      rw [hopp, Greedy.exhausted_append hpos.right, Greedy.exhausted_append hpos.right.right]
      exact List.mem_append_right _ (List.mem_append_left _ ht)
    rw [hs.locate, getElem?_foldl_erase, if_pos (List.mem_map_of_mem hmem)]

/-- Elsewhere nothing is filled and nothing moves. -/
theorem crossed_elsewhere (hlive : b.LiveLevels)
    (hout : s = o.side.opposite → o.acceptable px = false) : b.CrossedAt o s px 0 := by
  have hs := crossAll_serves o hlive
  have hpos : Greedy.Positive (makers s px (b.levelMut s px).queue) :=
    positive_makers s px (remaining_ne_zero_levelMut hlive s px)
  refine ⟨?_, ?_, fun t ht => ?_⟩
  · rw [Greedy.consume_zero, List.filter_eq_nil_iff]
    intro t ht hat
    rw [hs.fills] at ht
    obtain ⟨x, hx, he⟩ := List.mem_map.mp (tag_mem_of_consume ht)
    obtain ⟨hin, hacc⟩ := List.mem_filter.mp hx
    obtain ⟨hside, hprice⟩ : t.tag.At s px := by simpa using hat
    rw [← he] at hside hprice
    have hno := hout (hside.symm.trans (Book.side_of_mem_ladder hin))
    rw [← hprice, hacc] at hno
    exact absurd hno (by decide)
  · rw [Greedy.residue_zero hpos]
    rcases Side.eq_or_eq_opposite s o.side with rfl | rfl
    · rw [Book.levelMut_eq_of_half hs.own]
    · rw [Book.levelMut, hs.frame px (hout rfl)]
      rfl
  · rw [Greedy.exhausted_zero hpos] at ht
    exact absurd ht List.not_mem_nil

/-- **One submit at one price** is one demand on the queue there, with fills elsewhere before it
and after it. -/
theorem crossed_at (o : NewOrder) (hlive : b.LiveLevels) (s : Side) (px : Int) :
    ∃ k, b.CrossedAt o s px k := by
  by_cases hreach : s = o.side.opposite ∧ o.acceptable px = true
  · obtain ⟨rfl, hacc⟩ := hreach
    exact crossed_within hlive hacc
  · exact ⟨0, crossed_elsewhere hlive fun hs => by simpa [hs] using hreach⟩

/-! ## Where ids rest -/

/-- A tracked id is queued at a place exactly when the index says so. -/
theorem mem_queue_iff {id : UInt64} (h : b.Tracks id) :
    id ∈ (b.levelMut s px).queue.map RestingOrder.orderId ↔ b.locate[id]? = some (s, px) := by
  rw [← Option.mem_toList, ← h.mem_iff, mem_placesOf_orders, List.mem_map]
  constructor
  · rintro ⟨m, hm, hid⟩
    rcases levelMut_cases b s px with hl | ⟨-, hl⟩
    · exact ⟨_, hl, m, hm, hid⟩
    · rw [hl] at hm
      exact absurd hm List.not_mem_nil
  · rintro ⟨l, hl, m, hm, hid⟩
    refine ⟨m, ?_, hid⟩
    rw [Book.levelMut, hl]
    exact hm

theorem nodup_queue (h : ∀ id, b.Tracks id) (s : Side) (px : Int) :
    ((b.levelMut s px).queue.map RestingOrder.orderId).Nodup := by
  have hall : ((b.ladder s ++ b.ladder s.opposite).map fun x => x.1.orderId).Nodup :=
    ((orders_perm b s).map _).nodup_iff.mp (nodup_queuedIds h)
  have hsub : (makers s px (b.levelMut s px).queue).Sublist
      (b.ladder s ++ b.ladder s.opposite) := by
    rw [← Book.ladder_filter_price]
    exact List.filter_sublist.trans (List.sublist_append_left _ _)
  have hids := hall.sublist (hsub.map fun x => x.1.orderId)
  rwa [makers, List.map_map] at hids

/-- The maker of a fill is where the index has it. -/
theorem at_of_located {f : Fill} (htracks : ∀ id, b.Tracks id) (hlive : b.LiveLevels)
    (hf : f ∈ (b.submit o).2.1) (hloc : b.locate[f.makerOrderId]? = some (s, px)) :
    (f.take o.side.opposite).tag.At s px := by
  obtain ⟨n, hn⟩ := maker_mem_orders hlive hf
  have hplace : ((f.take o.side.opposite).tag.side, (f.take o.side.opposite).tag.price)
      ∈ placesOf f.makerOrderId b.orders := mem_placesOf.mpr ⟨_, hn, rfl, rfl⟩
  rw [(htracks f.makerOrderId).mem_iff, hloc] at hplace
  obtain ⟨hside, hprice⟩ := Prod.mk.inj (List.mem_singleton.mp hplace)
  exact ⟨hside, hprice⟩

/-! ## What fills execute of some makers -/

/-- What fills execute of the makers in `ids`. -/
def executedOf (ids : List UInt64) (fs : List Fill) : ℕ :=
  ((fs.filter fun f => f.makerOrderId ∈ ids).map fun f => f.quantity.toNat).sum

theorem executedOf_singleton (id : UInt64) (fs : List Fill) :
    executedOf [id] fs = makerQty id fs := by
  simp [executedOf, makerQty]

/-- The takes at one price, of some of the makers there. -/
theorem executedOf_eq {ids : List UInt64} {fs : List Fill} (htracks : ∀ id, b.Tracks id)
    (hlive : b.LiveLevels) (hfs : ∀ f ∈ fs, f ∈ (b.submit o).2.1)
    (hids : ∀ id ∈ ids, b.locate[id]? = some (s, px)) :
    executedOf ids fs = ((((fs.map (Fill.take o.side.opposite)).filter
        (fun t => decide (t.tag.At s px))).filter
        (fun t => decide (t.tag.orderId ∈ ids))).map Take.amount).sum := by
  rw [List.filter_filter, List.filter_map, List.map_map, executedOf]
  refine congrArg (fun gs => (gs.map fun f : Fill => f.quantity.toNat).sum)
    (List.filter_congr fun f hf => ?_)
  by_cases hid : f.makerOrderId ∈ ids
  · have hat := at_of_located htracks hlive (hfs f hf) (hids _ hid)
    simp only [Function.comp_apply, decide_eq_true hat, Bool.and_true]
    rfl
  · have htag : (f.take o.side.opposite).tag.orderId ∉ ids := hid
    simp only [Function.comp_apply, decide_eq_false hid, decide_eq_false htag, Bool.false_and]

theorem sum_filter_amount (p : MakerTag → Bool) (ts : List (Take MakerTag)) :
    ((ts.filter fun t => p t.tag).map Take.amount).sum
      = supply ((ts.map fun t => (t.tag, t.amount)).filter fun x => p x.1) := by
  rw [List.filter_map, supply, List.map_map]
  rfl

/-- The makers in a queue with some of its ids. -/
theorem filter_makers_ids {s : Side} {px : Int} {q : List RestingOrder} (ids : List UInt64)
    (h : ∀ m ∈ q, m.orderId ∈ ids) :
    (makers s px q).filter (fun x => decide (x.1.orderId ∈ ids)) = makers s px q := by
  refine List.filter_eq_self.mpr fun x hx => ?_
  obtain ⟨m, hm, rfl⟩ := List.mem_map.mp hx
  exact decide_eq_true (h m hm)

theorem filter_makers_no_ids {s : Side} {px : Int} {q : List RestingOrder} (ids : List UInt64)
    (h : ∀ m ∈ q, m.orderId ∉ ids) :
    (makers s px q).filter (fun x => decide (x.1.orderId ∈ ids)) = [] := by
  refine List.filter_eq_nil_iff.mpr fun x hx => ?_
  obtain ⟨m, hm, rfl⟩ := List.mem_map.mp hx
  rw [decide_eq_true_eq]
  exact h m hm

end HotpathIpc
