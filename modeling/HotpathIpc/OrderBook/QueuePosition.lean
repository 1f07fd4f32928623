import HotpathIpc.OrderBook.OnePrice
import HotpathIpc.OrderBook.View

/-!
# Queue position

What `Outcome.rested queueAhead` promises about the rest of the run.  The orders resting at the
price when `o` arrives are followed until they leave the book (`follow`), and what they execute
and what they take away when they are cancelled is added up (`workedOff`).

* `Stands` — where an order stands in its queue; **`stands_step`** — what one call does to that:
  the orders still ahead and what left them make up the orders that were ahead, and the order
  itself moves only by its own fills.
* **`order_of_fills`** — within one call, fills at a price follow the queue.
* **`queue_position`** — the promise, over any run.
-/

namespace HotpathIpc

open Std (ExtTreeMap)
open Greedy (supply consume residue exhausted Take)

/-! ## Standing in a queue -/

/-- The order `m` rests at `s` and `px`, behind the orders `ahead`. -/
structure Stands (b : Book) (s : Side) (px : Int) (m : RestingOrder)
    (ahead : List RestingOrder) : Prop where
  sound : b.Sound
  tracks : ∀ id, b.Tracks id
  queue : ∃ behind, (b.levelMut s px).queue = ahead ++ m :: behind

/-- The ids of some resting orders. -/
def idsOf (q : List RestingOrder) : List UInt64 := q.map RestingOrder.orderId

variable {b : Book} {o : NewOrder} {s : Side} {px : Int} {m : RestingOrder}
  {ahead : List RestingOrder}

/-- The ids of a queue pick out all of it. -/
theorem filter_makers_idsOf (s : Side) (px : Int) (q : List RestingOrder) :
    (makers s px q).filter (fun x => decide (x.1.orderId ∈ idsOf q)) = makers s px q :=
  filter_makers_ids _ fun _ hn => List.mem_map_of_mem hn

theorem mem_idsOf {q : List RestingOrder} {x : MakerTag × ℕ} (h : x ∈ makers s px q) :
    x.1.orderId ∈ idsOf q := by
  obtain ⟨n, hn, rfl⟩ := List.mem_map.mp h
  exact List.mem_map_of_mem hn

/-- What is left of a queue has some of its ids. -/
theorem mem_idsOf_residue {k : ℕ} {q : List RestingOrder} {x : MakerTag × ℕ}
    (h : x ∈ residue k (makers s px q)) : x.1.orderId ∈ idsOf q := by
  obtain ⟨y, hy, he⟩ := List.mem_map.mp (tag_mem_of_residue h)
  rw [← he]
  exact mem_idsOf hy

/-- So ids that are not in a queue pick nothing out of what is left of it. -/
theorem filter_residue_no_ids {q : List RestingOrder} {ids : List UInt64}
    (h : ∀ id ∈ idsOf q, id ∉ ids) (k : ℕ) :
    (residue k (makers s px q)).filter (fun x => decide (x.1.orderId ∈ ids)) = [] :=
  List.filter_eq_nil_iff.mpr fun x hx => by
    rw [decide_eq_true_eq]
    exact h _ (mem_idsOf_residue hx)

namespace Stands

/-- The order and those ahead of it have ids of their own. -/
theorem disjoint (h : Stands b s px m ahead) {behind : List RestingOrder}
    (hq : (b.levelMut s px).queue = ahead ++ m :: behind) :
    (∀ n ∈ ahead, n.orderId ≠ m.orderId) ∧ (∀ n ∈ behind, n.orderId ≠ m.orderId) ∧
      ∀ n ∈ behind, n.orderId ∉ idsOf ahead := by
  have hnodup := nodup_queue h.tracks s px
  rw [hq, List.map_append, List.map_cons] at hnodup
  obtain ⟨-, hm, hdisj⟩ := List.nodup_append.mp hnodup
  refine ⟨fun n hn he => ?_, fun n hn he => ?_, fun n hn he => ?_⟩
  · exact hdisj _ (List.mem_map_of_mem hn) _ List.mem_cons_self he
  · exact (List.nodup_cons.mp hm).1 (he ▸ List.mem_map_of_mem hn)
  · exact hdisj _ he _ (List.mem_cons_of_mem _ (List.mem_map_of_mem hn)) rfl

theorem locate (h : Stands b s px m ahead) :
    b.locate[m.orderId]? = some (s, px) ∧ ∀ id ∈ idsOf ahead, b.locate[id]? = some (s, px) := by
  obtain ⟨behind, hq⟩ := h.queue
  constructor
  · rw [← mem_queue_iff (h.tracks _), hq]
    simp
  · intro id hid
    rw [← mem_queue_iff (h.tracks _), hq, List.map_append]
    exact List.mem_append_left _ hid

theorem remaining_ne_zero (h : Stands b s px m ahead) : m.remaining.toNat ≠ 0 := by
  obtain ⟨behind, hq⟩ := h.queue
  intro hz
  refine remaining_ne_zero_levelMut h.sound.live s px m ?_ (toNat_eq_zero.mp hz)
  rw [hq]
  simp

/-- The queue as tagged quantities: the part ahead, the order and the part behind. -/
theorem makers (h : Stands b s px m ahead) : ∃ behind,
    (b.levelMut s px).queue = ahead ++ m :: behind ∧
    HotpathIpc.makers s px (b.levelMut s px).queue = HotpathIpc.makers s px ahead
      ++ (m.tag s px, m.remaining.toNat) :: HotpathIpc.makers s px behind := by
  obtain ⟨behind, hq⟩ := h.queue
  refine ⟨behind, hq, ?_⟩
  rw [hq, makers_append, makers_cons]

/-- Of the queue, the ids ahead pick out the orders ahead. -/
theorem filter_ahead (h : Stands b s px m ahead) :
    (HotpathIpc.makers s px (b.levelMut s px).queue).filter
        (fun x => decide (x.1.orderId ∈ idsOf ahead)) = HotpathIpc.makers s px ahead := by
  obtain ⟨behind, hq⟩ := h.queue
  obtain ⟨hm, -, hb⟩ := h.disjoint hq
  have hrest : ∀ n ∈ m :: behind, n.orderId ∉ idsOf ahead := by
    intro n hn
    rcases List.mem_cons.mp hn with rfl | hn
    · intro hin
      obtain ⟨k, hk, he⟩ := List.mem_map.mp hin
      exact hm k hk he
    · exact hb n hn
  rw [hq, makers_append, List.filter_append, filter_makers_idsOf, filter_makers_no_ids _ hrest,
    List.append_nil]

/-- And the order's own id picks out the order. -/
theorem filter_self (h : Stands b s px m ahead) :
    (HotpathIpc.makers s px (b.levelMut s px).queue).filter
        (fun x => decide (x.1.orderId ∈ [m.orderId])) = [(m.tag s px, m.remaining.toNat)] := by
  obtain ⟨behind, hq⟩ := h.queue
  obtain ⟨hm, hb, -⟩ := h.disjoint hq
  rw [hq, makers_append, makers_cons, List.filter_append,
    filter_makers_no_ids _ fun n hn => by simpa using hm n hn,
    List.filter_cons_of_pos (by simp [RestingOrder.tag]),
    filter_makers_no_ids _ fun n hn => by simpa using hb n hn, List.nil_append]

end Stands

/-! ## Within one call -/

/-- **Fills at a price follow the queue**: a fill there is of an order ahead of `m`, or of `m` once
the orders ahead are done, or comes when `m` is done itself. -/
theorem order_of_fills (h : Stands b s px m ahead) {fs gs : List Fill} {f : Fill}
    (hf : (b.submit o).2.1 = fs ++ f :: gs) (hat : (f.take o.side.opposite).tag.At s px) :
    f.makerOrderId ∈ idsOf ahead ∨
      (f.makerOrderId = m.orderId ∧ executedOf (idsOf ahead) fs = queueSize ahead) ∨
      makerQty m.orderId fs = m.remaining.toNat := by
  have hlive := h.sound.live
  have hmem : ∀ g ∈ fs, g ∈ (b.submit o).2.1 := fun g hg => hf ▸ List.mem_append_left _ hg
  obtain ⟨hlocm, hloca⟩ := h.locate
  obtain ⟨behind, hq, hmakers⟩ := h.makers
  obtain ⟨k, htakes, -⟩ := crossed_at o hlive s px
  rw [← submit_fills, hf, List.map_append, List.map_cons, List.filter_append,
    List.filter_cons_of_pos (by simpa using hat)] at htakes
  obtain ⟨ys, n, zs, hys, -, htags, -⟩ := Greedy.consume_split htakes.symm
  -- what the fills before `f` took, of any of the orders at the price
  have hsum : ∀ ids : List UInt64, (∀ id ∈ ids, b.locate[id]? = some (s, px)) →
      executedOf ids fs = supply (ys.filter fun x => decide (x.1.orderId ∈ ids)) := by
    intro ids hids
    rw [executedOf_eq h.tracks hlive hmem hids,
      sum_filter_amount (fun t => decide (t.orderId ∈ ids)), htags]
  have hself := h.filter_self
  rw [hys, List.filter_append] at hself
  -- `f` is the order's own fill when what comes before it is what is ahead
  have hown : ys = makers s px ahead →
      (m.tag s px, m.remaining.toNat) = ((f.take o.side.opposite).tag, n) →
      f.makerOrderId = m.orderId ∧ executedOf (idsOf ahead) fs = queueSize ahead := by
    intro hahead hhead
    refine ⟨congrArg (fun x => x.1.orderId) hhead.symm, ?_⟩
    rw [hsum _ hloca, hahead, filter_makers_idsOf, supply_makers]
  rw [hmakers] at hys
  rcases List.append_eq_append_iff.mp hys with ⟨as, has, hrest⟩ | ⟨bs, hbs, hrest⟩
  · cases as with
    | nil => exact Or.inr (Or.inl (hown (by rw [has, List.append_nil]) (List.cons.inj hrest).1))
    | cons x as =>
        obtain ⟨hx, -⟩ := List.cons.inj hrest
        have hmem' : (m.tag s px, m.remaining.toNat)
            ∈ ys.filter fun x => decide (x.1.orderId ∈ [m.orderId]) := by
          rw [has, hx, List.mem_filter, ← hx]
          exact ⟨by simp, by simp [RestingOrder.tag]⟩
        rcases List.append_eq_singleton_iff.mp hself with ⟨hnil, -⟩ | ⟨hone, -⟩
        · rw [hnil] at hmem'
          exact absurd hmem' List.not_mem_nil
        · refine Or.inr (Or.inr ?_)
          rw [← executedOf_singleton, hsum _ (by simpa using hlocm), hone]
          simp
  · cases bs with
    | nil =>
        rw [List.append_nil] at hbs
        exact Or.inr (Or.inl (hown hbs.symm (List.cons.inj hrest).1.symm))
    | cons x bs =>
        obtain ⟨rfl, -⟩ := List.cons.inj hrest
        have hin : ((f.take o.side.opposite).tag, n) ∈ makers s px ahead := by
          rw [hbs]
          exact List.mem_append_right _ List.mem_cons_self
        exact Or.inl (mem_idsOf hin)

/-! ## One call -/

/-- What entries cancel of the orders in `ids`. -/
def cancelledOf (ids : List UInt64) (e : Mealy.Entry Book Call Answer) : ℕ :=
  match e.input with
  | Call.cancel id => if id ∈ ids then e.pre.removedQty id else 0
  | Call.submit _ => 0

/-- What the fills of an order take of some of the orders in the queue, and what crossing leaves of
these, is what there was. -/
theorem served_crossAll (h : Stands b s px m ahead) (o : NewOrder) {k : ℕ}
    (hcrossed : b.CrossedAt o s px k) (ids : List UInt64)
    (hids : ∀ id ∈ ids, b.locate[id]? = some (s, px)) :
    executedOf ids (b.submit o).2.1 + supply ((residue k (makers s px
        (b.levelMut s px).queue)).filter fun x => decide (x.1.orderId ∈ ids))
      = supply ((makers s px (b.levelMut s px).queue).filter
          fun x => decide (x.1.orderId ∈ ids)) := by
  have hlive := h.sound.live
  have hpos : Greedy.Positive (makers s px (b.levelMut s px).queue) :=
    positive_makers s px (remaining_ne_zero_levelMut hlive s px)
  rw [executedOf_eq h.tracks hlive (fun f hf => hf) hids, submit_fills, hcrossed.1]
  exact Greedy.consume_conserves (fun t => decide (t.orderId ∈ ids)) k hpos

/-- After crossing, the order still stands, behind what is left of those ahead, or it is done. -/
theorem advance_crossAll (h : Stands b s px m ahead) (o : NewOrder) :
    (∃ m' ahead' behind', ((b.crossAll o).book.levelMut s px).queue = ahead' ++ m' :: behind' ∧
      m'.orderId = m.orderId ∧
      makerQty m.orderId (b.submit o).2.1 + m'.remaining.toNat = m.remaining.toNat ∧
      executedOf (idsOf ahead) (b.submit o).2.1 + queueSize ahead' = queueSize ahead ∧
      ∃ cleared, idsOf ahead = cleared ++ idsOf ahead' ∧
        ∀ id ∈ cleared, (b.crossAll o).book.locate[id]? = none) ∨
    (makerQty m.orderId (b.submit o).2.1 = m.remaining.toNat ∧
      (b.crossAll o).book.locate[m.orderId]? = none) := by
  obtain ⟨hlocm, hloca⟩ := h.locate
  obtain ⟨behind, hq, hmakers⟩ := h.makers
  obtain ⟨hda, hdb, hdab⟩ := h.disjoint hq
  obtain ⟨k, hcrossed⟩ := crossed_at o h.sound.live s px
  obtain ⟨-, hleft, hexh⟩ := id hcrossed
  have hpos : Greedy.Positive (makers s px (b.levelMut s px).queue) :=
    positive_makers s px (remaining_ne_zero_levelMut h.sound.live s px)
  have hahead := served_crossAll h o hcrossed _ hloca
  have hself := served_crossAll h o hcrossed [m.orderId] (by simpa using hlocm)
  rw [h.filter_ahead, supply_makers] at hahead
  rw [h.filter_self, executedOf_singleton, Greedy.supply_cons, Greedy.supply_nil] at hself
  rw [hmakers] at hahead hself hleft hexh hpos
  rw [Greedy.residue_append hpos.right] at hahead hself hleft
  set A := makers s px ahead with hA
  -- the order is not among those ahead, and neither is what is behind
  have hm : m.orderId ∉ idsOf ahead := by
    intro hin
    obtain ⟨n, hn, he⟩ := List.mem_map.mp hin
    exact hda n hn he
  have hnotA : ∀ id ∈ idsOf ahead, id ∉ [m.orderId] := fun id hid he =>
    hm (List.mem_singleton.mp he ▸ hid)
  have hfilterA : (residue k A).filter (fun x => decide (x.1.orderId ∈ [m.orderId])) = [] :=
    filter_residue_no_ids hnotA k
  by_cases hdone : m.remaining.toNat ≤ k - supply A
  · -- the demand goes beyond the order
    refine Or.inr ⟨?_, ?_⟩
    · have hnotB : ∀ id ∈ idsOf behind, id ∉ [m.orderId] := by
        intro id hid he
        obtain ⟨n, hn, rfl⟩ := List.mem_map.mp hid
        exact hdb n hn (List.mem_singleton.mp he)
      rw [residue, if_pos hdone, List.filter_append, hfilterA, filter_residue_no_ids hnotB,
        List.append_nil, Greedy.supply_nil] at hself
      exact hself
    · refine hexh (m.tag s px) ?_
      rw [Greedy.exhausted_append hpos.right, exhausted, if_pos hdone]
      exact List.mem_append_right _ List.mem_cons_self
  · -- it stops at the order or before it
    rw [residue, if_neg hdone] at hahead hself hleft
    obtain ⟨q₁, q₂, hq', hq₁, hq₂⟩ := List.map_eq_append_iff.mp hleft
    obtain ⟨m', behind', rfl, hm', -⟩ := List.map_eq_cons_iff.mp hq₂
    obtain ⟨htag, hrem⟩ := Prod.mk.inj hm'
    have hid : m'.orderId = m.orderId := congrArg MakerTag.orderId htag
    refine Or.inl ⟨m', q₁, behind', hq', hid, ?_, ?_, (exhausted k A).map MakerTag.orderId, ?_,
      fun id hin => ?_⟩
    · have hnotB : ∀ n ∈ behind, n.orderId ∉ [m.orderId] := fun n hn => by simpa using hdb n hn
      rw [List.filter_append, hfilterA, List.filter_cons_of_pos (by simp [RestingOrder.tag]),
        List.nil_append, filter_makers_no_ids _ hnotB, Greedy.supply_cons,
        Greedy.supply_nil] at hself
      dsimp only at hself hrem
      omega
    · rw [List.filter_append, List.filter_eq_self.mpr fun x hx => decide_eq_true
          (mem_idsOf_residue hx), List.filter_cons_of_neg (by rw [decide_eq_true_eq]; exact hm),
        filter_makers_no_ids _ hdab, List.append_nil, ← hq₁] at hahead
      have hsize : supply (makers s px q₁) = queueSize q₁ := supply_makers s px q₁
      rw [makers] at hsize
      omega
    · have hsplit := congrArg (List.map MakerTag.orderId) (Greedy.map_fst_eq k A)
      rw [List.map_append, ← hq₁, hA, makers, List.map_map, List.map_map, List.map_map,
        List.map_map] at hsplit
      exact hsplit
    · obtain ⟨t, ht, rfl⟩ := List.mem_map.mp hin
      refine hexh t ?_
      rw [Greedy.exhausted_append hpos.right]
      exact List.mem_append_left _ ht

/-- What a call leaves of a standing order and of those ahead of it. -/
structure Moves (b : Book) (s : Side) (px : Int) (m : RestingOrder) (ahead : List RestingOrder)
    (call : Call) (m' : RestingOrder) (ahead' : List RestingOrder) : Prop where
  stands : Stands (b.step call).1 s px m' ahead'
  same : m'.orderId = m.orderId
  /-- The order loses what is filled of it. -/
  own : makerQty m.orderId (b.step call).2.fills + m'.remaining.toNat = m.remaining.toNat
  /-- The part ahead loses what is filled and what is cancelled of it. -/
  served : executedOf (idsOf ahead) (b.step call).2.fills
    + cancelledOf (idsOf ahead) ⟨b, call, (b.step call).2, (b.step call).1⟩
    + queueSize ahead' = queueSize ahead
  /-- Nobody joins it. -/
  left : idsOf ahead' = (idsOf ahead).filter (b.step call).1.isResting

/-- The orders still ahead are those that still rest, once the others are known to have left. -/
theorem idsOf_filter {b' : Book} {ahead' : List RestingOrder} {cleared : List UInt64}
    (h : Stands b' s px m ahead') (hsplit : idsOf ahead = cleared ++ idsOf ahead')
    (hcleared : ∀ id ∈ cleared, b'.locate[id]? = none) :
    idsOf ahead' = (idsOf ahead).filter b'.isResting := by
  have hgone : cleared.filter b'.isResting = [] := by
    refine List.filter_eq_nil_iff.mpr fun id hid => ?_
    rw [isResting_eq_false.mpr (hcleared id hid)]
    decide
  have hstay : (idsOf ahead').filter b'.isResting = idsOf ahead' :=
    List.filter_eq_self.mpr fun id hid => isResting_eq_true (h.locate.2 id hid)
  rw [hsplit, List.filter_append, hgone, hstay, List.nil_append]

/-- Crossing and then resting a remainder, or not. -/
theorem submit_queue (b : Book) (o : NewOrder) (s : Side) (px : Int) : ∃ joined,
    ((b.submit o).1.levelMut s px).queue = ((b.crossAll o).book.levelMut s px).queue ++ joined := by
  rcases submit_cases b o with ⟨-, he⟩ | ⟨-, -, he⟩ | ⟨-, -, he⟩ <;> rw [he]
  · exact ⟨[], (List.append_nil _).symm⟩
  · exact ⟨[], (List.append_nil _).symm⟩
  · dsimp only
    rw [queue_rest]
    split
    · exact ⟨_, rfl⟩
    · exact ⟨[], (List.append_nil _).symm⟩

/-- An id that crossing has cleared, and that is not the order's own, does not rest. -/
theorem locate_submit_none {id : UInt64} (h : (b.crossAll o).book.locate[id]? = none)
    (hne : o.orderId ≠ id) : (b.submit o).1.locate[id]? = none := by
  refine submit_book (P := fun c => c.locate[id]? = none) h fun _ => ?_
  rw [locate_rest, ExtTreeMap.getElem?_insert, if_neg (by simpa using hne), h]

theorem moves_submit (h : Stands b s px m ahead) (hfresh : b.isResting o.orderId = false) :
    (∃ m' ahead', Moves b s px m ahead (Call.submit o) m' ahead') ∨
      (makerQty m.orderId (b.step (Call.submit o)).2.fills = m.remaining.toNat ∧
        (b.step (Call.submit o)).1.isResting m.orderId = false) := by
  have hsound := sound_step b (Call.submit o) h.sound
  have htracks : ∀ id, (b.step (Call.submit o)).1.Tracks id := fun id => by
    refine tracks_step h.sound.live ?_ (h.tracks id)
    rintro o' ⟨⟩ rfl
    exact hfresh
  -- a fresh id is none of those that rest
  have hother : ∀ id, b.locate[id]? = some (s, px) → o.orderId ≠ id := by
    intro id hid he
    rw [isResting_eq_false, he, hid] at hfresh
    exact absurd hfresh (by simp)
  obtain ⟨hlocm, hloca⟩ := h.locate
  rcases advance_crossAll h o with ⟨m', ahead', behind', hq, hid, hown, hserved, cleared, hsplit,
    hcleared⟩ | ⟨hown, hgone⟩
  · obtain ⟨joined, hjoined⟩ := submit_queue b o s px
    have hstands : Stands (b.step (Call.submit o)).1 s px m' ahead' := by
      refine ⟨hsound, htracks, behind' ++ joined, ?_⟩
      rw [Book.step, hjoined, hq, List.append_assoc, List.cons_append]
    refine Or.inl ⟨m', ahead', hstands, hid, hown, hserved, ?_⟩
    refine idsOf_filter hstands hsplit fun id hin => locate_submit_none (hcleared id hin) ?_
    exact hother id (hloca id (hsplit ▸ List.mem_append_left _ hin))
  · exact Or.inr ⟨hown, isResting_eq_false.mpr (locate_submit_none hgone (hother _ hlocm))⟩

theorem idsOf_eraseP (id : UInt64) : ∀ q : List RestingOrder,
    idsOf (q.eraseP fun n => decide (n.orderId = id)) = (idsOf q).erase id
  | [] => rfl
  | n :: q => by
      have ih := idsOf_eraseP id q
      by_cases hn : n.orderId = id
      · rw [List.eraseP_cons_of_pos (by simpa using hn), idsOf, idsOf, List.map_cons, hn,
          List.erase_cons_head]
      · rw [List.eraseP_cons_of_neg (by simpa using hn), idsOf, List.map_cons]
        rw [idsOf] at ih
        rw [ih, idsOf, idsOf, List.map_cons, List.erase_cons_tail (by simpa using hn)]

/-- A cancelled order that was ahead leaves the part ahead. -/
theorem moves_cancel_ahead (h : Stands b s px m ahead) {id : UInt64} (hid : id ∈ idsOf ahead) :
    Moves b s px m ahead (Call.cancel id) m (ahead.eraseP fun n => decide (n.orderId = id)) := by
  obtain ⟨-, hloca⟩ := h.locate
  obtain ⟨behind, hq⟩ := h.queue
  have hloc := hloca id hid
  obtain ⟨n, hn, hnid⟩ := List.mem_map.mp hid
  have hstands : Stands (b.step (Call.cancel id)).1 s px m
      (ahead.eraseP fun n => decide (n.orderId = id)) := by
    refine ⟨sound_step b _ h.sound, fun j => tracks_cancel id (h.tracks j), behind, ?_⟩
    have hqueue := queue_cancel hloc s px
    rw [if_pos ⟨rfl, rfl⟩, hq, List.eraseP_append_left (by simpa using hnid) _ hn] at hqueue
    exact hqueue
  refine ⟨hstands, rfl, Nat.zero_add _, ?_, ?_⟩
  · -- what is removed is what the first order with the id has
    have hany : ∃ n ∈ ahead, (decide (n.orderId = id)) = true := ⟨n, hn, by simpa using hnid⟩
    obtain ⟨k, hk⟩ := Option.isSome_iff_exists.mp (List.find?_isSome.mpr hany)
    have hfind : (b.levelMut s px).queue.find? (·.orderId = id) = some k := by
      rw [hq, List.find?_append, hk]
      rfl
    have hsize := queueSize_eraseP hk
    have hremoved : b.removedQty id = k.remaining.toNat := by
      unfold Book.removedQty
      rw [hloc]
      dsimp only
      rw [hfind]
    have hnone : executedOf (idsOf ahead) [] = 0 := rfl
    simp only [cancelledOf, if_pos hid, hremoved]
    rw [show (b.step (Call.cancel id)).2.fills = [] from rfl, hnone]
    omega
  · have hnodup : (idsOf ahead).Nodup := by
      have hall := nodup_queue h.tracks s px
      rw [hq, List.map_append] at hall
      exact (List.nodup_append.mp hall).1
    rw [idsOf_eraseP, hnodup.erase_eq_filter]
    refine List.filter_congr fun j hj => ?_
    have hpost : (b.step (Call.cancel id)).1.locate[j]?
        = if compare id j = Ordering.eq then none else b.locate[j]? := by
      rw [show (b.step (Call.cancel id)).1 = (b.cancel id).1 from rfl, locate_cancel hloc,
        ExtTreeMap.getElem?_erase]
    by_cases hji : j = id
    · subst hji
      rw [if_pos (by simp)] at hpost
      rw [isResting_eq_false.mpr hpost]
      simp
    · rw [if_neg (by simpa using Ne.symm hji), hloca j hj] at hpost
      rw [isResting_eq_true hpost]
      simpa using hji

/-- Any other cancel leaves the order and the part ahead alone. -/
theorem moves_cancel_other (h : Stands b s px m ahead) {id : UInt64} (hid : id ∉ idsOf ahead)
    (hne : id ≠ m.orderId) : Moves b s px m ahead (Call.cancel id) m ahead := by
  obtain ⟨behind, hq⟩ := h.queue
  have hkeep : ∀ n ∈ ahead ++ [m], ¬ decide (n.orderId = id) = true := by
    intro n hn
    rw [decide_eq_true_eq]
    rintro rfl
    rcases List.mem_append.mp hn with hn | hn
    · exact hid (List.mem_map_of_mem hn)
    · exact hne (congrArg RestingOrder.orderId (List.mem_singleton.mp hn))
  have hqueue : ∃ behind', ((b.cancel id).1.levelMut s px).queue = ahead ++ m :: behind' := by
    cases hloc : b.locate[id]? with
    | none => exact ⟨behind, by rw [cancel_none hloc, hq]⟩
    | some p =>
        rw [queue_cancel hloc, hq]
        split
        · refine ⟨behind.eraseP fun n => decide (n.orderId = id), ?_⟩
          rw [show ahead ++ m :: behind = (ahead ++ [m]) ++ behind by simp,
            List.eraseP_append_right _ hkeep]
          simp
        · exact ⟨behind, rfl⟩
  have hstands : Stands (b.step (Call.cancel id)).1 s px m ahead :=
    ⟨sound_step b _ h.sound, fun j => tracks_cancel id (h.tracks j), hqueue⟩
  refine ⟨hstands, rfl, Nat.zero_add _, ?_, idsOf_filter hstands (List.nil_append _).symm
    fun j hj => absurd hj List.not_mem_nil⟩
  simp only [cancelledOf, if_neg hid]
  exact Nat.zero_add _

theorem moves_cancel (h : Stands b s px m ahead) {id : UInt64} (hne : id ≠ m.orderId) :
    ∃ ahead', Moves b s px m ahead (Call.cancel id) m ahead' := by
  by_cases hid : id ∈ idsOf ahead
  · exact ⟨_, moves_cancel_ahead h hid⟩
  · exact ⟨_, moves_cancel_other h hid hne⟩

/-- **One call** that does not cancel the order: it stands behind what is left of those ahead of
it, or it has been filled completely. -/
theorem stands_step (h : Stands b s px m ahead) {call : Call} (hfresh : call.Fresh b)
    (hkept : call ≠ Call.cancel m.orderId) :
    (∃ m' ahead', Moves b s px m ahead call m' ahead') ∨
      (makerQty m.orderId (b.step call).2.fills = m.remaining.toNat ∧
        (b.step call).1.isResting m.orderId = false) := by
  cases call with
  | submit o => exact moves_submit h hfresh
  | cancel id =>
      obtain ⟨ahead', hmoves⟩ := moves_cancel h fun he => hkept (congrArg Call.cancel he)
      exact Or.inl ⟨m, ahead', hmoves⟩

/-! ## Runs -/

/-- The orders of `ids` that still rest after the entries.  Once an order has left the book its id
is not followed any more, so one that reuses the id is not taken for it. -/
def follow : List UInt64 → List (Mealy.Entry Book Call Answer) → List UInt64
  | ids, [] => ids
  | ids, e :: h => follow (ids.filter e.post.isResting) h

/-- What the followed orders execute as makers, and what remains of those that are cancelled. -/
def workedOff : List UInt64 → List (Mealy.Entry Book Call Answer) → ℕ
  | _, [] => 0
  | ids, e :: h =>
      executedOf ids e.out.fills + cancelledOf ids e + workedOff (ids.filter e.post.isResting) h

/-- While the order is neither cancelled nor completely filled, it stands behind those of the
orders ahead that still rest. -/
theorem stands_run : ∀ (cs : List Call) {b : Book} {m : RestingOrder} {ahead : List RestingOrder},
    Stands b s px m ahead →
    (∀ e ∈ Mealy.trace Book.step b cs, e.input.Fresh e.pre) →
    (∀ e ∈ Mealy.trace Book.step b cs, e.input ≠ Call.cancel m.orderId ∧
      (e.post.isResting m.orderId = true ∨ makerQty m.orderId e.out.fills = 0)) →
    ∃ m' ahead', Stands (Mealy.exec Book.step b cs) s px m' ahead' ∧ m'.orderId = m.orderId ∧
      makerQty m.orderId (fillsOf (Mealy.trace Book.step b cs)) + m'.remaining.toNat
        = m.remaining.toNat ∧
      idsOf ahead' = follow (idsOf ahead) (Mealy.trace Book.step b cs) ∧
      workedOff (idsOf ahead) (Mealy.trace Book.step b cs) + queueSize ahead' = queueSize ahead
  | [], _, m, ahead, h, _, _ => ⟨m, ahead, h, rfl, Nat.zero_add _, rfl, Nat.zero_add _⟩
  | call :: cs, b, m, ahead, h, hfresh, hrests => by
      obtain ⟨hkept, halive⟩ := hrests _ List.mem_cons_self
      have hstep : (∃ m₁ ahead₁, Moves b s px m ahead call m₁ ahead₁) ∨
          (makerQty m.orderId (b.step call).2.fills = m.remaining.toNat ∧
            (b.step call).1.isResting m.orderId = false) :=
        stands_step h (hfresh _ List.mem_cons_self) hkept
      rcases hstep with ⟨m₁, ahead₁, hmoves⟩ | ⟨hall, hno⟩
      · obtain ⟨m', ahead', hend, hid, hown, hleft, hworked⟩ := stands_run cs hmoves.stands
          (fun e he => hfresh e (List.mem_cons_of_mem _ he))
          (fun e he => by rw [hmoves.same]; exact hrests e (List.mem_cons_of_mem _ he))
        have hown₁ := hmoves.own
        have hserved := hmoves.served
        rw [hmoves.same] at hid hown
        rw [hmoves.left] at hleft hworked
        refine ⟨m', ahead', hend, hid, ?_, hleft, ?_⟩
        · rw [Mealy.trace_cons, fillsOf, List.flatMap_cons, makerQty, List.filter_append,
            List.map_append, List.sum_append]
          dsimp only
          rw [makerQty] at hown hown₁
          rw [fillsOf] at hown
          omega
        · rw [Mealy.trace_cons, workedOff]
          dsimp only
          omega
      · -- a completely filled order has fills and does not rest
        have hne := h.remaining_ne_zero
        rcases halive with hyes | hzero
        · exact absurd (hno.symm.trans hyes) (by decide)
        · exact absurd (hall.symm.trans hzero) hne

/-- The quantity ahead of an order in the queue at a price. -/
def Book.aheadOf (b : Book) (s : Side) (px : Int) (id : UInt64) : ℕ :=
  queueSize ((b.levelMut s px).queue.takeWhile fun n => n.orderId ≠ id)

theorem aheadOf_eq (h : Stands b s px m ahead) : b.aheadOf s px m.orderId = queueSize ahead := by
  obtain ⟨behind, hq⟩ := h.queue
  obtain ⟨hne, -, -⟩ := h.disjoint hq
  rw [Book.aheadOf, hq, List.takeWhile_append_of_pos fun n hn => by simpa using hne n hn,
    List.takeWhile_cons_of_neg (by simp), List.append_nil]

/-- **Arriving**: the order stands at the back of its queue, and is told the size of it. -/
theorem stands_arrival {a : UInt64} (h : b.Whole) (htracks : ∀ id, b.Tracks id)
    (hfresh : b.isResting o.orderId = false)
    (hlt : b.restingAt o.side o.limitPx < 2 ^ 64)
    (hout : (b.step (Call.submit o)).2.outcome = Outcome.rested a) :
    ∃ m, m.orderId = o.orderId ∧
      Stands (b.step (Call.submit o)).1 o.side o.limitPx m (b.levelMut o.side o.limitPx).queue ∧
      queueSize (b.levelMut o.side o.limitPx).queue = a.toNat ∧
      (b.step (Call.submit o)).1.restingQty o.orderId = m.remaining.toNat := by
  have hlive := h.sound.live
  have hsound := sound_step b (Call.submit o) h.sound
  have htracks' : ∀ id, (b.step (Call.submit o)).1.Tracks id := fun id => by
    refine tracks_step hlive ?_ (htracks id)
    rintro o' ⟨⟩ rfl
    exact hfresh
  rw [Book.step] at hsound htracks' hout ⊢
  rcases submit_cases b o with ⟨-, he⟩ | ⟨-, -, he⟩ | ⟨-, -, he⟩ <;>
    rw [he] at hsound htracks' hout ⊢
  · exact absurd hout (by simp)
  · exact absurd hout (by simp)
  · have hlevel := Book.levelMut_eq_of_half (crossAll_serves o hlive).own o.limitPx
    have htotal : (b.levelMut o.side o.limitPx).totalSize = a := by
      rw [← hlevel]
      exact Outcome.rested.inj hout
    have hqueue : (((b.crossAll o).book.rest o (b.crossAll o).remaining).1.levelMut o.side
        o.limitPx).queue = (b.levelMut o.side o.limitPx).queue
          ++ [⟨o.orderId, (b.crossAll o).remaining, o.isSynthetic⟩] := by
      rw [queue_rest, if_pos ⟨rfl, rfl⟩, hlevel]
    have hstands : Stands ((b.crossAll o).book.rest o (b.crossAll o).remaining).1 o.side o.limitPx
        ⟨o.orderId, (b.crossAll o).remaining, o.isSynthetic⟩
        (b.levelMut o.side o.limitPx).queue := ⟨hsound, htracks', [], hqueue⟩
    refine ⟨_, rfl, hstands, ?_, ?_⟩
    · rw [← htotal]
      exact (exact_of_cached (Book.cached_levelMut h.cached _ _) hlt).symm
    · refine restingQty_of_mem (x := (⟨o.side, o.limitPx, o.orderId, o.isSynthetic⟩,
        (b.crossAll o).remaining.toNat)) (htracks' o.orderId) ?_ rfl
      exact (orders_rest _ o _).symm.subset List.mem_cons_self

/-! ## The promise -/

theorem makerQty_eq_zero {id : UInt64} {fs : List Fill} (h : ∀ f ∈ fs, f.makerOrderId ≠ id) :
    makerQty id fs = 0 := by
  have hnone : (fs.filter fun f => f.makerOrderId = id) = [] :=
    List.filter_eq_nil_iff.mpr fun f hf => by simpa using h f hf
  rw [makerQty, hnone]
  rfl

/-- **The first fill** of a standing order comes when the orders ahead of it are done. -/
theorem served_at_first_fill (h : Stands b s px m ahead) {fs gs : List Fill} {f : Fill}
    (hf : (b.submit o).2.1 = fs ++ f :: gs) (hown : f.makerOrderId = m.orderId)
    (hfirst : ∀ g ∈ fs, g.makerOrderId ≠ m.orderId) :
    executedOf (idsOf ahead) fs = queueSize ahead := by
  have hloc : b.locate[f.makerOrderId]? = some (s, px) := by
    rw [hown]
    exact h.locate.1
  have hat := at_of_located h.tracks h.sound.live
    (hf ▸ List.mem_append_right _ List.mem_cons_self) hloc
  obtain ⟨behind, hq⟩ := h.queue
  rcases order_of_fills h hf hat with hin | ⟨-, hdone⟩ | hall
  · obtain ⟨n, hn, hid⟩ := List.mem_map.mp hin
    exact absurd (hid.trans hown) ((h.disjoint hq).1 n hn)
  · exact hdone
  · rw [makerQty_eq_zero hfirst] at hall
    exact absurd hall.symm h.remaining_ne_zero

/-- A call that does not fill a standing order does not add to what is ahead of it. -/
theorem aheadOf_step (h : Stands b s px m ahead) {call : Call} (hfresh : call.Fresh b)
    (hkept : call ≠ Call.cancel m.orderId)
    (hno : ∀ f ∈ (b.step call).2.fills, f.makerOrderId ≠ m.orderId) :
    (b.step call).1.aheadOf s px m.orderId ≤ b.aheadOf s px m.orderId := by
  rcases stands_step h hfresh hkept with ⟨m', ahead', hmoves⟩ | ⟨hall, -⟩
  · have hpre := aheadOf_eq h
    have hpost := aheadOf_eq hmoves.stands
    have hserved := hmoves.served
    rw [hmoves.same] at hpost
    rw [hpre, hpost]
    omega
  · rw [makerQty_eq_zero hno] at hall
    exact absurd hall.symm h.remaining_ne_zero

/-- Where an order that rested with `a` ahead of it stands after the entries `h₁`, unless it has
been cancelled or completely filled in them. -/
theorem stands_since {cs₁ cs₂ : List Call} {a : UInt64}
    (hfresh : ∀ e ∈ Mealy.trace Book.step Book.new (cs₁ ++ Call.submit o :: cs₂),
      e.input.Fresh e.pre)
    (htotal : (Mealy.exec Book.step Book.new cs₁).restingAt o.side o.limitPx < 2 ^ 64)
    (hrests : ((Mealy.exec Book.step Book.new cs₁).step (Call.submit o)).2.outcome
      = Outcome.rested a)
    {h₁ h₂ : List (Mealy.Entry Book Call Answer)} {e : Mealy.Entry Book Call Answer}
    (hrun : Mealy.trace Book.step ((Mealy.exec Book.step Book.new cs₁).step (Call.submit o)).1 cs₂
      = h₁ ++ e :: h₂)
    (hsince : ∀ x ∈ h₁, x.input ≠ Call.cancel o.orderId ∧
      (x.post.isResting o.orderId = true ∨ makerQty o.orderId x.out.fills = 0)) :
    let b := Mealy.exec Book.step Book.new cs₁
    let ids := idsOf (b.levelMut o.side o.limitPx).queue
    ∃ m ahead, Stands e.pre o.side o.limitPx m ahead ∧ m.orderId = o.orderId ∧
      makerQty o.orderId (fillsOf h₁) + m.remaining.toNat
        = (b.step (Call.submit o)).1.restingQty o.orderId ∧
      idsOf ahead = follow ids h₁ ∧ workedOff ids h₁ + queueSize ahead = a.toNat ∧
      e.input.Fresh e.pre ∧ e.pre.step e.input = (e.post, e.out) := by
  intro b ids
  rw [Mealy.trace_append, Mealy.trace_cons] at hfresh
  have hfresh₁ : ∀ x ∈ Mealy.trace Book.step Book.new cs₁, x.input.Fresh x.pre :=
    fun x hx => hfresh x (List.mem_append_left _ hx)
  have hfreshₒ : b.isResting o.orderId = false :=
    hfresh _ (List.mem_append_right _ List.mem_cons_self)
  have hfresh₂ : ∀ x ∈ h₁ ++ e :: h₂, x.input.Fresh x.pre := by
    intro x hx
    rw [← hrun] at hx
    exact hfresh x (List.mem_append_right _ (List.mem_cons_of_mem _ hx))
  obtain ⟨m₀, hid₀, hstands, hsize, hqty⟩ := stands_arrival (whole_exec cs₁)
    (fun id => (tracks_trace hfresh₁ id).1) hfreshₒ htotal hrests
  obtain ⟨as₁, as₂, -, rfl, hpre, -, hstep⟩ := Mealy.trace_split hrun
  obtain ⟨m, ahead, hend, hid, hown, hleft, hworked⟩ := stands_run as₁ hstands
    (fun x hx => hfresh₂ x (List.mem_append_left _ hx)) (by rw [hid₀]; exact hsince)
  rw [hid₀] at hid hown
  refine ⟨m, ahead, hpre ▸ hend, hid, hown.trans hqty.symm, hleft, hworked.trans hsize, ?_, hstep⟩
  exact hfresh₂ e (List.mem_append_right _ List.mem_cons_self)

/-- **Queue position means what it says.**  An order rests with `a` ahead of it.  Follow the orders
that were resting at its price by then through any later calls that do not cancel it:

* at its first fill as a maker, what they have executed since and what was left of those that were
  cancelled make `a`;
* until then the quantity ahead of it never increases;
* an order that joined that price later has no fill there until it is completely filled. -/
theorem queue_position (cs₁ cs₂ : List Call) (o : NewOrder) (a : UInt64)
    (hfresh : ∀ e ∈ Mealy.trace Book.step Book.new (cs₁ ++ Call.submit o :: cs₂),
      e.input.Fresh e.pre)
    (htotal : (Mealy.exec Book.step Book.new cs₁).restingAt o.side o.limitPx < 2 ^ 64)
    (hrests : ((Mealy.exec Book.step Book.new cs₁).step (Call.submit o)).2.outcome
      = Outcome.rested a)
    (h₁ h₂ : List (Mealy.Entry Book Call Answer)) (e : Mealy.Entry Book Call Answer)
    (hrun : Mealy.trace Book.step ((Mealy.exec Book.step Book.new cs₁).step (Call.submit o)).1 cs₂
      = h₁ ++ e :: h₂)
    (hkept : ∀ x ∈ h₁ ++ [e], x.input ≠ Call.cancel o.orderId) :
    let b := Mealy.exec Book.step Book.new cs₁
    let ids := idsOf (b.levelMut o.side o.limitPx).queue
    ((∀ f ∈ fillsOf h₁, f.makerOrderId ≠ o.orderId) →
      ∀ fs f gs, e.out.fills = fs ++ f :: gs → f.makerOrderId = o.orderId →
        (∀ g ∈ fs, g.makerOrderId ≠ o.orderId) →
        workedOff ids h₁ + executedOf (follow ids h₁) fs = a.toNat) ∧
    ((∀ f ∈ fillsOf (h₁ ++ [e]), f.makerOrderId ≠ o.orderId) →
      e.post.aheadOf o.side o.limitPx o.orderId ≤ e.pre.aheadOf o.side o.limitPx o.orderId) ∧
    ((∀ x ∈ h₁, x.post.isResting o.orderId = true) →
      ∀ o' fs f gs, e.input = Call.submit o' → o'.side = o.side.opposite →
        e.out.fills = fs ++ f :: gs → f.priceTicks = o.limitPx →
        f.makerOrderId ∉ follow ids h₁ → f.makerOrderId ≠ o.orderId →
        makerQty o.orderId (fillsOf h₁ ++ fs)
          = (b.step (Call.submit o)).1.restingQty o.orderId) := by
  intro b ids
  have hkept₁ : ∀ x ∈ h₁, x.input ≠ Call.cancel o.orderId :=
    fun x hx => hkept x (List.mem_append_left _ hx)
  have hkeptₑ : e.input ≠ Call.cancel o.orderId :=
    hkept e (List.mem_append_right _ List.mem_cons_self)
  have hunhit : (∀ f ∈ fillsOf h₁, f.makerOrderId ≠ o.orderId) →
      ∀ x ∈ h₁, x.input ≠ Call.cancel o.orderId ∧
        (x.post.isResting o.orderId = true ∨ makerQty o.orderId x.out.fills = 0) := by
    refine fun hno x hx => ⟨hkept₁ x hx, Or.inr (makerQty_eq_zero fun f hf => ?_)⟩
    exact hno f (List.mem_flatMap_of_mem hx hf)
  refine ⟨fun hno fs f gs hfs hf hfirst => ?_, fun hno => ?_, ?_⟩
  · obtain ⟨m, ahead, hstands, hid, -, hleft, hworked, -, hstep⟩ :=
      stands_since hfresh htotal hrests hrun (hunhit hno)
    cases hin : e.input with
    | cancel id =>
        rw [hin] at hstep
        have hnil : e.out.fills = [] := (congrArg (fun r => r.2.fills) hstep).symm
        rw [hnil] at hfs
        exact absurd hfs (by simp)
    | submit o' =>
        rw [hin] at hstep
        have hfills : (e.pre.submit o').2.1 = fs ++ f :: gs :=
          (congrArg (fun r => r.2.fills) hstep).trans hfs
        rw [← hid] at hf hfirst
        rw [← hleft, served_at_first_fill hstands hfills hf hfirst]
        exact hworked
  · have hno₁ : ∀ f ∈ fillsOf h₁, f.makerOrderId ≠ o.orderId := fun f hf => hno f (by
      rw [fillsOf_append]
      exact List.mem_append_left _ hf)
    have hnoₑ : ∀ f ∈ e.out.fills, f.makerOrderId ≠ o.orderId := fun f hf => hno f (by
      rw [fillsOf_append, fillsOf_singleton]
      exact List.mem_append_right _ hf)
    obtain ⟨m, ahead, hstands, hid, -, -, -, hfreshₑ, hstep⟩ :=
      stands_since hfresh htotal hrests hrun (hunhit hno₁)
    rw [← hid] at hkeptₑ hnoₑ ⊢
    have hmono := aheadOf_step hstands hfreshₑ hkeptₑ (by rw [hstep]; exact hnoₑ)
    rwa [hstep] at hmono
  · intro hrest o' fs f gs hin hside hfs hprice hahead hother
    obtain ⟨m, ahead, hstands, hid, hown, hleft, -, -, hstep⟩ :=
      stands_since hfresh htotal hrests hrun fun x hx => ⟨hkept₁ x hx, Or.inl (hrest x hx)⟩
    rw [hin] at hstep
    have hfills : (e.pre.submit o').2.1 = fs ++ f :: gs :=
      (congrArg (fun r => r.2.fills) hstep).trans hfs
    have hat : (f.take o'.side.opposite).tag.At o.side o.limitPx :=
      ⟨by rw [hside]; exact o.side.opposite_opposite, hprice⟩
    rcases order_of_fills hstands hfills hat with hin' | ⟨hself, -⟩ | hall
    · exact absurd (hleft ▸ hin') hahead
    · exact absurd (hself.trans hid) hother
    · rw [hid] at hall
      rw [← hown, ← hall, makerQty, List.filter_append, List.map_append, List.sum_append]
      rfl

/-- Two orders ahead: one is filled in part, the other cancelled.  Then a taker fills the rest of
the first, the order itself, and one that joined behind it. -/
theorem queue_position_run :
    let ahead := [Call.submit ⟨1, Side.sell, true, 100, 2, 0, true⟩,
      Call.submit ⟨2, Side.sell, true, 100, 3, 0, true⟩]
    let o : NewOrder := ⟨3, Side.sell, true, 100, 4, 0, false⟩
    let between := [Call.submit ⟨4, Side.buy, true, 100, 1, 0, true⟩, Call.cancel 2,
      Call.submit ⟨5, Side.sell, true, 100, 1, 0, true⟩]
    let taker := Call.submit ⟨6, Side.buy, true, 100, 6, 0, true⟩
    let b := ((Mealy.exec Book.step Book.new ahead).step (Call.submit o)).1
    let h₁ := Mealy.trace Book.step b between
    let fills := ((Mealy.exec Book.step b between).step taker).2.fills
    workedOff [1, 2] h₁ + executedOf (follow [1, 2] h₁) (fills.take 1) = 5 ∧
      makerQty 3 (fillsOf h₁ ++ fills.take 2) = 4 := by
  intro ahead o between taker b h₁ fills
  let b' := Mealy.exec Book.step b between
  obtain ⟨hfirst, -, hlater⟩ := queue_position ahead (between ++ [taker]) o 5 (by decide +kernel)
    (by decide +kernel) (by decide +kernel) h₁ []
    ⟨b', taker, (b'.step taker).2, (b'.step taker).1⟩ (Mealy.trace_append _ _ _ _)
    (by decide +kernel)
  have hqty : ((Mealy.exec Book.step Book.new ahead).step (Call.submit o)).1.restingQty o.orderId
      = 4 := by decide +kernel
  refine ⟨hfirst (by decide +kernel) (fills.take 1) ⟨6, 3, 100, 4, 0, 1, true, false⟩
    (fills.drop 2) (by decide +kernel) rfl (by decide +kernel), ?_⟩
  exact (hlater (by decide +kernel) ⟨6, Side.buy, true, 100, 6, 0, true⟩ (fills.take 2)
    ⟨6, 5, 100, 1, 0, 0, true, true⟩ [] rfl rfl (by decide +kernel) rfl (by decide +kernel)
    (by decide)).trans hqty

end HotpathIpc
