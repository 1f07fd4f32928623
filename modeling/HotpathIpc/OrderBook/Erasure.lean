import HotpathIpc.OrderBook.View
import HotpathIpc.OrderBook.Outstanding

/-!
# Erasing an order that was never hit

A limit order that rests in full, is never filled and is cancelled leaves no trace but in what
others were told: the run without its submit and its cancel has the same fills, the same final
book and the same outcomes, up to the `queueAhead` of the orders that joined its price behind it.

* `Book.Erases` — two books that differ by one resting order and its entry in the index.
* `erases_crossAll`, `erases_rest`, `erases_cancel` — a call that does not touch the order keeps
  them so; `erases_submitted` and `erases_cancelled` are where the relation starts and ends.
* **`erase_unhit`** — the two runs, entry by entry.
-/

namespace HotpathIpc

open Std (ExtTreeMap)
open Greedy (supply consume residue exhausted)
open Lists (filter_eraseP_of_imp filter_eraseP_of_not eraseP_eq_filter)

/-! ## Queues without an entry -/

theorem queueSize_filter (p : RestingOrder → Bool) : ∀ q : List RestingOrder,
    queueSize q = queueSize (q.filter p) + queueSize (q.filter fun m => !p m)
  | [] => rfl
  | m :: q => by
      have ih := queueSize_filter p q
      cases hp : p m <;> simp only [List.filter_cons, hp, queueSize_cons, if_true, if_false,
        Bool.not_true, Bool.not_false, Bool.false_eq_true] <;> omega

/-! ## The relation -/

/-- `b'` is `b` without the order `m`, the only one of its id, which rests at `s` and `px`. -/
structure Book.Erases (m : RestingOrder) (s : Side) (px : Int) (b b' : Book) : Prop where
  whole : b.Whole
  whole' : b'.Whole
  kept : ∀ t p, (b'.levelMut t p).queue
    = (b.levelMut t p).queue.filter fun n => !decide (n.orderId = m.orderId)
  held : ∀ t p, (b.levelMut t p).queue.filter (fun n => decide (n.orderId = m.orderId))
    = if t = s ∧ p = px then [m] else []
  locate : ∀ j : UInt64,
    b.locate[j]? = if j = m.orderId then some (s, px) else b'.locate[j]?
  gone : b'.locate[m.orderId]? = none

variable {m : RestingOrder} {s : Side} {px : Int} {b b' : Book}

namespace Book.Erases

/-- The same of whole ladders. -/
theorem ladder (h : b.Erases m s px b') (t : Side) :
    b'.ladder t = (b.ladder t).filter fun x => !decide (x.1.orderId = m.orderId) := by
  have hq : ∀ p, ((b'.levelMut t p).queue.filter fun _ => true)
      = (b.levelMut t p).queue.filter fun n => !decide (n.orderId = m.orderId) := fun p => by
    rw [List.filter_true, h.kept]
  have hl := (filter_ladder_iff (fun _ => true) fun id => !decide (id = m.orderId)).mpr hq
  rwa [List.filter_true] at hl

/-- The level the order rests at holds its quantity more; any other level is the same. -/
theorem levelMut (h : b.Erases m s px b') (t : Side) (p : Int) :
    if t = s ∧ p = px
    then (b.levelMut t p).totalSize = (b'.levelMut t p).totalSize + m.remaining ∧
      queueSize (b.levelMut t p).queue
        = queueSize (b'.levelMut t p).queue + m.remaining.toNat
    else b.levelMut t p = b'.levelMut t p := by
  have hc := Book.cached_levelMut h.whole.cached t p
  have hc' := Book.cached_levelMut h.whole'.cached t p
  have hsum := queueSize_filter (fun n => decide (n.orderId = m.orderId)) (b.levelMut t p).queue
  rw [h.held, ← h.kept] at hsum
  split
  · rename_i hat
    rw [if_pos hat, queueSize_cons, queueSize_nil] at hsum
    refine ⟨?_, by omega⟩
    rw [hc, hc', hsum, Nat.add_zero, Nat.add_comm, UInt64.ofNat_add, UInt64.ofNat_toNat]
  · rename_i hat
    have hnone : (b.levelMut t p).queue.filter (fun n => decide (n.orderId = m.orderId)) = [] := by
      rw [h.held, if_neg hat]
    refine level_eq_of_queue hc hc' ?_
    rw [h.kept, eq_comm, List.filter_eq_self]
    intro n hn
    have hne := List.filter_eq_nil_iff.mp hnone n hn
    simpa using hne

end Book.Erases

/-! ## Crossing -/

variable {o : NewOrder}

theorem opposing_erases (h : b.Erases m s px b') (o : NewOrder) :
    b'.opposing o = (b.opposing o).filter (fun x => !decide (x.1.orderId = m.orderId)) ∧
      b'.outOfReach o = (b.outOfReach o).filter fun x => !decide (x.1.orderId = m.orderId) := by
  refine ⟨?_, ?_⟩ <;>
    simp only [Book.opposing, Book.outOfReach, h.ladder, List.filter_filter, Bool.and_comm]

/-- A taker that does not meet the order is not aware of it. -/
theorem spares_of_fills (hlive : b.LiveLevels)
    (hunhit : ∀ f ∈ (b.crossAll o).fills, f.makerOrderId ≠ m.orderId) :
    Greedy.Spares (fun t : MakerTag => !decide (t.orderId = m.orderId)) o.quantity.toNat
      (b.opposing o) := by
  refine Greedy.spares (hlive.positive_opposing o) fun t ht => ?_
  rw [← (crossAll_serves o hlive).fills] at ht
  obtain ⟨f, hf, rfl⟩ := List.mem_map.mp ht
  have hne : (Fill.take o.side.opposite f).tag.orderId ≠ m.orderId := hunhit f hf
  simpa using hne

/-- Its id is not cleared. -/
theorem not_mem_exhausted {q : ℕ} {xs : List (MakerTag × ℕ)} {id : UInt64}
    (h : Greedy.Spares (fun t : MakerTag => !decide (t.orderId = id)) q xs) :
    id ∉ (exhausted q xs).map MakerTag.orderId := by
  intro hmem
  obtain ⟨t, ht, hid⟩ := List.mem_map.mp hmem
  rw [← h.exhausted] at ht
  have htag : t ∈ (xs.filter fun x => !decide (x.1.orderId = id)).map Prod.fst := by
    rw [Greedy.map_fst_eq q]
    exact List.mem_append_left _ ht
  obtain ⟨x, hx, rfl⟩ := List.mem_map.mp htag
  have hne := (List.mem_filter.mp hx).2
  simp [hid] at hne

/-- The fills of one order are equal if they take the same. -/
theorem fills_eq_of_takes {t : Side} {fs gs : List Fill} (hfs : ∀ f ∈ fs, f.IsBy o)
    (hgs : ∀ f ∈ gs, f.IsBy o) (h : fs.map (Fill.take t) = gs.map (Fill.take t)) : fs = gs := by
  refine List.map_injective_iff.mpr fill_exact_injective ?_
  rw [map_exact t hfs, map_exact t hgs, h]

theorem erases_crossAll (h : b.Erases m s px b')
    (hunhit : ∀ f ∈ (b.crossAll o).fills, f.makerOrderId ≠ m.orderId) :
    (b.crossAll o).book.Erases m s px (b'.crossAll o).book ∧
      (b'.crossAll o).fills = (b.crossAll o).fills ∧
      (b'.crossAll o).remaining = (b.crossAll o).remaining := by
  have hs := crossAll_serves o h.whole.sound.live
  have hs' := crossAll_serves o h.whole'.sound.live
  have hsp := spares_of_fills h.whole.sound.live hunhit
  obtain ⟨hin, hout⟩ := opposing_erases h o
  have hkept : ∀ t, (b'.crossAll o).book.ladder t = ((b.crossAll o).book.ladder t).filter
      fun x => !decide (x.1.orderId = m.orderId) := by
    intro t
    rcases Side.eq_or_eq_opposite t o.side with rfl | rfl
    · rw [Book.ladder_eq_of_half hs.own, Book.ladder_eq_of_half hs'.own, h.ladder]
    · rw [hs.ladder, hs'.ladder, hin, hout, hsp.residue, List.filter_append]
  have hheld : ∀ t, ((b.crossAll o).book.ladder t).filter
        (fun x => decide (x.1.orderId = m.orderId))
      = (b.ladder t).filter fun x => decide (x.1.orderId = m.orderId) := by
    intro t
    rcases Side.eq_or_eq_opposite t o.side with rfl | rfl
    · rw [Book.ladder_eq_of_half hs.own]
    · have hspared := hsp.spared
      simp only [Bool.not_not] at hspared
      rw [hs.ladder, List.filter_append, hspared, ← List.filter_append,
        ← Book.ladder_eq_opposing_append]
  have hexh : exhausted o.quantity.toNat (b'.opposing o)
      = exhausted o.quantity.toNat (b.opposing o) := by rw [hin, hsp.exhausted]
  have hnot := not_mem_exhausted hsp
  refine ⟨⟨⟨sound_crossAll o h.whole.sound, hs.cached h.whole.cached⟩,
    ⟨sound_crossAll o h.whole'.sound, hs'.cached h.whole'.cached⟩, fun t p => ?_, fun t p => ?_,
    fun j => ?_, ?_⟩, ?_, ?_⟩
  · have hq := (filter_ladder_iff (fun _ => true) fun id => !decide (id = m.orderId)).mp
      ((List.filter_true _).trans (hkept t)) p
    rwa [List.filter_true] at hq
  · rw [← h.held]
    exact (filter_ladder_iff (fun id => decide (id = m.orderId))
      fun id => decide (id = m.orderId)).mp (hheld t) p
  · rw [hs.locate, hs'.locate, hexh, getElem?_foldl_erase, getElem?_foldl_erase, h.locate]
    by_cases hj : j = m.orderId
    · rw [if_pos hj, if_pos hj, hj, if_neg hnot]
    · rw [if_neg hj, if_neg hj]
  · rw [hs'.locate, getElem?_foldl_erase, h.gone, ite_self]
  · refine fills_eq_of_takes (t := o.side.opposite) hs'.taker hs.taker ?_
    rw [hs'.fills, hs.fills, hin, hsp.consume]
  · rw [← UInt64.toNat_inj, hs'.remaining, hs.remaining, hin, hsp.unmet]

/-! ## Resting -/

theorem whole_rest {rem : UInt64} (h : b.Whole) (hsound : (b.rest o rem).1.Sound) :
    (b.rest o rem).1.Whole := ⟨hsound, cached_rest rem h.cached⟩

theorem erases_rest {rem : UInt64} (h : b.Erases m s px b') (hne : o.orderId ≠ m.orderId)
    (hsound : (b.rest o rem).1.Sound) (hsound' : (b'.rest o rem).1.Sound) :
    (b.rest o rem).1.Erases m s px (b'.rest o rem).1 := by
  refine ⟨whole_rest h.whole hsound, whole_rest h.whole' hsound', fun t p => ?_, fun t p => ?_,
    fun j => ?_, ?_⟩
  · rw [queue_rest, queue_rest, h.kept]
    split
    · rw [List.filter_append, List.filter_cons_of_pos (by simp [hne]), List.filter_nil]
    · rfl
  · rw [← h.held, queue_rest]
    split
    · rw [List.filter_append, List.filter_cons_of_neg (by simp [hne]), List.filter_nil,
        List.append_nil]
    · rfl
  · rw [locate_rest, locate_rest, ExtTreeMap.getElem?_insert, ExtTreeMap.getElem?_insert, h.locate]
    by_cases hj : j = m.orderId
    · rw [if_pos hj, if_pos hj, if_neg (by simpa [hj] using hne)]
    · rw [if_neg hj, if_neg hj]
  · rw [locate_rest, ExtTreeMap.getElem?_insert, if_neg (by simpa using hne), h.gone]

/-! ## Cancelling -/

/-- Cancelling another order, in both books. -/
theorem erases_cancel {j : UInt64} (h : b.Erases m s px b') (hne : j ≠ m.orderId) :
    (b.cancel j).1.Erases m s px (b'.cancel j).1 ∧ (b'.cancel j).2 = (b.cancel j).2 := by
  have hj := h.locate j
  rw [if_neg hne] at hj
  cases hloc : b.locate[j]? with
  | none =>
      rw [cancel_none hloc, cancel_none (hj.symm.trans hloc)]
      exact ⟨h, rfl⟩
  | some up =>
      obtain ⟨u, r⟩ := up
      have hloc' := hj.symm.trans hloc
      refine ⟨⟨whole_step (Call.cancel j) h.whole, whole_step (Call.cancel j) h.whole',
        fun t p => ?_, fun t p => ?_, fun i => ?_, ?_⟩, by rw [cancel_some hloc, cancel_some hloc']⟩
      · rw [queue_cancel hloc, queue_cancel hloc', h.kept]
        split
        · rw [filter_eraseP_of_imp]
          intro n _ hn
          have hid : n.orderId = j := by simpa using hn
          simp [hid, hne]
        · rfl
      · rw [← h.held, queue_cancel hloc]
        split
        · rw [filter_eraseP_of_not]
          intro n _ hn
          have hid : n.orderId = j := by simpa using hn
          simp [hid, hne]
        · rfl
      · rw [locate_cancel hloc, locate_cancel hloc', ExtTreeMap.getElem?_erase,
          ExtTreeMap.getElem?_erase, h.locate]
        by_cases hi : i = m.orderId
        · rw [if_pos hi, if_pos hi, if_neg (by simpa [hi] using hne)]
        · rw [if_neg hi, if_neg hi]
      · rw [locate_cancel hloc', ExtTreeMap.getElem?_erase, if_neg (by simpa using hne), h.gone]

/-- **Cancelling the order itself** leaves the other book. -/
theorem erases_cancelled (h : b.Erases m s px b') : (b.cancel m.orderId).1 = b' := by
  have hloc : b.locate[m.orderId]? = some (s, px) := by rw [h.locate, if_pos rfl]
  refine book_ext (fun t => half_eq_of_queues (whole_step (Call.cancel _) h.whole) h.whole'
    fun p => ?_) (ExtTreeMap.ext_getElem? fun j => ?_)
  · have hheld := h.held t p
    rw [queue_cancel hloc, h.kept]
    split
    · rename_i hat
      rw [if_pos hat] at hheld
      exact eraseP_eq_filter hheld
    · rename_i hat
      rw [if_neg hat] at hheld
      have hnone := List.filter_eq_nil_iff.mp hheld
      exact (List.filter_eq_self.mpr fun n hn => by simpa using hnone n hn).symm
  · rw [locate_cancel hloc, ExtTreeMap.getElem?_erase, h.locate]
    by_cases hj : m.orderId = j
    · subst hj
      rw [if_pos (by simp), h.gone]
    · rw [if_neg (by simpa using hj), if_neg (Ne.symm hj)]

/-! ## Where the relation starts -/

/-- The order as it rests, unfilled. -/
def NewOrder.resting (o : NewOrder) : RestingOrder := ⟨o.orderId, o.quantity, o.isSynthetic⟩

@[simp] theorem orderId_resting (o : NewOrder) : o.resting.orderId = o.orderId := rfl

/-- No queue holds an id that is tracked and not indexed. -/
theorem not_mem_queue {id : UInt64} (h : b.Tracks id) (hloc : b.locate[id]? = none) (t : Side)
    (p : Int) : ∀ n ∈ (b.levelMut t p).queue, n.orderId ≠ id := by
  intro n hn
  rcases levelMut_cases b t p with hl | ⟨-, hl⟩
  · have hmem : (n.tag t p, n.remaining.toNat) ∈ b.ladder t :=
      Book.mem_ladder.mpr ⟨_, hl, List.mem_map_of_mem hn⟩
    exact h.not_mem hloc _ ((orders_perm b t).symm.subset (List.mem_append_left _ hmem))
  · rw [hl] at hn
    exact absurd hn List.not_mem_nil

/-- An order that meets nobody crosses nothing. -/
theorem crossAll_of_fills_nil (h : b.Whole) (hfills : (b.crossAll o).fills = [])
    (hrem : (b.crossAll o).remaining ≠ 0) :
    (b.crossAll o).book = b ∧ (b.crossAll o).remaining = o.quantity := by
  have hs := crossAll_serves o h.sound.live
  have hq : o.quantity.toNat ≠ 0 := by
    intro hz
    have hr := hs.remaining
    rw [hz, Nat.zero_sub] at hr
    exact hrem (toNat_eq_zero.mp hr)
  have hnil : b.opposing o = [] := by
    refine Greedy.consume_eq_nil ?_ hq
    rw [← hs.fills, hfills]
    rfl
  constructor
  · refine book_ext (fun t => ?_) ?_
    · rcases Side.eq_or_eq_opposite t o.side with rfl | rfl
      · exact hs.own
      · refine half_eq_of_ladder ⟨sound_crossAll o h.sound, hs.cached h.cached⟩ h ?_
        rw [hs.ladder, Book.ladder_eq_opposing_append, hnil]
        rfl
    · rw [hs.locate, hnil]
      rfl
  · rw [← UInt64.toNat_inj, hs.remaining, hnil, Greedy.supply_nil, Nat.sub_zero]

/-- **Submitting the order**: the book with it beside the book before it. -/
theorem erases_submitted {a : UInt64} (h : b.Whole) (htracks : b.Tracks o.orderId)
    (hloc : b.locate[o.orderId]? = none)
    (hout : (b.step (Call.submit o)).2 = ⟨[], Outcome.rested a⟩) :
    (b.step (Call.submit o)).1.Erases o.resting o.side o.limitPx b := by
  obtain ⟨hfills, hrested⟩ := Answer.mk.inj hout
  have hwhole := whole_step (Call.submit o) h
  simp only [Book.step] at hwhole ⊢
  rcases submit_cases b o with ⟨-, he⟩ | ⟨-, -, he⟩ | ⟨h0, -, he⟩
  · rw [he] at hrested
    exact absurd hrested (by simp)
  · rw [he] at hrested
    exact absurd hrested (by simp)
  · obtain ⟨hbook, hrem⟩ := crossAll_of_fills_nil h ((submit_fills b o).symm.trans hfills) h0
    rw [he, hbook, hrem] at hwhole ⊢
    have hnone : ∀ t p, ∀ n ∈ (b.levelMut t p).queue, ¬ n.orderId = o.resting.orderId :=
      not_mem_queue htracks hloc
    refine ⟨hwhole, h, fun t p => ?_, fun t p => ?_, fun j => ?_, hloc⟩
    · have hself : (b.levelMut t p).queue.filter
          (fun n => !decide (n.orderId = o.resting.orderId)) = (b.levelMut t p).queue :=
        List.filter_eq_self.mpr fun n hn => by rw [decide_eq_false (hnone t p n hn)]; rfl
      rw [queue_rest]
      split
      · rw [List.filter_append, hself, List.filter_cons_of_neg (by simp [NewOrder.resting]),
          List.filter_nil, List.append_nil]
      · exact hself.symm
    · have hnil : (b.levelMut t p).queue.filter
          (fun n => decide (n.orderId = o.resting.orderId)) = [] :=
        List.filter_eq_nil_iff.mpr fun n hn => by rw [decide_eq_false (hnone t p n hn)]; decide
      rw [queue_rest]
      split
      · rw [List.filter_append, hnil, List.filter_cons_of_pos (by simp [NewOrder.resting])]
        rfl
      · exact hnil
    · rw [locate_rest, ExtTreeMap.getElem?_insert]
      by_cases hj : j = o.resting.orderId
      · rw [if_pos hj, if_pos (by simp [hj])]
      · rw [if_neg hj, if_neg (by simpa using Ne.symm hj)]

/-! ## The two runs -/

/-- `e` tells an order its place in the queue that `o` rests in. -/
def Joins (o : NewOrder) (e : Mealy.Entry Book Call Answer) : Prop :=
  ∃ o' a, e.input = Call.submit o' ∧ o'.side = o.side ∧ o'.limitPx = o.limitPx ∧
    e.out.outcome = Outcome.rested a

/-- `e'` is the entry without `o` for the entry `e` with it.  `queueAhead` is a `u64`; as a number
it is smaller by the quantity of `o` unless the total at the price has wrapped around. -/
structure Unaffected (o : NewOrder) (e e' : Mealy.Entry Book Call Answer) : Prop where
  input : e'.input = e.input
  fills : e'.out.fills = e.out.fills
  outcome : ¬ Joins o e → e'.out.outcome = e.out.outcome
  ahead : Joins o e → ∃ a, e'.out.outcome = Outcome.rested a ∧
    e.out.outcome = Outcome.rested (a + o.quantity) ∧
    (e.pre.restingAt o.side o.limitPx < 2 ^ 64 →
      (a + o.quantity).toNat = a.toNat + o.quantity.toNat)

/-- A call that is not about `o` and does not hit it. -/
def Spares (o : NewOrder) (b : Book) (call : Call) : Prop :=
  (∀ o', call = Call.submit o' → o'.orderId ≠ o.orderId) ∧ call ≠ Call.cancel o.orderId ∧
    ∀ f ∈ (b.step call).2.fills, f.makerOrderId ≠ o.orderId

/-- What a remainder is told, in the two books. -/
theorem ahead_rest {c c' : Book} (h : c.Erases o.resting o.side o.limitPx c') (o' : NewOrder)
    (rem : UInt64) :
    if o'.side = o.side ∧ o'.limitPx = o.limitPx then
      ∃ a, (c'.rest o' rem).2 = Outcome.rested a ∧
        (c.rest o' rem).2 = Outcome.rested (a + o.quantity) ∧
        (c.restingAt o.side o.limitPx < 2 ^ 64 →
          (a + o.quantity).toNat = a.toNat + o.quantity.toNat)
    else (c'.rest o' rem).2 = (c.rest o' rem).2 := by
  have hl := h.levelMut o'.side o'.limitPx
  split
  · rename_i hat
    obtain ⟨hside, hpx⟩ := hat
    rw [if_pos ⟨hside, hpx⟩] at hl
    obtain ⟨htotal, hsize⟩ := hl
    refine ⟨(c'.levelMut o'.side o'.limitPx).totalSize, rfl, congrArg Outcome.rested htotal,
      fun hlt => ?_⟩
    rw [← hside, ← hpx, Book.restingAt] at hlt
    have hm : o.resting.remaining = o.quantity := rfl
    have hc : (c.levelMut o'.side o'.limitPx).totalSize.toNat = _ :=
      exact_of_cached (Book.cached_levelMut h.whole.cached _ _) hlt
    have hc' : (c'.levelMut o'.side o'.limitPx).totalSize.toNat = _ :=
      exact_of_cached (Book.cached_levelMut h.whole'.cached _ _) (by omega)
    rw [hm] at htotal hsize
    rw [← htotal, hc, hc', hsize]
  · rename_i hat
    rw [if_neg hat] at hl
    simp only [Book.rest, hl]

theorem erases_step {call : Call} (h : b.Erases o.resting o.side o.limitPx b')
    (hg : Spares o b call) :
    (b.step call).1.Erases o.resting o.side o.limitPx (b'.step call).1 ∧
      Unaffected o ⟨b, call, (b.step call).2, (b.step call).1⟩
        ⟨b', call, (b'.step call).2, (b'.step call).1⟩ := by
  obtain ⟨hsubmit, hcancel, hunhit⟩ := hg
  cases call with
  | cancel j =>
      obtain ⟨hbook, hout⟩ := erases_cancel h fun e => hcancel (congrArg Call.cancel e)
      refine ⟨hbook, rfl, rfl, fun _ => hout, ?_⟩
      rintro ⟨o', a, hin, -⟩
      exact absurd hin (by simp)
  | submit o' =>
      have hne : o'.orderId ≠ o.resting.orderId := hsubmit o' rfl
      have hmakers : ∀ f ∈ (b.crossAll o').fills, f.makerOrderId ≠ o.resting.orderId := by
        rw [← submit_fills]
        exact hunhit
      obtain ⟨hbook, hfills, hrem⟩ := erases_crossAll h hmakers
      have hsound := sound_submit o' h.whole.sound
      have hsound' := sound_submit o' h.whole'.sound
      rw [Book.step, Book.step]
      by_cases h0 : (b.crossAll o').remaining = 0
      · rw [submit_filled h0, submit_filled (hrem.trans h0)]
        refine ⟨hbook, rfl, hfills, fun _ => rfl, ?_⟩
        rintro ⟨_, _, -, -, -, hout⟩
        exact absurd hout (by simp)
      · have h0' : (b'.crossAll o').remaining ≠ 0 := hrem ▸ h0
        cases hl : o'.isLimit with
        | false =>
            rw [submit_rejected h0 hl, submit_rejected h0' hl]
            refine ⟨hbook, rfl, hfills, fun _ => rfl, ?_⟩
            rintro ⟨_, _, -, -, -, hout⟩
            exact absurd hout (by simp)
        | true =>
            rw [submit_rested h0 hl] at hsound ⊢
            rw [submit_rested h0' hl, hrem] at hsound' ⊢
            have hahead := ahead_rest hbook o' (b.crossAll o').remaining
            refine ⟨erases_rest hbook hne hsound hsound', rfl, hfills, fun hno => ?_, ?_⟩
            · have hat : ¬ (o'.side = o.side ∧ o'.limitPx = o.limitPx) := fun hat =>
                hno ⟨o', _, rfl, hat.1, hat.2, rfl⟩
              rwa [if_neg hat] at hahead
            · rintro ⟨o'', a, hin, hside, hpx, -⟩
              obtain rfl := Call.submit.inj hin
              rw [if_pos ⟨hside, hpx⟩] at hahead
              obtain ⟨a', hout', hout, hexact⟩ := hahead
              refine ⟨a', hout', hout, fun hlt => hexact ?_⟩
              rwa [Book.restingAt, ← hside, own_crossAll o' h.whole.sound.live, hside]

/-! ## Runs -/

/-- If a cancel finds its order, no cancel before it did since the order was submitted. -/
theorem cancel_not_mem {cs : List Call} {id : UInt64} (hb : b.Sound) (hid : id ∉ submittedIds cs)
    (hout : ((Mealy.exec Book.step b cs).cancel id).2 = Outcome.cancelled) :
    Call.cancel id ∉ cs := by
  intro hmem
  obtain ⟨xs, ys, rfl⟩ := List.append_of_mem hmem
  rw [submittedIds_append, List.mem_append, not_or] at hid
  have hxs := (sound_run hb xs).1
  have hnone : ((Mealy.exec Book.step b xs).step (Call.cancel id)).1.locate[id]? = none := by
    have hstep : (Mealy.exec Book.step b xs).step (Call.cancel id)
        = (((Mealy.exec Book.step b xs).cancel id).1,
          ⟨[], ((Mealy.exec Book.step b xs).cancel id).2⟩) := rfl
    rw [hstep]
    cases hloc : (Mealy.exec Book.step b xs).locate[id]? with
    | none => rw [cancel_none hloc, hloc]
    | some up => rw [locate_cancel hloc, ExtTreeMap.getElem?_erase, if_pos (by simp)]
  have hys : id ∉ submittedIds ys := hid.2
  have hlate := locate_exec_none (sound_step _ (Call.cancel id) hxs) hnone hys
  rw [Mealy.exec_append, Mealy.exec_cons, cancel_none hlate] at hout
  exact absurd hout (by simp)

/-- While the order rests unhit, both runs go on side by side. -/
theorem erases_run {cs : List Call} (h : b.Erases o.resting o.side o.limitPx b')
    (hid : o.orderId ∉ submittedIds cs) (hcancel : Call.cancel o.orderId ∉ cs)
    (hunhit : ∀ e ∈ Mealy.trace Book.step b cs, ∀ f ∈ e.out.fills, f.makerOrderId ≠ o.orderId) :
    (Mealy.exec Book.step b cs).Erases o.resting o.side o.limitPx (Mealy.exec Book.step b' cs) ∧
      List.Forall₂ (Unaffected o) (Mealy.trace Book.step b cs) (Mealy.trace Book.step b' cs) := by
  have hguard : ∀ e ∈ Mealy.trace Book.step b cs, Spares o e.pre e.input := by
    intro e he
    have hin : e.input ∈ cs := by
      rw [← Mealy.map_input_trace Book.step b cs]
      exact List.mem_map_of_mem he
    refine ⟨ne_of_not_mem_submittedIds hid e.input hin, fun hc => hcancel (hc ▸ hin), ?_⟩
    rw [Mealy.step_of_mem_trace he]
    exact hunhit e he
  have hrun := Mealy.translation (Q := Unaffected o) (g := Spares o) id
    (fun c c' call hc hg => erases_step hc hg) h hguard
  rwa [List.map_id] at hrun

/-- The book an order that is submitted for the first time finds. -/
theorem fresh_exec {cs : List Call} {id : UInt64} (hid : id ∉ submittedIds cs) :
    (Mealy.exec Book.step Book.new cs).Tracks id ∧
      (Mealy.exec Book.step Book.new cs).locate[id]? = none :=
  ⟨(outstanding_exec (outstanding_new id) (by rw [List.count_eq_zero.mpr hid]; omega)).tracks,
    locate_exec_none sound_new (by simp) hid⟩

/-- **Erasing an order that was never hit.**  Cut a run that never reuses an id at the entry `eo`
where the limit order `o` rests unfilled and at the entry `ec` where it is cancelled, with no fill
of it in between.  The run without these two calls has the same entries before and after, entries
that differ at most in a `queueAhead` in between, and ends in the same book. -/
theorem erase_unhit (cs : List Call) (o : NewOrder) (a : UInt64)
    (h₁ h₂ h₃ : List (Mealy.Entry Book Call Answer)) (eo ec : Mealy.Entry Book Call Answer)
    (hids : (submittedIds cs).Nodup)
    (hrun : Mealy.trace Book.step Book.new cs = h₁ ++ eo :: (h₂ ++ ec :: h₃))
    (hsubmit : eo.input = Call.submit o) (hrests : eo.out = ⟨[], Outcome.rested a⟩)
    (hcancel : ec.input = Call.cancel o.orderId) (hcancelled : ec.out.outcome = Outcome.cancelled)
    (hunhit : ∀ e ∈ h₂, ∀ f ∈ e.out.fills, f.makerOrderId ≠ o.orderId) :
    ∃ h₂', Mealy.trace Book.step Book.new ((h₁ ++ h₂ ++ h₃).map Mealy.Entry.input)
        = h₁ ++ h₂' ++ h₃ ∧
      List.Forall₂ (Unaffected o) h₂ h₂' ∧
      Mealy.exec Book.step Book.new ((h₁ ++ h₂ ++ h₃).map Mealy.Entry.input)
        = Mealy.exec Book.step Book.new cs := by
  obtain ⟨cs₁, cs₂, rfl, rfl, hpre, htail, hstep⟩ := Mealy.trace_split hrun
  obtain ⟨cs₃, cs₄, rfl, rfl, hpre', rfl, hstep'⟩ := Mealy.trace_split htail.symm
  rw [hsubmit] at hids hstep
  rw [hcancel] at hids hstep'
  -- the order's id is submitted once, and its cancel is the first one after that
  have hnodup : (submittedIds cs₁ ++ o.orderId :: (submittedIds cs₃ ++ submittedIds cs₄)).Nodup := by
    simpa [submittedIds] using hids
  obtain ⟨-, htailIds, hdisj⟩ := List.nodup_append.mp hnodup
  have hid₁ : o.orderId ∉ submittedIds cs₁ := fun hm => hdisj _ hm _ List.mem_cons_self rfl
  have hid₃ : o.orderId ∉ submittedIds cs₃ := fun hm =>
    (List.nodup_cons.mp htailIds).1 (List.mem_append_left _ hm)
  obtain ⟨htracks, hloc⟩ := fresh_exec hid₁
  have hpost : eo.post = (eo.pre.step (Call.submit o)).1 := by rw [hstep]
  have hpost' : ec.post = (ec.pre.cancel o.orderId).1 := congrArg Prod.fst hstep'.symm
  have hout' : (ec.pre.cancel o.orderId).2 = ec.out.outcome :=
    congrArg (fun r => r.2.outcome) hstep'
  have hwhole : eo.pre.Whole := hpre ▸ whole_exec cs₁
  have herases : eo.post.Erases o.resting o.side o.limitPx eo.pre := by
    rw [hpost]
    rw [← hpre] at htracks hloc
    exact erases_submitted hwhole htracks hloc (by rw [hstep]; exact hrests)
  have hnot : Call.cancel o.orderId ∉ cs₃ := by
    refine cancel_not_mem (hpost ▸ sound_step _ _ hwhole.sound) hid₃ ?_
    rw [← hpre', hout', hcancelled]
  obtain ⟨hend, hsame⟩ := erases_run herases hid₃ hnot hunhit
  -- the two runs meet again after the cancel
  have hmeet : ec.post = Mealy.exec Book.step eo.pre cs₃ := by
    rw [hpost', hpre']
    exact erases_cancelled hend
  have hinputs : (Mealy.trace Book.step Book.new cs₁ ++ Mealy.trace Book.step eo.post cs₃
      ++ Mealy.trace Book.step ec.post cs₄).map Mealy.Entry.input = cs₁ ++ cs₃ ++ cs₄ := by
    rw [List.map_append, List.map_append, Mealy.map_input_trace, Mealy.map_input_trace,
      Mealy.map_input_trace]
  refine ⟨Mealy.trace Book.step eo.pre cs₃, ?_, hsame, ?_⟩
  · rw [hinputs, Mealy.trace_append, Mealy.trace_append, Mealy.exec_append, ← hpre, hmeet]
  · rw [hinputs, Mealy.exec_append, Mealy.exec_append, ← hpre, ← hmeet, Mealy.exec_append,
      Mealy.exec_cons, ← hpre, hsubmit, ← hpost, Mealy.exec_append, Mealy.exec_cons, ← hpre',
      hcancel, hstep']

/-- An order between two others at its price, while a taker fills the one ahead of it. -/
theorem erase_unhit_run :
    let first := Call.submit ⟨1, Side.sell, true, 100, 2, 0, true⟩
    let o : NewOrder := ⟨2, Side.sell, true, 100, 5, 0, true⟩
    let between := [Call.submit ⟨3, Side.sell, true, 100, 3, 0, true⟩,
      Call.submit ⟨4, Side.buy, false, 0, 2, 0, false⟩]
    let last := Call.submit ⟨5, Side.buy, false, 0, 1, 0, false⟩
    Mealy.exec Book.step Book.new (first :: between ++ [last])
      = Mealy.exec Book.step Book.new
        (first :: Call.submit o :: between ++ [Call.cancel 2, last]) := by
  intro first o between last
  let b₁ := (Book.new.step first).1
  let b₂ := (b₁.step (Call.submit o)).1
  let b₃ := Mealy.exec Book.step b₂ between
  let b₄ := (b₃.step (Call.cancel 2)).1
  obtain ⟨-, -, -, hexec⟩ :=
    erase_unhit (first :: Call.submit o :: between ++ [Call.cancel 2, last]) o 2
      (Mealy.trace Book.step Book.new [first]) (Mealy.trace Book.step b₂ between)
      (Mealy.trace Book.step b₄ [last])
      ⟨b₁, Call.submit o, (b₁.step (Call.submit o)).2, b₂⟩
      ⟨b₃, Call.cancel 2, (b₃.step (Call.cancel 2)).2, b₄⟩
      (by decide) rfl rfl (by decide +kernel) rfl (by decide +kernel) (by decide +kernel)
  exact hexec

end HotpathIpc
