import HotpathIpc.OrderBook.Index
import Mathlib.Algebra.BigOperators.Group.List.Lemmas

/-!
# Conservation of quantity

Where the quantity submitted under an id can be: filled as taker, filled as maker, resting,
removed by a cancel, or rejected as a market remainder.  Every call balances these for every id
(`balance_step`), so a run does; with ids that are not submitted twice this is a statement about
single orders, `conservation`.
-/

namespace HotpathIpc

open Std (ExtTreeMap)
open Greedy (supply residue consume)

/-! ## The five accounts of an id -/

/-- What fills give `id` as their taker. -/
def takerQty (id : UInt64) (fs : List Fill) : ℕ :=
  ((fs.filter fun f => f.takerOrderId = id).map fun f => f.quantity.toNat).sum

/-- What fills take from `id` as their maker. -/
def makerQty (id : UInt64) (fs : List Fill) : ℕ :=
  ((fs.filter fun f => f.makerOrderId = id).map fun f => f.quantity.toNat).sum

/-- What `id` has resting. -/
def Book.restingQty (b : Book) (id : UInt64) : ℕ := supply (b.orders.filter fun x => x.1.orderId = id)

/-- The `remaining` of the order that a cancel of `id` removes. -/
def Book.removedQty (b : Book) (id : UInt64) : ℕ :=
  match b.locate[id]? with
  | none => 0
  | some (side, px) =>
      match (b.levelMut side px).queue.find? (·.orderId = id) with
      | some removed => removed.remaining.toNat
      | none => 0

/-- What a step removes of `id` by a cancel. -/
def cancelledQty (id : UInt64) (e : Mealy.Entry Book Call Answer) : ℕ :=
  match e.input with
  | Call.cancel j => if j = id then e.pre.removedQty id else 0
  | Call.submit _ => 0

/-- The market remainder of `id` that a step rejects. -/
def rejectedQty (id : UInt64) (e : Mealy.Entry Book Call Answer) : ℕ :=
  match e.input with
  | Call.submit o =>
      if o.orderId = id ∧ e.out.outcome = Outcome.rejected Reject.noLiquidity then
        (e.pre.crossAll o).remaining.toNat
      else 0
  | Call.cancel _ => 0

/-- What a call submits under `id`. -/
def Call.submittedQty (id : UInt64) : Call → ℕ
  | Call.submit o => if o.orderId = id then o.quantity.toNat else 0
  | Call.cancel _ => 0

/-- The ids a run submits, in order. -/
def submittedIds (cs : List Call) : List UInt64 :=
  cs.filterMap fun
    | Call.submit o => some o.orderId
    | Call.cancel _ => none

/-! ## Crossing -/

/-- Each fill brings the taker down from what it had to `takerRemainingAfter`. -/
def Fill.Descends : ℕ → List Fill → Prop
  | _, [] => True
  | q, f :: fs => f.takerRemainingAfter.toNat + f.quantity.toNat = q ∧
      Fill.Descends f.takerRemainingAfter.toNat fs

theorem descends_iff (s : Side) : ∀ (q : ℕ) (fs : List Fill),
    Fill.Descends q fs ↔ Greedy.Descends q (fs.map (Fill.take s))
  | _, [] => Iff.rfl
  | _, f :: fs => and_congr_right fun _ => descends_iff s f.takerRemainingAfter.toNat fs

theorem makerQty_eq (id : UInt64) (s : Side) (fs : List Fill) : makerQty id fs
    = (((fs.map (Fill.take s)).filter fun t => t.tag.orderId = id).map
        Greedy.Take.amount).sum := by
  rw [makerQty, List.filter_map, List.map_map]
  rfl

/-- The taker's fills add up to what it gives up. -/
theorem takerQty_eq {o : NewOrder} (id : UInt64) (s : Side) {fs : List Fill}
    (h : ∀ f ∈ fs, f.IsBy o) : takerQty id fs
      = if o.orderId = id then ((fs.map (Fill.take s)).map Greedy.Take.amount).sum else 0 := by
  rw [takerQty, List.map_map]
  by_cases hid : o.orderId = id
  · rw [if_pos hid, List.filter_eq_self.mpr]
    · rfl
    · intro f hf
      simpa [(h f hf).1] using hid
  · rw [if_neg hid, List.filter_eq_nil_iff.mpr]
    · rfl
    · intro f hf
      simpa [(h f hf).1] using hid

theorem restingQty_perm {b : Book} {xs : List (MakerTag × ℕ)} (id : UInt64)
    (h : b.orders.Perm xs) : b.restingQty id = supply (xs.filter fun x => x.1.orderId = id) :=
  Greedy.supply_perm (h.filter _)

theorem restingQty_sides (b : Book) (id : UInt64) (s : Side) : b.restingQty id
    = supply ((b.ladder s).filter fun x => x.1.orderId = id)
      + supply ((b.ladder s.opposite).filter fun x => x.1.orderId = id) := by
  rw [restingQty_perm id (orders_perm b s), List.filter_append, Greedy.supply_append]

variable {b : Book} {o : NewOrder}

/-- Crossing moves quantity from resting to filled, maker by maker. -/
theorem balance_crossAll (id : UInt64) (o : NewOrder) (hlive : b.LiveLevels) :
    (b.crossAll o).book.restingQty id + makerQty id (b.crossAll o).fills = b.restingQty id := by
  have hs := crossAll_serves o hlive
  have hcons := Greedy.consume_conserves (fun t : MakerTag => decide (t.orderId = id))
    o.quantity.toNat (hlive.positive_opposing o)
  rw [restingQty_sides _ id o.side, restingQty_sides b id o.side, Book.ladder_eq_of_half hs.own,
    hs.ladder, Book.ladder_eq_opposing_append, List.filter_append, List.filter_append,
    Greedy.supply_append, Greedy.supply_append, makerQty_eq id o.side.opposite, hs.fills]
  omega

/-- What the taker's fills and its remainder make together. -/
theorem balance_taker (id : UInt64) (o : NewOrder) (hlive : b.LiveLevels) :
    takerQty id (b.crossAll o).fills
        + (if o.orderId = id then (b.crossAll o).remaining.toNat else 0)
      = (Call.submit o).submittedQty id := by
  have hs := crossAll_serves o hlive
  rw [takerQty_eq id o.side.opposite hs.taker, hs.fills, Greedy.sum_amount_consume, hs.remaining,
    Call.submittedQty]
  split
  · omega
  · rfl

theorem restingQty_rest (id : UInt64) (o : NewOrder) (rem : UInt64) : (b.rest o rem).1.restingQty id
    = b.restingQty id + if o.orderId = id then rem.toNat else 0 := by
  rw [restingQty_perm id (orders_rest b o rem), List.filter_cons]
  by_cases hid : o.orderId = id
  · rw [if_pos (by simpa using hid), if_pos hid, Greedy.supply_cons, Nat.add_comm]
    rfl
  · rw [if_neg (by simpa using hid), if_neg hid]
    rfl

/-! ## One call -/

theorem balance_submit (id : UInt64) (o : NewOrder) (hlive : b.LiveLevels) :
    (b.submit o).1.restingQty id + (takerQty id (b.submit o).2.1 + makerQty id (b.submit o).2.1
        + rejectedQty id ⟨b, Call.submit o, ⟨(b.submit o).2.1, (b.submit o).2.2⟩, (b.submit o).1⟩)
      = b.restingQty id + (Call.submit o).submittedQty id := by
  have hmaker := balance_crossAll id o hlive
  have htaker := balance_taker id o hlive
  rcases submit_cases b o with ⟨h0, he⟩ | ⟨h0, hl, he⟩ | ⟨h0, hl, he⟩
  · -- filled: no remainder
    rw [h0] at htaker
    simp only [he, rejectedQty, reduceCtorEq, and_false, if_false, UInt64.toNat_zero,
      ite_self] at htaker ⊢
    omega
  · -- rejected
    simp only [he, rejectedQty, and_true]
    omega
  · -- rested
    have hrest := restingQty_rest (b := (b.crossAll o).book) id o (b.crossAll o).remaining
    have hne : ((b.crossAll o).book.rest o (b.crossAll o).remaining).2
        ≠ Outcome.rejected Reject.noLiquidity := by simp [Book.rest]
    simp only [he, rejectedQty, hne, and_false, if_false]
    omega

theorem balance_cancel (id j : UInt64) : (b.cancel j).1.restingQty id
    + (if j = id then b.removedQty id else 0) = b.restingQty id := by
  cases hloc : b.locate[j]? with
  | none =>
      rw [cancel_none hloc]
      by_cases hj : j = id
      · subst hj
        rw [if_pos rfl, Book.removedQty, hloc]
        rfl
      · rw [if_neg hj]
        rfl
  | some sp =>
      obtain ⟨s, px⟩ := sp
      rcases orders_cancel hloc with ⟨m, -, hid, hfind, hperm⟩ | ⟨hnone, hperm⟩
      · rw [restingQty_perm id hperm, List.filter_cons]
        by_cases hj : j = id
        · subst hj
          rw [if_pos rfl, if_pos (decide_eq_true (show (m.tag s px).orderId = j from hid)),
            Greedy.supply_cons, Book.removedQty, hloc]
          simp only [hfind]
          exact Nat.add_comm _ _
        · have hm : ¬ (m.tag s px).orderId = id := fun e => hj (hid.symm.trans e)
          rw [if_neg hj, if_neg (by simpa using hm)]
          rfl
      · rw [restingQty_perm id hperm]
        by_cases hj : j = id
        · subst hj
          have hfind : (b.levelMut s px).queue.find? (·.orderId = j) = none := by
            simpa using hnone
          rw [if_pos rfl, Book.removedQty, hloc]
          simp only [hfind]
          rfl
        · rw [if_neg hj]
          rfl

/-- **Every call balances the accounts of every id.** -/
theorem balance_step (id : UInt64) (hlive : b.LiveLevels) (call : Call) :
    let e : Mealy.Entry Book Call Answer := ⟨b, call, (b.step call).2, (b.step call).1⟩
    e.post.restingQty id + (takerQty id e.out.fills + makerQty id e.out.fills
        + cancelledQty id e + rejectedQty id e)
      = e.pre.restingQty id + e.input.submittedQty id := by
  cases call with
  | submit o => exact balance_submit id o hlive
  | cancel j =>
      have hcancel := balance_cancel (b := b) id j
      simp only [Book.step, cancelledQty, rejectedQty, takerQty, makerQty, Call.submittedQty,
        List.filter_nil, List.map_nil, List.sum_nil]
      omega

/-! ## One submit -/

/-- The fills of one submit: all positive, each from where the last one left off, and the order
is filled exactly when the last of them leaves nothing. -/
theorem fills_submit (o : NewOrder) (hlive : b.LiveLevels) :
    (∀ f ∈ (b.submit o).2.1, 0 < f.quantity) ∧
      Fill.Descends o.quantity.toNat (b.submit o).2.1 ∧
      (o.quantity ≠ 0 → ((b.submit o).2.2 = Outcome.filled ↔
        (b.submit o).2.1.getLast?.map Fill.takerRemainingAfter = some 0)) := by
  have hs := crossAll_serves o hlive
  have hfilled : (b.submit o).2.2 = Outcome.filled ↔ (b.crossAll o).remaining = 0 := by
    rcases submit_cases b o with ⟨h0, he⟩ | ⟨h0, -, he⟩ | ⟨h0, -, he⟩
    · simp [he, h0]
    · simp [he, h0]
    · simp [he, h0, Book.rest]
  have hleft := Greedy.getLastD_left o.quantity.toNat (b.opposing o)
  rw [← hs.fills, ← hs.remaining, List.map_map] at hleft
  rw [submit_fills, hfilled]
  refine ⟨fun f hf => ?_, ?_, fun hq => ?_⟩
  · have hpos := Greedy.amount_pos (q := o.quantity.toNat) (hlive.positive_opposing o)
      (f.take o.side.opposite) (hs.fills ▸ List.mem_map_of_mem hf)
    exact UInt64.pos_iff_ne_zero.mpr fun h0 => absurd (toNat_eq_zero.mpr h0) hpos.ne'
  · rw [descends_iff o.side.opposite, hs.fills]
    exact Greedy.descends_consume _ _
  · rw [← toNat_eq_zero, ← hleft]
    rcases List.eq_nil_or_concat' (b.crossAll o).fills with hnil | ⟨fs, f, hcons⟩
    · rw [hnil]
      simp [toNat_eq_zero, hq]
    · rw [hcons]
      simp [Fill.take, toNat_eq_zero]

/-! ## Whole runs -/

theorem submittedIds_append (xs ys : List Call) :
    submittedIds (xs ++ ys) = submittedIds xs ++ submittedIds ys := List.filterMap_append

theorem ne_of_not_mem_submittedIds {cs : List Call} {id : UInt64} (h : id ∉ submittedIds cs) :
    ∀ call ∈ cs, ∀ o, call = Call.submit o → o.orderId ≠ id := by
  rintro call hcall o rfl rfl
  exact h (List.mem_filterMap.mpr ⟨_, hcall, rfl⟩)

/-- An id that does not rest and is not submitted does not rest later. -/
theorem locate_exec_none {b : Book} {cs : List Call} {id : UInt64} (hb : b.Sound)
    (hloc : b.locate[id]? = none) (hid : id ∉ submittedIds cs) :
    (Mealy.exec Book.step b cs).locate[id]? = none := by
  have hguard : ∀ e ∈ Mealy.trace Book.step b cs,
      ∀ o, e.input = Call.submit o → o.orderId ≠ id := by
    intro e he
    refine ne_of_not_mem_submittedIds hid e.input ?_
    rw [← Mealy.map_input_trace Book.step b cs]
    exact List.mem_map_of_mem he
  exact (Mealy.invariant (I := fun c : Book => c.Sound ∧ c.locate[id]? = none)
    (g := fun _ call => ∀ o, call = Call.submit o → o.orderId ≠ id)
    (fun c call hc hg => locate_step_none hc hg) ⟨hb, hloc⟩ hguard).1.2

/-- Nothing is submitted under an id that is not among the submitted ones. -/
theorem sum_submittedQty_eq_zero {id : UInt64} {cs : List Call} (h : id ∉ submittedIds cs) :
    (cs.map (Call.submittedQty id)).sum = 0 := by
  refine List.sum_eq_zero fun n hn => ?_
  obtain ⟨call, hcall, rfl⟩ := List.mem_map.mp hn
  cases call with
  | cancel _ => rfl
  | submit o =>
      refine if_neg fun hid => h ?_
      exact List.mem_filterMap.mpr ⟨_, hcall, by rw [← hid]⟩

/-- If its id is submitted once, what is submitted under an order's id is that order. -/
theorem sum_submittedQty {o : NewOrder} {cs : List Call}
    (hone : (submittedIds cs).count o.orderId ≤ 1) (ho : Call.submit o ∈ cs) :
    (cs.map (Call.submittedQty o.orderId)).sum = o.quantity.toNat := by
  obtain ⟨xs, ys, rfl⟩ := List.append_of_mem ho
  have hsplit : submittedIds (xs ++ Call.submit o :: ys)
      = submittedIds xs ++ o.orderId :: submittedIds ys := by
    simp [submittedIds]
  rw [hsplit, List.count_append, List.count_cons_self] at hone
  have hxs : o.orderId ∉ submittedIds xs := List.count_eq_zero.mp (by omega)
  have hys : o.orderId ∉ submittedIds ys := List.count_eq_zero.mp (by omega)
  rw [List.map_append, List.sum_append, List.map_cons, List.sum_cons,
    sum_submittedQty_eq_zero hxs, sum_submittedQty_eq_zero hys, Call.submittedQty, if_pos rfl]
  omega

/-- **Conservation of quantity.**  In a run that submits no id twice, every order's quantity is
what it filled as taker and as maker, what it has resting, what its cancel removed and what was
rejected; the fills of every submit are positive and count down to its end. -/
theorem conservation (cs : List Call) (hids : (submittedIds cs).Nodup) :
    let tr := Mealy.trace Book.step Book.new cs
    (∀ o, Call.submit o ∈ cs →
      o.quantity.toNat = (tr.map fun e => takerQty o.orderId e.out.fills).sum
        + (tr.map fun e => makerQty o.orderId e.out.fills).sum
        + (Mealy.exec Book.step Book.new cs).restingQty o.orderId
        + (tr.map (cancelledQty o.orderId)).sum + (tr.map (rejectedQty o.orderId)).sum) ∧
      ∀ e ∈ tr, ∀ o, e.input = Call.submit o →
        (∀ f ∈ e.out.fills, 0 < f.quantity) ∧ Fill.Descends o.quantity.toNat e.out.fills ∧
          (o.quantity ≠ 0 → (e.out.outcome = Outcome.filled ↔
            e.out.fills.getLast?.map Fill.takerRemainingAfter = some 0)) := by
  intro tr
  refine ⟨fun o ho => ?_, fun e he o hin => ?_⟩
  · have hbal : ∀ e ∈ Mealy.trace Book.step Book.new cs, e.post.restingQty o.orderId
        + (takerQty o.orderId e.out.fills + makerQty o.orderId e.out.fills
          + cancelledQty o.orderId e + rejectedQty o.orderId e)
        = e.pre.restingQty o.orderId + e.input.submittedQty o.orderId := by
      intro e he
      have hstep := balance_step o.orderId (sound_trace e he).1.live e.input
      rw [Mealy.step_of_mem_trace he] at hstep
      exact hstep
    have hrun := Mealy.conserve (fun b => b.restingQty o.orderId)
      (fun e => e.input.submittedQty o.orderId)
      (fun e => takerQty o.orderId e.out.fills + makerQty o.orderId e.out.fills
        + cancelledQty o.orderId e + rejectedQty o.orderId e) hbal
    have hgain : ((Mealy.trace Book.step Book.new cs).map fun e =>
        e.input.submittedQty o.orderId).sum = o.quantity.toNat := by
      have hmap := congrArg (List.map (Call.submittedQty o.orderId))
        (Mealy.map_input_trace Book.step Book.new cs)
      rw [List.map_map] at hmap
      rw [← sum_submittedQty (List.nodup_iff_count_le_one.mp hids _) ho, ← hmap]
      rfl
    have hnew : Book.new.restingQty o.orderId = 0 := rfl
    simp only [List.sum_map_add] at hrun
    rw [hgain, hnew] at hrun
    dsimp only [tr]
    omega
  · have hlive := (sound_trace e he).1.live
    have hout : e.out = ⟨(e.pre.submit o).2.1, (e.pre.submit o).2.2⟩ := by
      have hstep := Mealy.step_of_mem_trace he
      rw [hin] at hstep
      exact (Prod.mk.inj hstep).2.symm
    rw [hout]
    exact fills_submit o hlive

/-- An order that fills in part, rests, is hit twice and then cancelled, and a market order that
runs out of book. -/
theorem conservation_run :
    let cs := [Call.submit ⟨1, Side.sell, true, 100, 4, 0, true⟩,
      Call.submit ⟨2, Side.buy, true, 100, 9, 0, false⟩,
      Call.submit ⟨3, Side.sell, true, 99, 2, 0, true⟩,
      Call.submit ⟨4, Side.sell, false, 0, 1, 0, true⟩, Call.cancel 2,
      Call.submit ⟨5, Side.sell, false, 0, 6, 0, true⟩]
    ∀ o, Call.submit o ∈ cs →
      o.quantity.toNat
        = ((Mealy.trace Book.step Book.new cs).map fun e => takerQty o.orderId e.out.fills).sum
          + ((Mealy.trace Book.step Book.new cs).map fun e => makerQty o.orderId e.out.fills).sum
          + (Mealy.exec Book.step Book.new cs).restingQty o.orderId
          + ((Mealy.trace Book.step Book.new cs).map (cancelledQty o.orderId)).sum
          + ((Mealy.trace Book.step Book.new cs).map (rejectedQty o.orderId)).sum := by
  exact (conservation _ (by decide +kernel)).1

end HotpathIpc
