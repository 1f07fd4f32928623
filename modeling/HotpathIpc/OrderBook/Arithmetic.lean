import HotpathIpc.OrderBook.Index

/-!
# No overflow, and exact totals

In the release profile `+` and `-` wrap; compiled with overflow checks they panic.  The functions
`…Checked` below are `submit` and `cancel` with the checks: the same code, where every addition
and subtraction on `remaining` or `total_size` can fail.

* **`stepChecked_eq`** — on a sound book with right totals, a call that cannot push the resting
  quantity past `2 ^ 64` never fails a check, and does what the release build does.
* **`representation`** — what the three structures of the book say about each other in every
  book that fresh calls lead to.
-/

namespace HotpathIpc

open Std (ExtTreeMap)
open Greedy (supply)

/-! ## The calls with overflow checks -/

def checkedSub (a b : UInt64) : Option UInt64 := if b ≤ a then some (a - b) else none

def checkedAdd (a b : UInt64) : Option UInt64 :=
  if a.toNat + b.toNat < 2 ^ 64 then some (a + b) else none

def NewOrder.fillQueueChecked (o : NewOrder) (px : Int) :
    UInt64 → UInt64 → List RestingOrder → Option LevelFill
  | remaining, totalSize, [] => some ⟨remaining, ⟨totalSize, []⟩, [], []⟩
  | remaining, totalSize, front :: behind =>
      if remaining = 0 then some ⟨remaining, ⟨totalSize, front :: behind⟩, [], []⟩
      else do
        let fillQty := min remaining front.remaining
        let remaining' ← checkedSub remaining fillQty
        let frontRemaining ← checkedSub front.remaining fillQty
        let totalSize' ← checkedSub totalSize fillQty
        let fill := o.fillWith px front fillQty remaining'
        if frontRemaining = 0 then do
          let rest ← o.fillQueueChecked px remaining' totalSize' behind
          some { rest with fills := fill :: rest.fills, cleared := front.orderId :: rest.cleared }
        else
          some ⟨remaining', ⟨totalSize', { front with remaining := frontRemaining } :: behind⟩,
            [fill], []⟩

namespace Book

def crossLevelChecked (b : Book) (o : NewOrder) (bestPx : Int) (remaining : UInt64) :
    Option Crossed := do
  let opp := o.side.opposite
  let level := b.levelMut opp bestPx
  let r ← o.fillQueueChecked bestPx remaining level.totalSize level.queue
  let b := b.putLevel opp bestPx r.level
  let b := { b with locate := r.cleared.foldl ExtTreeMap.erase b.locate }
  some ⟨b.dropIfEmpty opp bestPx r.level, r.remaining, r.fills⟩

def crossChecked (o : NewOrder) : ℕ → Book → UInt64 → Option Crossed
  | 0, b, remaining => some ⟨b, remaining, []⟩
  | fuel + 1, b, remaining =>
      if remaining = 0 then some ⟨b, remaining, []⟩
      else match b.bestOf o.side.opposite with
        | none => some ⟨b, remaining, []⟩
        | some bestPx =>
            if !o.acceptable bestPx then some ⟨b, remaining, []⟩
            else do
              let c ← b.crossLevelChecked o bestPx remaining
              let rest ← crossChecked o fuel c.book c.remaining
              some { rest with fills := c.fills ++ rest.fills }

def restChecked (b : Book) (o : NewOrder) (remaining : UInt64) : Option (Book × Outcome) := do
  let level := b.levelMut o.side o.limitPx
  let queueAhead := level.totalSize
  let totalSize ← checkedAdd level.totalSize remaining
  let b := b.putLevel o.side o.limitPx
    ⟨totalSize, level.queue ++ [⟨o.orderId, remaining, o.isSynthetic⟩]⟩
  some ({ b with locate := b.locate.insert o.orderId (o.side, o.limitPx) },
    Outcome.rested queueAhead)

def submitChecked (b : Book) (o : NewOrder) : Option (Book × List Fill × Outcome) := do
  let c ← crossChecked o ((b.half o.side.opposite).size + 1) b o.quantity
  if c.remaining = 0 then some (c.book, c.fills, Outcome.filled)
  else if !o.isLimit then some (c.book, c.fills, Outcome.rejected Reject.noLiquidity)
  else do
    let r ← c.book.restChecked o c.remaining
    some (r.1, c.fills, r.2)

def cancelChecked (b : Book) (orderId : UInt64) : Option (Book × Outcome) :=
  match b.locate[orderId]? with
  | none => some (b, Outcome.cancelRejected)
  | some (side, px) => do
      let b := { b with locate := b.locate.erase orderId }
      let level := b.levelMut side px
      let level ← match level.queue.find? (·.orderId = orderId) with
        | some removed => do
            let totalSize ← checkedSub level.totalSize removed.remaining
            some ⟨totalSize, level.queue.eraseP (·.orderId = orderId)⟩
        | none => some level
      some ((b.putLevel side px level).dropIfEmpty side px level, Outcome.cancelled)

/-- Make one call with overflow checks. -/
def stepChecked (b : Book) : Call → Option (Book × Answer)
  | Call.submit o => (b.submitChecked o).map fun r => (r.1, ⟨r.2.1, r.2.2⟩)
  | Call.cancel id => (b.cancelChecked id).map fun r => (r.1, ⟨[], r.2⟩)

end Book

theorem checkedSub_eq {a b : UInt64} (h : b.toNat ≤ a.toNat) : checkedSub a b = some (a - b) :=
  if_pos (UInt64.le_iff_toNat_le.mpr h)

theorem checkedAdd_eq {a b : UInt64} (h : a.toNat + b.toNat < 2 ^ 64) :
    checkedAdd a b = some (a + b) :=
  if_pos h

/-! ## Exact totals -/

/-- The cached total is the sum over the queue. -/
def PriceLevel.Exact (l : PriceLevel) : Prop := l.totalSize.toNat = queueSize l.queue

theorem exact_of_cached {l : PriceLevel} (h : l.Cached) (hlt : queueSize l.queue < 2 ^ 64) :
    l.Exact := by
  rw [PriceLevel.Exact, h, UInt64.toNat_ofNat_of_lt' hlt]

theorem queueSize_le_supply {b : Book} {s : Side} {px : Int} {l : PriceLevel}
    (h : (b.half s)[px]? = some l) : queueSize l.queue ≤ supply (b.ladder s) := by
  obtain ⟨xs, ys, hls⟩ := List.append_of_mem (Book.mem_levels.mpr h)
  rw [Book.ladder, hls, ladderOf, List.flatMap_append, List.flatMap_cons, Greedy.supply_append,
    Greedy.supply_append, supply_makers]
  dsimp only
  omega

theorem supply_orders (b : Book) (s : Side) :
    supply b.orders = supply (b.ladder s) + supply (b.ladder s.opposite) := by
  rw [Greedy.supply_perm (orders_perm b s), Greedy.supply_append]

/-- With less than `2 ^ 64` resting in all, right totals are exact. -/
theorem exact_levels {b : Book} (hc : b.CachedLevels) (hlt : supply b.orders < 2 ^ 64) :
    b.AllLevels fun _ _ l => l.Exact := by
  intro s px l hl
  have hle := queueSize_le_supply hl
  rw [supply_orders b s] at hlt
  exact exact_of_cached (hc s px l hl) (by omega)

theorem exact_levelMut {b : Book} (h : b.AllLevels fun _ _ l => l.Exact) (s : Side) (px : Int) :
    (b.levelMut s px).Exact := by
  rcases levelMut_cases b s px with hl | ⟨-, hl⟩
  · exact h _ _ _ hl
  · rw [hl]
    rfl

/-- Crossing takes off the resting quantity what it fills. -/
theorem supply_crossAll {b : Book} (o : NewOrder) (h : b.LiveLevels) :
    supply (b.crossAll o).book.orders + min o.quantity.toNat (supply (b.opposing o))
      = supply b.orders := by
  have hs := crossAll_serves o h
  rw [supply_orders _ o.side, supply_orders b o.side, Book.ladder_eq_of_half hs.own, hs.ladder,
    Book.ladder_eq_opposing_append, Greedy.supply_append, Greedy.supply_append,
    Greedy.supply_residue]
  omega

/-! ## The checks pass -/

theorem fillQueueChecked_eq (o : NewOrder) (px : Int) : ∀ {q : List RestingOrder}
    (remaining totalSize : UInt64), totalSize.toNat = queueSize q →
      o.fillQueueChecked px remaining totalSize q = some (o.fillQueue px remaining totalSize q)
  | [], _, _, _ => rfl
  | m :: q, rem, tot, htot => by
      rw [NewOrder.fillQueueChecked, NewOrder.fillQueue]
      split
      · rfl
      · have hmin := toNat_min rem m.remaining
        rw [queueSize_cons] at htot
        have h1 : checkedSub rem (min rem m.remaining) = some (rem - min rem m.remaining) :=
          checkedSub_eq (by omega)
        have h2 : checkedSub m.remaining (min rem m.remaining)
            = some (m.remaining - min rem m.remaining) := checkedSub_eq (by omega)
        have h3 : checkedSub tot (min rem m.remaining) = some (tot - min rem m.remaining) :=
          checkedSub_eq (by omega)
        simp only [h1, h2, h3, Option.bind_eq_bind, Option.bind_some]
        split
        · rename_i hdone
          rw [← toNat_eq_zero, toNat_sub_min_right] at hdone
          have hnext : (tot - min rem m.remaining).toNat = queueSize q := by
            rw [UInt64.toNat_sub_of_le _ _ (UInt64.le_iff_toNat_le.mpr (by omega))]
            omega
          rw [fillQueueChecked_eq o px _ _ hnext]
          rfl
        · rfl

theorem supply_passes {o : NewOrder} {b : Book} {px : Int} {l : PriceLevel}
    {ls : List (Int × PriceLevel)} {rem : UInt64} {c : Crossed} (hp : c.Passes o b px l ls rem)
    (h : b.levels o.side.opposite = (px, l) :: ls) : supply c.book.orders ≤ supply b.orders := by
  have hbest : b.ladder o.side.opposite
      = makers o.side.opposite px l.queue ++ ladderOf o.side.opposite ls := by
    rw [Book.ladder, h, ladderOf_cons]
  rw [supply_orders _ o.side, supply_orders b o.side, Book.ladder_eq_of_half hp.own, hp.ladder,
    hbest, Greedy.supply_append, Greedy.supply_append, Greedy.supply_residue]
  omega

theorem crossChecked_eq (o : NewOrder) : ∀ (fuel : ℕ) {b : Book} (rem : UInt64), b.LiveLevels →
    b.CachedLevels → supply b.orders < 2 ^ 64 →
      Book.crossChecked o fuel b rem = some (Book.cross o fuel b rem)
  | 0, _, _, _, _, _ => rfl
  | fuel + 1, b, rem, hlive, hc, hlt => by
      rw [Book.crossChecked, Book.cross]
      split
      · rfl
      · cases hbest : b.bestOf o.side.opposite with
        | none => rfl
        | some px =>
            dsimp only
            split
            · rfl
            · have hcross : b.crossLevelChecked o px rem = some (b.crossLevel o px rem) := by
                rw [Book.crossLevelChecked, fillQueueChecked_eq o px _ _
                  (exact_levelMut (exact_levels hc hlt) _ _)]
                rfl
              rw [Book.bestOf_eq] at hbest
              cases hls : b.levels o.side.opposite with
              | nil =>
                  rw [hls] at hbest
                  exact absurd hbest (by simp)
              | cons x ls =>
                  obtain ⟨p, l⟩ := x
                  rw [hls, List.head?_cons, Option.map_some] at hbest
                  obtain rfl := Option.some.inj hbest
                  have hp := crossLevel_passes rem hlive hls
                  rw [hcross, Option.bind_eq_bind, Option.bind_some, crossChecked_eq o fuel _
                    hp.live (hp.cached hc) (lt_of_le_of_lt (supply_passes hp hls) hlt)]
                  rfl

/-! ## One call -/

/-- The quantity a call brings. -/
def Call.quantity : Call → ℕ
  | Call.submit o => o.quantity.toNat
  | Call.cancel _ => 0

theorem cached_rest {b : Book} {o : NewOrder} (rem : UInt64) (h : b.CachedLevels) :
    (b.rest o rem).1.CachedLevels := by
  intro s px l hl
  rw [half_rest] at hl
  refine Book.AllLevels.storeLevel h (fun _ => ?_) s px l hl
  have hold : (b.levelMut o.side o.limitPx).Cached := by
    rcases levelMut_cases b o.side o.limitPx with hl | ⟨-, hl⟩
    · exact h _ _ _ hl
    · rw [hl]
      rfl
  rw [PriceLevel.Cached, Book.joined, hold, queueSize_append, queueSize_cons, queueSize_nil,
    Nat.add_zero, UInt64.ofNat_add, UInt64.ofNat_toNat]

theorem queueSize_eraseP {q : List RestingOrder} {id : UInt64} {m : RestingOrder}
    (h : q.find? (·.orderId = id) = some m) :
    m.remaining.toNat + queueSize (q.eraseP (·.orderId = id)) = queueSize q := by
  obtain ⟨hm, q₁, q₂, rfl, hq₁⟩ := List.find?_eq_some_iff_append.mp h
  rw [List.eraseP_append_right _ (by simpa using hq₁), List.eraseP_cons, hm, cond_true,
    queueSize_append, queueSize_append, queueSize_cons]
  omega

theorem cached_without {l : PriceLevel} (id : UInt64) (h : l.Cached) : (l.without id).Cached := by
  unfold PriceLevel.without
  split
  · rename_i m hm
    have hsize := queueSize_eraseP hm
    rw [PriceLevel.Cached, h, ofNat_sub_toNat (by omega)]
    dsimp only
    exact congrArg UInt64.ofNat (by omega)
  · exact h

theorem cached_cancel {b : Book} (id : UInt64) (h : b.CachedLevels) :
    (b.cancel id).1.CachedLevels := by
  cases hloc : b.locate[id]? with
  | none => rwa [cancel_none hloc]
  | some sp =>
      obtain ⟨s, px⟩ := sp
      intro t q l hl
      rw [half_cancel hloc] at hl
      refine Book.AllLevels.storeLevel h (fun _ => cached_without id ?_) t q l hl
      rcases levelMut_cases b s px with hl | ⟨-, hl⟩
      · exact h _ _ _ hl
      · rw [hl]
        rfl

theorem cached_step {b : Book} (call : Call) (hlive : b.LiveLevels) (h : b.CachedLevels) :
    (b.step call).1.CachedLevels := by
  cases call with
  | cancel id => exact cached_cancel id h
  | submit o =>
      have hc := (crossAll_serves o hlive).cached h
      exact submit_book hc fun _ => cached_rest _ hc

/-- A call adds at most its own quantity to what rests. -/
theorem supply_step {b : Book} (call : Call) (hlive : b.LiveLevels) :
    supply (b.step call).1.orders ≤ supply b.orders + call.quantity := by
  cases call with
  | cancel id =>
      show supply (b.cancel id).1.orders ≤ _
      cases hloc : b.locate[id]? with
      | none =>
          rw [cancel_none hloc]
          exact Nat.le_add_right _ _
      | some sp =>
          rcases orders_cancel hloc with ⟨m, -, -, -, hperm⟩ | ⟨-, hperm⟩
          · rw [Greedy.supply_perm hperm, Greedy.supply_cons]
            omega
          · rw [Greedy.supply_perm hperm]
            omega
  | submit o =>
      have hs := crossAll_serves o hlive
      have hsum := supply_crossAll o hlive
      refine submit_book (P := fun c => supply c.orders ≤ supply b.orders + o.quantity.toNat)
        (by omega) fun _ => ?_
      rw [Greedy.supply_perm (orders_rest _ o _), Greedy.supply_cons, hs.remaining]
      omega

theorem restChecked_eq {b : Book} {o : NewOrder} {rem : UInt64}
    (h : (b.levelMut o.side o.limitPx).totalSize.toNat + rem.toNat < 2 ^ 64) :
    b.restChecked o rem = some (b.rest o rem) := by
  rw [Book.restChecked, checkedAdd_eq h]
  rfl

theorem cancelChecked_eq {b : Book} (id : UInt64) (h : b.AllLevels fun _ _ l => l.Exact) :
    b.cancelChecked id = some (b.cancel id) := by
  unfold Book.cancelChecked Book.cancel
  cases hloc : b.locate[id]? with
  | none => rfl
  | some sp =>
      obtain ⟨s, px⟩ := sp
      have hlevel : ({ b with locate := b.locate.erase id } : Book).levelMut s px
          = b.levelMut s px := by
        unfold Book.levelMut
        rw [Book.half_mk_locate]
      dsimp only
      rw [hlevel]
      have hex : (b.levelMut s px).totalSize.toNat = queueSize (b.levelMut s px).queue :=
        exact_levelMut h s px
      cases hf : (b.levelMut s px).queue.find? (·.orderId = id) with
      | none => rfl
      | some m =>
          have hsize := queueSize_eraseP hf
          dsimp only
          rw [checkedSub_eq (by omega)]
          rfl

/-- **No addition or subtraction overflows**: with checks the call answers, and what it answers
is what the release build answers. -/
theorem stepChecked_eq {b : Book} {call : Call} (hb : b.Sound) (hc : b.CachedLevels)
    (hlt : supply b.orders + call.quantity < 2 ^ 64) : b.stepChecked call = some (b.step call) := by
  cases call with
  | cancel id =>
      rw [Book.stepChecked, cancelChecked_eq id (exact_levels hc (by omega))]
      rfl
  | submit o =>
      have hs := crossAll_serves o hb.live
      have hsum := supply_crossAll o hb.live
      simp only [Call.quantity] at hlt
      have hcross : Book.crossChecked o ((b.half o.side.opposite).size + 1) b o.quantity
          = some (b.crossAll o) := crossChecked_eq o _ _ hb.live hc (by omega)
      have hrest : (b.crossAll o).book.restChecked o (b.crossAll o).remaining
          = some ((b.crossAll o).book.rest o (b.crossAll o).remaining) := by
        refine restChecked_eq ?_
        have hex : ((b.crossAll o).book.levelMut o.side o.limitPx).totalSize.toNat = queueSize _ :=
          exact_levelMut (exact_levels (hs.cached hc) (by omega)) o.side o.limitPx
        have hle : queueSize ((b.crossAll o).book.levelMut o.side o.limitPx).queue
            ≤ supply ((b.crossAll o).book.ladder o.side) := by
          rcases levelMut_cases (b.crossAll o).book o.side o.limitPx with hl | ⟨-, hl⟩
          · exact queueSize_le_supply hl
          · rw [hl]
            exact Nat.zero_le _
        have htot := supply_orders (b.crossAll o).book o.side
        rw [hex, hs.remaining]
        omega
      rw [Book.stepChecked, Book.step, Book.submit, Book.submitChecked, hcross]
      simp only [Option.bind_eq_bind, Option.bind_some]
      split
      · rfl
      · split
        · rfl
        · rw [hrest]
          rfl

/-! ## The representation invariant -/

/-- The total quantity submitted. -/
def submitted (cs : List Call) : ℕ := (cs.map Call.quantity).sum

/-- What a run keeps besides soundness: right totals, and no more resting than was submitted. -/
theorem cached_trace {b : Book} (cs : List Call) (hb : b.Sound) (hc : b.CachedLevels) :
    (Mealy.exec Book.step b cs).CachedLevels ∧
      supply (Mealy.exec Book.step b cs).orders ≤ supply b.orders + submitted cs ∧
      ∀ e ∈ Mealy.trace Book.step b cs, e.pre.Sound ∧ e.pre.CachedLevels ∧
        supply e.pre.orders + e.input.quantity ≤ supply b.orders + submitted cs := by
  induction cs generalizing b with
  | nil => exact ⟨hc, Nat.le_refl _, fun e he => absurd he List.not_mem_nil⟩
  | cons call cs ih =>
      have hstep := supply_step call hb.live
      have hsub : submitted (call :: cs) = call.quantity + submitted cs := List.sum_cons
      obtain ⟨h1, h2, h3⟩ := ih (sound_step b call hb) (cached_step call hb.live hc)
      refine ⟨h1, ?_, fun e he => ?_⟩
      · rw [Mealy.exec_cons]
        omega
      · rcases List.mem_cons.mp he with rfl | he
        · exact ⟨hb, hc, by dsimp only; omega⟩
        · obtain ⟨hs, hce, hle⟩ := h3 e he
          exact ⟨hs, hce, by omega⟩

/-- The order ids in the queues of both sides. -/
def Book.queuedIds (b : Book) : List UInt64 := b.orders.map fun x => x.1.orderId

theorem mem_queuedIds {b : Book} {id : UInt64} :
    id ∈ b.queuedIds ↔ ∃ p, p ∈ placesOf id b.orders := by
  constructor
  · intro h
    obtain ⟨x, hx, hid⟩ := List.mem_map.mp h
    exact ⟨_, mem_placesOf.mpr ⟨x, hx, hid, rfl⟩⟩
  · rintro ⟨p, hp⟩
    obtain ⟨x, hx, hid, -⟩ := mem_placesOf.mp hp
    exact List.mem_map.mpr ⟨x, hx, hid⟩

/-- An order in a queue, through its place. -/
theorem mem_placesOf_orders {b : Book} {id : UInt64} {s : Side} {px : Int} :
    (s, px) ∈ placesOf id b.orders ↔
      ∃ l, (b.half s)[px]? = some l ∧ ∃ m ∈ l.queue, m.orderId = id := by
  rw [mem_placesOf]
  constructor
  · rintro ⟨x, hx, hid, hplace⟩
    obtain ⟨rfl, rfl⟩ := Prod.mk.inj hplace
    have hladder : x ∈ b.ladder x.1.side := by
      rcases List.mem_append.mp hx with hx | hx <;> rwa [Book.side_of_mem_ladder hx]
    obtain ⟨l, hl, hxl⟩ := Book.mem_ladder.mp hladder
    obtain ⟨m, hm, hmx⟩ := List.mem_map.mp hxl
    exact ⟨l, hl, m, hm, (congrArg (fun y => y.1.orderId) hmx).trans hid⟩
  · rintro ⟨l, hl, m, hm, rfl⟩
    have hladder : (m.tag s px, m.remaining.toNat) ∈ b.ladder s :=
      Book.mem_ladder.mpr ⟨l, hl, List.mem_map_of_mem hm⟩
    exact ⟨_, (orders_perm b s).symm.subset (List.mem_append_left _ hladder), rfl, rfl⟩

theorem nodup_queuedIds {b : Book} (h : ∀ id, b.Tracks id) : b.queuedIds.Nodup := by
  rw [List.nodup_iff_count_le_one]
  intro id
  have hlen := (h id).length_eq
  have hle : b.locate[id]?.toList.length ≤ 1 := by cases b.locate[id]? <;> simp
  have hcount : b.queuedIds.count id = (placesOf id b.orders).length := by
    rw [List.count, Book.queuedIds, List.countP_map, placesOf, List.length_map,
      ← List.countP_eq_length_filter, List.countP_map]
    refine List.countP_congr fun x _ => ?_
    simp
  omega

/-- With every id tracked, the ids that rest are those in the queues. -/
theorem isResting_iff_queued {b : Book} (h : ∀ id, b.Tracks id) (id : UInt64) :
    b.isResting id = true ↔ id ∈ b.queuedIds := by
  rw [mem_queuedIds, Book.isResting, ExtTreeMap.contains_iff_mem,
    ExtTreeMap.mem_iff_isSome_getElem?, Option.isSome_iff_exists]
  refine exists_congr fun p => ?_
  rw [(h id).mem_iff, Option.mem_toList]

/-- **The representation invariant.**  After fresh calls that submit less than `2 ^ 64` in all: no
id is queued twice, `locate` maps exactly the queued ids, each to its level, every total is
exact, and no call along the way overflows. -/
theorem representation (cs : List Call)
    (hfresh : ∀ e ∈ Mealy.trace Book.step Book.new cs, e.input.Fresh e.pre)
    (htotal : submitted cs < 2 ^ 64) :
    let b := Mealy.exec Book.step Book.new cs
    b.queuedIds.Nodup ∧
      (∀ (id : UInt64) (side : Side) (px : Int), b.locate[id]? = some (side, px) ↔
        ∃ level, (b.half side)[px]? = some level ∧ ∃ m ∈ level.queue, m.orderId = id) ∧
      (∀ id, b.isResting id = true ↔ id ∈ b.queuedIds) ∧
      (∀ (side : Side) (px : Int) (level : PriceLevel), (b.half side)[px]? = some level →
        level.totalSize.toNat = queueSize level.queue) ∧
      ∀ e ∈ Mealy.trace Book.step Book.new cs, e.pre.stepChecked e.input = some (e.post, e.out) := by
  intro b
  have htracks : ∀ id, b.Tracks id := fun id => (tracks_trace hfresh id).1
  have hnew : Book.new.CachedLevels := fun s px l hl => by simp at hl
  have hempty : supply Book.new.orders = 0 := rfl
  obtain ⟨hcached, hle, hall⟩ := cached_trace cs sound_new hnew
  have hloc : ∀ (id : UInt64) (side : Side) (px : Int), b.locate[id]? = some (side, px) ↔
      (side, px) ∈ placesOf id b.orders := by
    intro id side px
    rw [(htracks id).mem_iff, Option.mem_toList]
  refine ⟨nodup_queuedIds htracks, fun id side px => ?_, fun id => ?_, ?_, fun e he => ?_⟩
  · rw [hloc, mem_placesOf_orders]
  · exact isResting_iff_queued htracks id
  · exact exact_levels hcached (by rw [hempty] at hle; exact lt_of_le_of_lt hle (by omega))
  · obtain ⟨hs, hc, hq⟩ := hall e he
    rw [stepChecked_eq hs hc (by omega), Mealy.step_of_mem_trace he]

/-- Two resting orders, a partial fill, a cancel and the id used again. -/
theorem representation_run :
    let cs := [Call.submit ⟨1, Side.sell, true, 100, 5, 0, true⟩,
      Call.submit ⟨2, Side.sell, true, 100, 3, 0, true⟩,
      Call.submit ⟨3, Side.buy, false, 0, 6, 0, false⟩, Call.cancel 2,
      Call.submit ⟨2, Side.buy, true, 99, 1, 0, true⟩]
    (Mealy.exec Book.step Book.new cs).queuedIds.Nodup :=
  (representation _ (by decide +kernel) (by decide +kernel)).1

end HotpathIpc
