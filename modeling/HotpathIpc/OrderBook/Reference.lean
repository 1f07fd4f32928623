import HotpathIpc.OrderBook.Arithmetic
import HotpathIpc.Library.Priority
import HotpathIpc.Library.Lists

/-!
# Price-time priority

What the book is for, without its data structures: `Naive` is a matcher that keeps one flat list
of resting orders in arrival order, with exact quantities, and searches it for every fill.

The book shows such a list (`Book.Shows`) when each of its queues is the sublist of the orders at
that side and price.  Crossing, resting and cancelling keep showing it, so the book and the naive
matcher answer alike on every run: `price_time_priority`.
-/

namespace HotpathIpc

open Std (ExtTreeMap)
open Greedy (supply residue consume)
open Priority (Arranged)
open Lists (filter_middle filter_eraseP_of_imp filter_eraseP_of_not)

/-! ## The naive matcher -/

/-- How far a price is from the best on its side: the lower the better. -/
def Side.rank : Side → Int → Int
  | Side.buy, px => -px
  | Side.sell, px => px

/-- A resting order `o` can match: on the other side, at a price its limit accepts. -/
def NewOrder.eligible (o : NewOrder) (t : MakerTag) : Bool :=
  decide (t.side = o.side.opposite) && o.acceptable t.price

/-- The order in which `o` prefers its makers. -/
def NewOrder.rank (o : NewOrder) (t : MakerTag) : Int := o.side.opposite.rank t.price

namespace Naive

/-- A fill with exact quantities. -/
structure Fill where
  takerOrderId : UInt64
  makerOrderId : UInt64
  priceTicks : Int
  quantity : ℕ
  takerOriginTs : UInt64
  takerRemainingAfter : ℕ
  takerIsSynthetic : Bool
  makerIsSynthetic : Bool
deriving DecidableEq, Repr

/-- An outcome with exact quantities. -/
inductive Outcome where
  | filled
  | rested (queueAhead : ℕ)
  | rejected (reason : Reject)
  | cancelled
  | cancelRejected
deriving DecidableEq, Repr

structure Answer where
  fills : List Fill
  outcome : Outcome
deriving DecidableEq, Repr

/-- The fill of one take by `o`. -/
def fill (o : NewOrder) (t : Greedy.Take MakerTag) : Fill where
  takerOrderId := o.orderId
  makerOrderId := t.tag.orderId
  priceTicks := t.tag.price
  quantity := t.amount
  takerOriginTs := o.originTs
  takerRemainingAfter := t.left
  takerIsSynthetic := o.isSynthetic
  makerIsSynthetic := t.tag.isSynthetic

/-- The resting orders at one side and price. -/
def queueAt (s : Side) (px : Int) (rs : List (MakerTag × ℕ)) : List (MakerTag × ℕ) :=
  rs.filter fun x => x.1.side = s ∧ x.1.price = px

/-- Match against the best eligible order time after time. -/
def sweep (o : NewOrder) (rs : List (MakerTag × ℕ)) : Priority.Swept MakerTag :=
  Priority.sweep o.rank o.eligible (rs.length + 1) o.quantity.toNat rs

/-- Match, then report, reject or append. -/
def submit (rs : List (MakerTag × ℕ)) (o : NewOrder) : List (MakerTag × ℕ) × Answer :=
  let r := sweep o rs
  let fills := r.takes.map (fill o)
  if r.unmet = 0 then (r.bag, ⟨fills, Outcome.filled⟩)
  else if !o.isLimit then (r.bag, ⟨fills, Outcome.rejected Reject.noLiquidity⟩)
  else
    (r.bag ++ [(⟨o.side, o.limitPx, o.orderId, o.isSynthetic⟩, r.unmet)],
      ⟨fills, Outcome.rested (supply (queueAt o.side o.limitPx r.bag))⟩)

/-- Remove the named order. -/
def cancel (rs : List (MakerTag × ℕ)) (id : UInt64) : List (MakerTag × ℕ) × Answer :=
  if rs.any fun x => x.1.orderId = id then
    (rs.eraseP fun x => x.1.orderId = id, ⟨[], Outcome.cancelled⟩)
  else (rs, ⟨[], Outcome.cancelRejected⟩)

def step (rs : List (MakerTag × ℕ)) : Call → List (MakerTag × ℕ) × Answer
  | Call.submit o => submit rs o
  | Call.cancel id => cancel rs id

end Naive

/-! ## Reading the book's answers as exact numbers -/

def Fill.exact (f : Fill) : Naive.Fill where
  takerOrderId := f.takerOrderId
  makerOrderId := f.makerOrderId
  priceTicks := f.priceTicks
  quantity := f.quantity.toNat
  takerOriginTs := f.takerOriginTs
  takerRemainingAfter := f.takerRemainingAfter.toNat
  takerIsSynthetic := f.takerIsSynthetic
  makerIsSynthetic := f.makerIsSynthetic

def Outcome.exact : Outcome → Naive.Outcome
  | Outcome.filled => Naive.Outcome.filled
  | Outcome.rested queueAhead => Naive.Outcome.rested queueAhead.toNat
  | Outcome.rejected reason => Naive.Outcome.rejected reason
  | Outcome.cancelled => Naive.Outcome.cancelled
  | Outcome.cancelRejected => Naive.Outcome.cancelRejected

def Answer.exact (a : Answer) : Naive.Answer := ⟨a.fills.map Fill.exact, a.outcome.exact⟩

theorem fill_exact_injective : Function.Injective Fill.exact := by
  rintro ⟨⟩ ⟨⟩ h
  simpa [Fill.exact, UInt64.toNat_inj] using h

theorem outcome_exact_injective : Function.Injective Outcome.exact := by
  intro a b h
  cases a <;> cases b <;> simp_all [Outcome.exact, UInt64.toNat_inj]

/-- Nothing of an answer is lost in the exact numbers. -/
theorem exact_injective : Function.Injective Answer.exact := by
  rintro ⟨fs, a⟩ ⟨gs, b⟩ h
  obtain ⟨hf, ho⟩ := Naive.Answer.mk.inj h
  exact congrArg₂ Answer.mk (List.map_injective_iff.mpr fill_exact_injective hf)
    (outcome_exact_injective ho)

/-- The fills of one taker, from the takes they stand for. -/
theorem map_exact {o : NewOrder} (s : Side) : ∀ {fs : List Fill}, (∀ f ∈ fs, f.IsBy o) →
    fs.map Fill.exact = (fs.map (Fill.take s)).map (Naive.fill o)
  | [], _ => rfl
  | f :: fs, h => by
      obtain ⟨hid, hts, hsyn⟩ := h f List.mem_cons_self
      rw [List.map_cons, List.map_cons, List.map_cons,
        map_exact s fun g hg => h g (List.mem_cons_of_mem _ hg), Naive.fill, ← hid, ← hts, ← hsyn]
      rfl

/-! ## Single levels -/

namespace Book

variable {b b' : Book} {s : Side} {px : Int} {l : PriceLevel}

/-- The levels that `levelMut` makes are cached rightly too. -/
theorem cached_levelMut (hc : b.CachedLevels) (s : Side) (px : Int) :
    (b.levelMut s px).Cached := by
  rcases levelMut_cases b s px with hl | ⟨-, hl⟩
  · exact hc _ _ _ hl
  · rw [hl]
    rfl

theorem levelMut_eq_of_half (h : b.half s = b'.half s) (px : Int) :
    b.levelMut s px = b'.levelMut s px := by
  rw [levelMut, levelMut, h]

/-- What a stored level changes of the queues: the one at its side and price. -/
theorem queue_storeLevel (b : Book) (s : Side) (px : Int) (l : PriceLevel) (t : Side) (q : Int) :
    ((b.storeLevel s px l).levelMut t q).queue
      = if t = s ∧ q = px then l.queue else (b.levelMut t q).queue := by
  by_cases ht : t = s
  · subst ht
    rw [levelMut, getElem?_storeLevel]
    by_cases hq : px = q
    · subst hq
      rw [if_pos rfl, if_pos (And.intro rfl rfl)]
      by_cases hnil : l.queue = []
      · rw [if_pos hnil, hnil]
        rfl
      · rw [if_neg hnil]
        rfl
    · rw [if_neg hq, if_neg fun h => hq h.2.symm]
      rfl
  · rw [if_neg fun h => ht h.1, levelMut_eq_of_half (half_storeLevel_ne b px l ht)]

/-- One rank on one side is one price. -/
theorem exists_price_of_rank (s : Side) (r : Int) : ∃ px, ∀ p, s.rank p = r ↔ p = px := by
  cases s with
  | buy => exact ⟨-r, fun p => by simp only [Side.rank]; omega⟩
  | sell => exact ⟨r, fun p => by simp only [Side.rank]⟩

/-- A ladder goes from better ranks to worse. -/
theorem ladder_sorted (b : Book) (s : Side) :
    (b.ladder s).Pairwise fun x y => s.rank x.1.price ≤ s.rank y.1.price := by
  rw [ladder, ladderOf, List.pairwise_flatMap]
  refine ⟨fun x _ => ?_, levels_pairwise.imp fun {x y} hxy z hz w hw => ?_⟩
  · refine List.pairwise_iff_forall_sublist.mpr fun {y z} hyz => ?_
    have hy := (side_of_mem_makers (hyz.subset List.mem_cons_self)).2
    have hz := (side_of_mem_makers (hyz.subset (List.mem_cons_of_mem _ List.mem_cons_self))).2
    rw [hy, hz]
  · rw [(side_of_mem_makers hz).2, (side_of_mem_makers hw).2]
    cases s <;> simp only [Side.Better, Side.rank] at hxy ⊢ <;> omega

/-- The queue at one price, cut out of the ladder. -/
theorem ladder_split (b : Book) (s : Side) (px : Int) : ∃ xs ys,
    b.ladder s = xs ++ (makers s px (b.levelMut s px).queue ++ ys) ∧
      ∀ x ∈ xs ++ ys, x.1.price ≠ px := by
  rcases levelMut_cases b s px with hl | ⟨hl, hnew⟩
  · obtain ⟨xs, ys, hls⟩ := List.append_of_mem (mem_levels.mpr hl)
    have hord := levels_pairwise (b := b) (s := s)
    rw [hls] at hord
    obtain ⟨-, hys, hxs⟩ := List.pairwise_append.mp hord
    refine ⟨ladderOf s xs, ladderOf s ys, ?_, fun x hx => ?_⟩
    · rw [ladder, hls]
      exact List.flatMap_append
    · rcases List.mem_append.mp hx with hx | hx <;>
        obtain ⟨z, hz, hxz⟩ := List.mem_flatMap.mp hx <;> rw [(side_of_mem_makers hxz).2]
      · exact (hxs z hz _ List.mem_cons_self).ne
      · exact ((List.pairwise_cons.mp hys).1 z hz).ne.symm
  · refine ⟨b.ladder s, [], by rw [hnew]; simp [PriceLevel.new], fun x hx hpx => ?_⟩
    rw [List.append_nil] at hx
    obtain ⟨l, hl', -⟩ := mem_ladder.mp hx
    rw [hpx, hl] at hl'
    exact absurd hl' (by simp)

/-- The ladder's part at one price is the queue there. -/
theorem ladder_filter_price (b : Book) (s : Side) (px : Int) :
    (b.ladder s).filter (fun x => x.1.price = px) = makers s px (b.levelMut s px).queue := by
  obtain ⟨xs, ys, hladder, hne⟩ := b.ladder_split s px
  rw [hladder]
  exact filter_middle (fun x hx => decide_eq_false (hne x (List.mem_append_left _ hx)))
    (fun x hx => decide_eq_true (side_of_mem_makers hx).2)
    fun x hx => decide_eq_false (hne x (List.mem_append_right _ hx))

/-! ## The book shows a flat list -/

/-- Every queue of the book is the flat list's orders at that side and price, in arrival order. -/
def Shows (b : Book) (rs : List (MakerTag × ℕ)) : Prop :=
  ∀ s px, makers s px (b.levelMut s px).queue = Naive.queueAt s px rs

theorem shows_new : Book.new.Shows [] := by
  intro s px
  cases s <;> rfl

variable {rs : List (MakerTag × ℕ)}

theorem Shows.mem_orders (h : b.Shows rs) {x : MakerTag × ℕ} : x ∈ b.orders ↔ x ∈ rs := by
  have hladder : x ∈ b.orders ↔ x ∈ b.ladder x.1.side := by
    rw [(orders_perm b x.1.side).mem_iff, List.mem_append, or_iff_left_iff_imp]
    intro hx
    exact absurd (side_of_mem_ladder hx) (Side.opposite_ne _).symm
  have hprice : x ∈ b.ladder x.1.side
      ↔ x ∈ (b.ladder x.1.side).filter fun y => y.1.price = x.1.price := by
    rw [List.mem_filter]
    simp
  rw [hladder, hprice, ladder_filter_price, h, Naive.queueAt, List.mem_filter]
  simp

/-- **What an order can reach, in priority order**, arranges what it is eligible for. -/
theorem Shows.arranged (h : b.Shows rs) (o : NewOrder) :
    Arranged o.rank (b.opposing o) (rs.filter fun x => o.eligible x.1) := by
  refine ⟨(ladder_sorted b _).filter _, fun r => ?_⟩
  obtain ⟨px, hpx⟩ := exists_price_of_rank o.side.opposite r
  have hq := h o.side.opposite px
  rw [← ladder_filter_price, Naive.queueAt] at hq
  calc (b.opposing o).filter (fun x => o.rank x.1 = r)
      = ((b.ladder o.side.opposite).filter fun x => x.1.price = px).filter
          fun x => o.acceptable x.1.price := by
        rw [opposing, List.filter_filter, List.filter_filter]
        refine List.filter_congr fun x _ => ?_
        simp only [NewOrder.rank, hpx, Bool.and_comm]
    _ = (rs.filter fun x => x.1.side = o.side.opposite ∧ x.1.price = px).filter
          fun x => o.acceptable x.1.price := by rw [hq]
    _ = (rs.filter fun x => o.eligible x.1).filter fun x => o.rank x.1 = r := by
        rw [List.filter_filter, List.filter_filter]
        refine List.filter_congr fun x _ => ?_
        simp only [NewOrder.rank, NewOrder.eligible, hpx, Bool.decide_and]
        cases decide (x.1.side = o.side.opposite) <;> cases decide (x.1.price = px) <;>
          cases o.acceptable x.1.price <;> rfl

end Book

/-! ## Crossing -/

variable {b : Book} {rs : List (MakerTag × ℕ)} {o : NewOrder}

theorem naive_sweep_serves (o : NewOrder) (hlive : b.LiveLevels) (h : b.Shows rs) :
    (Naive.sweep o rs).Serves o.rank o.eligible o.quantity.toNat (b.opposing o) rs := by
  have harr := h.arranged o
  refine Priority.sweep_arranged ?_ (hlive.positive_opposing o) harr
  have hlen := harr.perm.length_eq
  have hle := List.length_filter_le (fun x => o.eligible x.1) rs
  omega

/-- Orders at a side and price that `o` is not eligible for are left alone by the sweep. -/
theorem queueAt_sweep_of_not_eligible (hlive : b.LiveLevels) (h : b.Shows rs) {s : Side} {px : Int}
    (hne : ¬ (s = o.side.opposite ∧ o.acceptable px = true)) :
    Naive.queueAt s px (Naive.sweep o rs).bag = Naive.queueAt s px rs := by
  refine (naive_sweep_serves o hlive h).others (fun t => decide (t.side = s ∧ t.price = px)) ?_
  intro t ht
  rw [NewOrder.eligible, Bool.and_eq_true, decide_eq_true_eq] at ht
  rw [decide_eq_false_iff_not]
  rintro ⟨rfl, rfl⟩
  exact hne ht

/-- **Crossing shows what the sweep leaves.** -/
theorem shows_crossAll (o : NewOrder) (hlive : b.LiveLevels) (h : b.Shows rs) :
    (b.crossAll o).book.Shows (Naive.sweep o rs).bag := by
  have hs := crossAll_serves o hlive
  have hn := naive_sweep_serves o hlive h
  intro s px
  by_cases hreach : s = o.side.opposite ∧ o.acceptable px = true
  · obtain ⟨rfl, hacc⟩ := hreach
    -- at a reachable price: what the demand leaves of the arranged list
    have hout : (b.outOfReach o).filter (fun x => x.1.price = px) = [] := by
      rw [Book.outOfReach, List.filter_filter, List.filter_eq_nil_iff]
      intro x _
      by_cases hx : x.1.price = px
      · simp [hx, hacc]
      · simp [hx]
    have hrank : ∀ p, o.side.opposite.rank p = o.side.opposite.rank px ↔ p = px := by
      intro p
      cases o.side.opposite with
      | buy => simp only [Side.rank]; omega
      | sell => exact Iff.rfl
    have hstable := hn.left.stable (o.side.opposite.rank px)
    simp only [NewOrder.rank, hrank] at hstable
    rw [← Book.ladder_filter_price, hs.ladder, List.filter_append, hout, List.append_nil,
      hstable, Naive.queueAt, List.filter_filter]
    refine List.filter_congr fun x _ => ?_
    by_cases hx : x.1.price = px
    · simp [NewOrder.eligible, hx, hacc]
    · simp [hx]
  · -- elsewhere nothing moves, on either side
    rw [queueAt_sweep_of_not_eligible hlive h hreach, ← h s px]
    rcases Side.eq_or_eq_opposite s o.side with rfl | rfl
    · rw [Book.levelMut_eq_of_half hs.own]
    · have hacc : o.acceptable px = false := by simpa using hreach
      rw [Book.levelMut, hs.frame px hacc]
      rfl

/-! ## Resting and cancelling -/

theorem queueAt_append_singleton (s : Side) (px : Int) (rs : List (MakerTag × ℕ))
    (x : MakerTag × ℕ) :
    Naive.queueAt s px (rs ++ [x])
      = if x.1.side = s ∧ x.1.price = px then Naive.queueAt s px rs ++ [x]
        else Naive.queueAt s px rs := by
  simp only [Naive.queueAt, List.filter_append, List.filter_cons, List.filter_nil]
  split <;> simp_all

theorem shows_rest (o : NewOrder) (rem : UInt64) (h : b.Shows rs) : (b.rest o rem).1.Shows
    (rs ++ [(⟨o.side, o.limitPx, o.orderId, o.isSynthetic⟩, rem.toNat)]) := by
  intro s px
  rw [Book.levelMut_eq_of_half (half_rest b o rem s), Book.queue_storeLevel,
    queueAt_append_singleton, ← h s px]
  by_cases hsp : s = o.side ∧ px = o.limitPx
  · obtain ⟨rfl, rfl⟩ := hsp
    rw [if_pos ⟨rfl, rfl⟩, if_pos ⟨rfl, rfl⟩, Book.joined, makers_append]
    rfl
  · rw [if_neg hsp, if_neg fun he => hsp ⟨he.1.symm, he.2.symm⟩]

theorem makers_eraseP (s : Side) (px : Int) (id : UInt64) : ∀ q : List RestingOrder,
    makers s px (q.eraseP (·.orderId = id))
      = (makers s px q).eraseP fun x => x.1.orderId = id
  | [] => rfl
  | m :: q => by
      rw [makers_cons, List.eraseP_cons, List.eraseP_cons]
      by_cases hm : m.orderId = id
      · simp [hm, RestingOrder.tag]
      · simp [hm, RestingOrder.tag, makers_eraseP s px id q]

/-- Erasing an order commutes with looking at the place where all orders of its id are. -/
theorem queueAt_eraseP {id : UInt64} {s : Side} {px : Int} {rs : List (MakerTag × ℕ)}
    (h : ∀ x ∈ rs, x.1.orderId = id → x.1.side = s ∧ x.1.price = px) (t : Side) (q : Int) :
    Naive.queueAt t q (rs.eraseP fun x => x.1.orderId = id)
      = if t = s ∧ q = px then (Naive.queueAt t q rs).eraseP fun x => x.1.orderId = id
        else Naive.queueAt t q rs := by
  by_cases htq : t = s ∧ q = px
  · obtain ⟨rfl, rfl⟩ := htq
    rw [if_pos ⟨rfl, rfl⟩]
    exact filter_eraseP_of_imp fun x hx hid => decide_eq_true (h x hx (of_decide_eq_true hid))
  · rw [if_neg htq]
    refine filter_eraseP_of_not fun x hx hid => decide_eq_false fun hat => htq ?_
    obtain ⟨rfl, rfl⟩ := h x hx (of_decide_eq_true hid)
    exact ⟨hat.1.symm, hat.2.symm⟩

/-- **Cancelling shows the list without the named order**, and both sides agree whether there is
one. -/
theorem shows_cancel {id : UInt64} (htracks : b.Tracks id) (h : b.Shows rs) :
    (b.cancel id).1.Shows (Naive.cancel rs id).1 ∧
      (b.cancel id).2.exact = (Naive.cancel rs id).2.outcome := by
  have hplace : ∀ x ∈ rs, x.1.orderId = id → b.locate[id]? = some (x.1.side, x.1.price) := by
    intro x hx hid
    have hp : (x.1.side, x.1.price) ∈ placesOf id b.orders :=
      mem_placesOf.mpr ⟨x, h.mem_orders.mpr hx, hid, rfl⟩
    rwa [htracks.mem_iff, Option.mem_toList] at hp
  cases hloc : b.locate[id]? with
  | none =>
      have hany : (rs.any fun x => x.1.orderId = id) = false := by
        rw [List.any_eq_false]
        intro x hx hid
        rw [hplace x hx (by simpa using hid)] at hloc
        exact absurd hloc (by simp)
      rw [cancel_none hloc, Naive.cancel, hany]
      exact ⟨h, rfl⟩
  | some sp =>
      obtain ⟨s, px⟩ := sp
      have hany : (rs.any fun x => x.1.orderId = id) = true := by
        have hmem : (s, px) ∈ placesOf id b.orders := by
          rw [htracks.mem_iff, hloc]
          exact List.mem_singleton.mpr rfl
        obtain ⟨x, hx, hid, -⟩ := mem_placesOf.mp hmem
        rw [List.any_eq_true]
        exact ⟨x, h.mem_orders.mp hx, by simpa using hid⟩
      have hone : ∀ x ∈ rs, x.1.orderId = id → x.1.side = s ∧ x.1.price = px := by
        intro x hx hid
        have hsp := hplace x hx hid
        rw [hloc] at hsp
        obtain ⟨rfl, rfl⟩ := Prod.mk.inj (Option.some.inj hsp)
        exact ⟨rfl, rfl⟩
      rw [Naive.cancel, if_pos hany]
      refine ⟨fun t q => ?_, ?_⟩
      · rw [Book.levelMut_eq_of_half (half_cancel hloc t), Book.queue_storeLevel,
          queueAt_eraseP hone t q, ← h t q]
        by_cases htq : t = s ∧ q = px
        · obtain ⟨rfl, rfl⟩ := htq
          rw [if_pos ⟨rfl, rfl⟩, if_pos ⟨rfl, rfl⟩, queue_without, makers_eraseP]
        · rw [if_neg htq, if_neg htq]
      · rw [cancel_some hloc]
        rfl

/-! ## The refinement -/

/-- The exact quantity resting at one side and price. -/
def Book.restingAt (b : Book) (s : Side) (px : Int) : ℕ := queueSize (b.levelMut s px).queue

/-- What relates the book to the flat list it stands for. -/
structure Book.Refines (b : Book) (rs : List (MakerTag × ℕ)) : Prop where
  sound : b.Sound
  cached : b.CachedLevels
  tracks : ∀ id, b.Tracks id
  shows : b.Shows rs

theorem refines_new : Book.new.Refines [] :=
  ⟨sound_new, fun s px l hl => by simp at hl, tracks_new, Book.shows_new⟩

/-- The quantity ahead of a resting remainder is what the naive matcher sums up. -/
theorem queueAhead_eq (o : NewOrder) (rem : UInt64) (hc : b.CachedLevels) (h : b.Shows rs)
    (hlt : (b.rest o rem).1.restingAt o.side o.limitPx < 2 ^ 64) :
    (b.rest o rem).2.exact
      = Naive.Outcome.rested (supply (Naive.queueAt o.side o.limitPx rs)) := by
  rw [Book.restingAt, Book.levelMut_eq_of_half (half_rest b o rem o.side), Book.queue_storeLevel,
    if_pos ⟨rfl, rfl⟩, Book.joined, queueSize_append] at hlt
  have hexact : (b.levelMut o.side o.limitPx).totalSize.toNat = _ :=
    exact_of_cached (Book.cached_levelMut hc o.side o.limitPx) (by omega)
  rw [← h, supply_makers, ← hexact]
  rfl

theorem refines_submit (o : NewOrder) (h : b.Refines rs) (hfresh : b.isResting o.orderId = false)
    (hlt : ∀ s px, (b.submit o).1.restingAt s px < 2 ^ 64) :
    (b.submit o).1.Refines (Naive.submit rs o).1 ∧
      Answer.exact ⟨(b.submit o).2.1, (b.submit o).2.2⟩ = (Naive.submit rs o).2 := by
  have hlive := h.sound.live
  have hs := crossAll_serves o hlive
  have hn := naive_sweep_serves o hlive h.shows
  have hshows := shows_crossAll o hlive h.shows
  have hfills : (b.crossAll o).fills.map Fill.exact
      = (Naive.sweep o rs).takes.map (Naive.fill o) := by
    rw [map_exact o.side.opposite hs.taker, hs.fills, hn.takes]
  have hunmet : (Naive.sweep o rs).unmet = (b.crossAll o).remaining.toNat := by
    rw [hn.unmet, hs.remaining]
  have hstep : (b.step (Call.submit o)).1.Sound ∧ (b.step (Call.submit o)).1.CachedLevels ∧
      ∀ id, (b.step (Call.submit o)).1.Tracks id := by
    refine ⟨sound_step b _ h.sound, cached_step _ hlive h.cached, fun id => ?_⟩
    refine tracks_step hlive ?_ (h.tracks id)
    rintro o' ⟨⟩ rfl
    exact hfresh
  have key : (b.submit o).1.Shows (Naive.submit rs o).1 ∧
      Answer.exact ⟨(b.submit o).2.1, (b.submit o).2.2⟩ = (Naive.submit rs o).2 := by
    simp only [Naive.submit, hunmet, ← hfills]
    rcases submit_cases b o with ⟨h0, he⟩ | ⟨h0, hl, he⟩ | ⟨h0, hl, he⟩
    · rw [he, h0]
      exact ⟨hshows, rfl⟩
    · rw [he, if_neg (mt toNat_eq_zero.mp h0), hl]
      exact ⟨hshows, rfl⟩
    · rw [he] at hlt ⊢
      rw [if_neg (mt toNat_eq_zero.mp h0), hl]
      refine ⟨shows_rest o _ hshows, ?_⟩
      exact congrArg (Naive.Answer.mk _)
        (queueAhead_eq o _ (hs.cached h.cached) hshows (hlt o.side o.limitPx))
  exact ⟨⟨hstep.1, hstep.2.1, hstep.2.2, key.1⟩, key.2⟩

/-- **One call on the book refines one call on the flat list.** -/
theorem refines_step {call : Call} (h : b.Refines rs) (hfresh : call.Fresh b)
    (hlt : ∀ s px, (b.step call).1.restingAt s px < 2 ^ 64) :
    (b.step call).1.Refines (Naive.step rs call).1 ∧
      (b.step call).2.exact = (Naive.step rs call).2 := by
  cases call with
  | submit o => exact refines_submit o h hfresh hlt
  | cancel id =>
      obtain ⟨hshows, hout⟩ := shows_cancel (h.tracks id) h.shows
      refine ⟨⟨sound_cancel id h.sound, cached_cancel id h.cached,
        fun j => tracks_cancel id (h.tracks j), hshows⟩, ?_⟩
      have hfills : (Naive.cancel rs id).2.fills = [] := by
        unfold Naive.cancel
        split <;> rfl
      exact congrArg₂ Naive.Answer.mk hfills.symm hout

/-- **Price-time priority.**  In a run of fresh calls that never puts `2 ^ 64` or more at one
price, the book's fills and outcomes are those of the naive matcher. -/
theorem price_time_priority (cs : List Call)
    (hfresh : ∀ e ∈ Mealy.trace Book.step Book.new cs, e.input.Fresh e.pre)
    (htotal : ∀ e ∈ Mealy.trace Book.step Book.new cs,
      ∀ (side : Side) (px : Int), e.post.restingAt side px < 2 ^ 64) :
    (Mealy.outs Book.step Book.new cs).map Answer.exact = Mealy.outs Naive.step [] cs := by
  have hguard : ∀ e ∈ Mealy.trace Book.step Book.new cs,
      e.input.Fresh e.pre ∧ ∀ s px, (e.pre.step e.input).1.restingAt s px < 2 ^ 64 := by
    intro e he
    rw [Mealy.step_of_mem_trace he]
    exact ⟨hfresh e he, htotal e he⟩
  have hsim := (Mealy.simulation (R := Book.Refines) (Q := fun a a' => a.exact = a')
    (g := fun b call => call.Fresh b ∧ ∀ s px, (b.step call).1.restingAt s px < 2 ^ 64)
    (fun b rs call h hg => refines_step h hg.1 hg.2) refines_new hguard).2
  rw [← List.forall₂_eq_eq_eq, List.forall₂_map_left_iff]
  exact hsim

/-- What rests anywhere along a run is part of what was submitted. -/
theorem restingAt_le_submitted {cs : List Call} {e : Mealy.Entry Book Call Answer}
    (he : e ∈ Mealy.trace Book.step Book.new cs) (s : Side) (px : Int) :
    e.post.restingAt s px ≤ submitted cs := by
  have hnew : Book.new.CachedLevels := fun s px l hl => by simp at hl
  have hempty : supply Book.new.orders = 0 := rfl
  obtain ⟨hsound, -, hle⟩ := (cached_trace cs sound_new hnew).2.2 e he
  have hstep := supply_step e.input hsound.live
  rw [Mealy.step_of_mem_trace he, supply_orders e.post s] at hstep
  have hpart : e.post.restingAt s px ≤ supply (e.post.ladder s) := by
    rw [Book.restingAt, ← supply_makers s px, ← Book.ladder_filter_price]
    exact Greedy.supply_filter_le _ _
  omega

/-- Two makers at one price, a third at a worse one, a sweep of all three that rests, a cancel
from the middle of a queue and a market remainder that is rejected. -/
theorem price_time_priority_run :
    let cs := [Call.submit ⟨1, Side.sell, true, 100, 2, 0, true⟩,
      Call.submit ⟨2, Side.sell, true, 101, 2, 0, true⟩,
      Call.submit ⟨3, Side.sell, true, 100, 3, 0, true⟩,
      Call.submit ⟨4, Side.sell, true, 100, 1, 0, true⟩, Call.cancel 3,
      Call.submit ⟨5, Side.buy, true, 101, 9, 0, false⟩,
      Call.submit ⟨6, Side.sell, false, 0, 7, 0, true⟩, Call.cancel 9]
    (Mealy.outs Book.step Book.new cs).map Answer.exact = Mealy.outs Naive.step [] cs :=
  price_time_priority _ (by decide +kernel) fun _ he side px =>
    lt_of_le_of_lt (restingAt_le_submitted he side px) (by decide +kernel)

end HotpathIpc
