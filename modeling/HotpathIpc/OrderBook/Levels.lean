import HotpathIpc.OrderBook.Book
import HotpathIpc.Library.Greedy
import Mathlib.Data.List.Sort
import Mathlib.Order.Compare

/-!
# Levels and ladders

Two ways of looking at one side of the book.

`Book.levels b s` lists its price levels from the best price inward, which is the order `submit`
walks them in; `bestOf` is its `head?`, and storing the best level replaces or drops its head
(`bestOf_eq`, `levels_storeLevel_head`).

`Book.ladder b s` goes on to list the single orders, level after level and front to back: the
side in price-time priority, as the tagged quantities of `Library/Greedy.lean`.
-/

namespace HotpathIpc

open Std (ExtTreeMap)

/-! ## Arithmetic on `u64` -/

theorem toNat_min (a b : UInt64) : (min a b).toNat = min a.toNat b.toNat := by
  rw [show min a b = if a ≤ b then a else b from rfl]
  split
  · rename_i h
    rw [UInt64.le_iff_toNat_le] at h
    omega
  · rename_i h
    rw [UInt64.le_iff_toNat_le] at h
    omega

theorem toNat_sub_min_left (a b : UInt64) : (a - min a b).toNat = a.toNat - b.toNat := by
  have hle : min a b ≤ a := by rw [UInt64.le_iff_toNat_le, toNat_min]; omega
  rw [UInt64.toNat_sub_of_le _ _ hle, toNat_min]
  omega

theorem toNat_sub_min_right (a b : UInt64) : (b - min a b).toNat = b.toNat - a.toNat := by
  have hle : min a b ≤ b := by rw [UInt64.le_iff_toNat_le, toNat_min]; omega
  rw [UInt64.toNat_sub_of_le _ _ hle, toNat_min]
  omega

theorem toNat_eq_zero {a : UInt64} : a.toNat = 0 ↔ a = 0 := by
  rw [← UInt64.toNat_inj]; rfl

/-! ## Halves -/

@[simp] theorem Side.opposite_opposite (s : Side) : s.opposite.opposite = s := by
  cases s <;> rfl

theorem Side.opposite_ne (s : Side) : s.opposite ≠ s := by cases s <;> decide

theorem Side.eq_or_eq_opposite (s t : Side) : s = t ∨ s = t.opposite := by
  cases s <;> cases t <;> decide

namespace Book

variable (b : Book) (s : Side) (px : Int) (l : PriceLevel)

@[simp] theorem half_new : Book.new.half s = ∅ := by cases s <;> rfl

@[simp] theorem locate_new : Book.new.locate = ∅ := rfl

@[simp] theorem half_setHalf (m : ExtTreeMap Int PriceLevel) : (b.setHalf s m).half s = m := by
  cases s <;> rfl

theorem half_setHalf_ne {s t : Side} (h : t ≠ s) (m : ExtTreeMap Int PriceLevel) :
    (b.setHalf s m).half t = b.half t := by
  cases s <;> cases t <;> first | rfl | exact absurd rfl h

@[simp] theorem locate_setHalf (m : ExtTreeMap Int PriceLevel) :
    (b.setHalf s m).locate = b.locate := by
  cases s <;> rfl

@[simp] theorem half_mk_locate (m : ExtTreeMap UInt64 (Side × Int)) :
    ({ b with locate := m } : Book).half s = b.half s := by
  cases s <;> rfl

/-- Write a level back, or remove it if it has been left without orders. -/
def storeLevel : Book := (b.putLevel s px l).dropIfEmpty s px l

@[simp] theorem locate_storeLevel : (b.storeLevel s px l).locate = b.locate := by
  unfold storeLevel dropIfEmpty putLevel removeLevel
  split <;> simp

theorem half_storeLevel_ne {s t : Side} (h : t ≠ s) : (b.storeLevel s px l).half t = b.half t := by
  unfold storeLevel dropIfEmpty putLevel removeLevel
  split <;> simp [half_setHalf_ne _ h]

/-- What a stored level does to its side: only its own price changes. -/
theorem getElem?_storeLevel (px' : Int) :
    ((b.storeLevel s px l).half s)[px']?
      = if px = px' then (if l.queue = [] then none else some l) else (b.half s)[px']? := by
  unfold storeLevel dropIfEmpty putLevel removeLevel
  simp only [List.isEmpty_iff]
  split <;> split <;> simp_all [ExtTreeMap.getElem?_insert, ExtTreeMap.getElem?_erase]

/-- A property of every price level of the book. -/
def AllLevels (P : Side → Int → PriceLevel → Prop) : Prop :=
  ∀ s px l, (b.half s)[px]? = some l → P s px l

variable {b s px l}

theorem AllLevels.storeLevel {P : Side → Int → PriceLevel → Prop} (h : b.AllLevels P)
    (hl : l.queue ≠ [] → P s px l) : (b.storeLevel s px l).AllLevels P := by
  intro t q k hk
  by_cases hts : t = s
  · subst hts
    rw [getElem?_storeLevel] at hk
    split at hk
    · split at hk
      · exact absurd hk (by simp)
      · rename_i hpx hne
        obtain rfl := Option.some.inj hk
        exact hpx ▸ hl hne
    · exact h t q k hk
  · rw [half_storeLevel_ne _ _ _ hts] at hk
    exact h t q k hk

end Book

/-! ## Levels, best price first -/

/-- `s.Better p q`: on side `s`, the price `p` comes strictly before `q`. -/
def Side.Better : Side → Int → Int → Prop
  | Side.buy, p, q => q < p
  | Side.sell, p, q => p < q

instance (s : Side) (p q : Int) : Decidable (s.Better p q) := by
  cases s <;> exact inferInstanceAs (Decidable (_ < _))

theorem Side.Better.ne {s : Side} {p q : Int} (h : s.Better p q) : p ≠ q := by
  cases s <;> simp only [Side.Better] at h <;> omega

theorem Side.Better.asymm {s : Side} {p q : Int} (h : s.Better p q) : ¬ s.Better q p := by
  cases s <;> simp only [Side.Better] at h ⊢ <;> omega

theorem Side.Better.trans {s : Side} {p q r : Int} (h : s.Better p q) (h' : s.Better q r) :
    s.Better p r := by
  cases s <;> simp only [Side.Better] at h h' ⊢ <;> omega

namespace Book

/-- The levels of one side, best price first. -/
def levels (b : Book) : Side → List (Int × PriceLevel)
  | Side.buy => b.bids.toList.reverse
  | Side.sell => b.asks.toList

variable {b b' : Book} {s : Side} {px : Int} {l l' : PriceLevel} {ls : List (Int × PriceLevel)}

theorem levels_eq_of_half (h : b.half s = b'.half s) : b.levels s = b'.levels s := by
  cases s with
  | buy => exact congrArg (fun m => List.reverse (ExtTreeMap.toList m)) h
  | sell => exact congrArg ExtTreeMap.toList h

theorem mem_levels : (px, l) ∈ b.levels s ↔ (b.half s)[px]? = some l := by
  cases s <;> simp [levels, half]

theorem length_levels : (b.levels s).length = (b.half s).size := by
  cases s <;> simp [levels, half]

/-- Levels come in strict price order. -/
theorem levels_pairwise : (b.levels s).Pairwise fun x y => s.Better x.1 y.1 := by
  cases s with
  | buy =>
      rw [levels, List.pairwise_reverse]
      exact b.bids.ordered_keys_toList.imp fun h => compare_lt_iff_lt.mp h
  | sell => exact b.asks.ordered_keys_toList.imp fun h => compare_lt_iff_lt.mp h

/-- Strict price order and membership determine the list of levels. -/
theorem levels_eq_of_mem_iff (hls : ls.Pairwise fun x y => s.Better x.1 y.1)
    (h : ∀ px l, (px, l) ∈ ls ↔ (b.half s)[px]? = some l) : b.levels s = ls := by
  have : Std.Irrefl fun x y : Int × PriceLevel => s.Better x.1 y.1 :=
    ⟨fun _ hx => hx.ne rfl⟩
  have : Std.Antisymm fun x y : Int × PriceLevel => s.Better x.1 y.1 :=
    ⟨fun _ _ hxy hyx => absurd hyx hxy.asymm⟩
  exact List.Pairwise.eq_of_mem_iff levels_pairwise hls fun x => mem_levels.trans (h x.1 x.2).symm

/-- **The best price is the head's.** -/
theorem bestOf_eq : b.bestOf s = (b.levels s).head?.map Prod.fst := by
  cases s with
  | buy =>
      rw [bestOf, bestBid, levels, List.head?_reverse, ← ExtTreeMap.map_fst_toList_eq_keys,
        List.getLast?_map]
  | sell => rw [bestOf, bestAsk, levels, ← ExtTreeMap.map_fst_toList_eq_keys, List.head?_map]

theorem getElem?_of_levels (h : b.levels s = (px, l) :: ls) : (b.half s)[px]? = some l :=
  mem_levels.mp (h ▸ List.mem_cons_self)

theorem levelMut_of_levels (h : b.levels s = (px, l) :: ls) : b.levelMut s px = l := by
  rw [levelMut, getElem?_of_levels h]
  rfl

/-- Storing at the best price replaces the head, or drops it. -/
theorem levels_storeLevel_head (h : b.levels s = (px, l) :: ls) :
    (b.storeLevel s px l').levels s = if l'.queue = [] then ls else (px, l') :: ls := by
  have hord : ((px, l) :: ls).Pairwise fun x y => s.Better x.1 y.1 := h ▸ levels_pairwise
  obtain ⟨hhead, htail⟩ := List.pairwise_cons.mp hord
  have hmem : ∀ q k, (q, k) ∈ (px, l) :: ls ↔ (b.half s)[q]? = some k := fun q k => by
    rw [← h]; exact mem_levels
  refine levels_eq_of_mem_iff ?_ fun q k => ?_
  · split
    · exact htail
    · exact List.pairwise_cons.mpr ⟨hhead, htail⟩
  · rw [getElem?_storeLevel]
    by_cases hq : px = q
    · subst hq
      have hnot : ∀ k, (px, k) ∉ ls := fun k hk => (hhead _ hk).ne rfl
      rw [if_pos rfl]
      split
      · exact ⟨fun hk => absurd hk (hnot k), fun hk => absurd hk (by simp)⟩
      · constructor
        · intro hk
          rcases List.mem_cons.mp hk with hk | hk
          · rw [(Prod.mk.inj hk).2]
          · exact absurd hk (hnot k)
        · intro hk
          obtain rfl := Option.some.inj hk
          exact List.mem_cons_self
    · rw [if_neg hq, ← hmem]
      split <;> simp [Ne.symm hq]

end Book

/-! ## The ladder -/

/-- Everything about a resting order but its remaining quantity. -/
structure MakerTag where
  side : Side
  price : Int
  orderId : UInt64
  isSynthetic : Bool
deriving DecidableEq, Repr

def RestingOrder.tag (o : RestingOrder) (s : Side) (px : Int) : MakerTag :=
  ⟨s, px, o.orderId, o.isSynthetic⟩

/-- A queue as tagged quantities, front first. -/
def makers (s : Side) (px : Int) (queue : List RestingOrder) : List (MakerTag × ℕ) :=
  queue.map fun o => (o.tag s px, o.remaining.toNat)

@[simp] theorem makers_nil (s : Side) (px : Int) : makers s px [] = [] := rfl

@[simp] theorem makers_cons (s : Side) (px : Int) (o : RestingOrder) (q : List RestingOrder) :
    makers s px (o :: q) = (o.tag s px, o.remaining.toNat) :: makers s px q := rfl

@[simp] theorem makers_append (s : Side) (px : Int) (q q' : List RestingOrder) :
    makers s px (q ++ q') = makers s px q ++ makers s px q' := List.map_append

@[simp] theorem makers_eq_nil {s : Side} {px : Int} {q : List RestingOrder} :
    makers s px q = [] ↔ q = [] := List.map_eq_nil_iff

theorem side_of_mem_makers {s : Side} {px : Int} {q : List RestingOrder} {x : MakerTag × ℕ}
    (h : x ∈ makers s px q) : x.1.side = s ∧ x.1.price = px := by
  obtain ⟨o, -, rfl⟩ := List.mem_map.mp h
  exact ⟨rfl, rfl⟩

/-- The orders of a list of levels, level after level. -/
def ladderOf (s : Side) (ls : List (Int × PriceLevel)) : List (MakerTag × ℕ) :=
  ls.flatMap fun x => makers s x.1 x.2.queue

@[simp] theorem ladderOf_nil (s : Side) : ladderOf s [] = [] := rfl

@[simp] theorem ladderOf_cons (s : Side) (x : Int × PriceLevel) (ls : List (Int × PriceLevel)) :
    ladderOf s (x :: ls) = makers s x.1 x.2.queue ++ ladderOf s ls := rfl

/-- **One side in price-time priority**: best price first, front of the queue first. -/
def Book.ladder (b : Book) (s : Side) : List (MakerTag × ℕ) := ladderOf s (b.levels s)

namespace Book

variable {b b' : Book} {s : Side}

theorem ladder_eq_of_half (h : b.half s = b'.half s) : b.ladder s = b'.ladder s :=
  congrArg (ladderOf s) (levels_eq_of_half h)

theorem mem_ladder {x : MakerTag × ℕ} : x ∈ b.ladder s ↔
    ∃ l, (b.half s)[x.1.price]? = some l ∧ x ∈ makers s x.1.price l.queue := by
  rw [ladder, ladderOf, List.mem_flatMap]
  constructor
  · rintro ⟨⟨px, l⟩, hl, hx⟩
    obtain ⟨-, rfl⟩ := side_of_mem_makers hx
    exact ⟨l, mem_levels.mp hl, hx⟩
  · rintro ⟨l, hl, hx⟩
    exact ⟨(x.1.price, l), mem_levels.mpr hl, hx⟩

theorem side_of_mem_ladder {x : MakerTag × ℕ} (h : x ∈ b.ladder s) : x.1.side = s := by
  obtain ⟨l, -, hx⟩ := mem_ladder.mp h
  exact (side_of_mem_makers hx).1

end Book

end HotpathIpc
