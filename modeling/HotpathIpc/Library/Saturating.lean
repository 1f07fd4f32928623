import Mathlib.Algebra.Order.Floor.Semiring
import Mathlib.Tactic.NormNum

/-!
# Saturating casts

A cast of an exact number to a machine integer that truncates and stays at the end of the range.
-/

namespace Saturating

variable {K : Type*} [Semiring K] [LinearOrder K] [FloorSemiring K]

/-- Cast to `u64`; what is negative becomes 0. -/
def u64 (x : K) : UInt64 := UInt64.ofNat (min ⌊x⌋₊ (2 ^ 64 - 1))

/-- The integer part of a number: a cast to a signed integer rounds towards zero. -/
def trunc {K : Type*} [Ring K] [LinearOrder K] [FloorRing K] (x : K) : ℤ :=
  if 0 ≤ x then ⌊x⌋ else ⌈x⌉

/-- `a.saturating_sub(b)` on `u64`. -/
def sub (a b : UInt64) : UInt64 := if b ≤ a then a - b else 0

/-- Cast a whole number to `i64`. -/
def i64 (x : ℤ) : ℤ := max (-2 ^ 63) (min x (2 ^ 63 - 1))

theorem toNat_u64 (x : K) : (u64 x).toNat = min ⌊x⌋₊ (2 ^ 64 - 1) :=
  UInt64.toNat_ofNat_of_lt' (lt_of_le_of_lt (min_le_right _ _) (by norm_num))

theorem toNat_sub (a b : UInt64) : (sub a b).toNat = a.toNat - b.toNat := by
  rw [sub]
  split
  · rename_i h
    exact UInt64.toNat_sub_of_le a b h
  · rename_i h
    rw [UInt64.le_iff_toNat_le] at h
    rw [UInt64.toNat_zero]
    omega

theorem u64_natCast [IsStrictOrderedRing K] {n : ℕ} (h : n < 2 ^ 64) :
    u64 (n : K) = UInt64.ofNat n := by
  have hmin : min n (2 ^ 64 - 1) = n := min_eq_left (by omega)
  rw [u64, Nat.floor_natCast, hmin]

theorem le_i64 (x : ℤ) : min x (2 ^ 63 - 1) ≤ i64 x := le_max_right _ _

theorem u64_mono [IsStrictOrderedRing K] {x y : K} (h : x ≤ y) : u64 x ≤ u64 y := by
  rw [UInt64.le_iff_toNat_le, toNat_u64, toNat_u64]
  exact min_le_min_right _ (Nat.floor_le_floor h)

/-- What reaches a positive distance from the end of the range has not saturated. -/
theorem le_toNat_u64_iff [IsStrictOrderedRing K] {x : K} (hx : 0 ≤ x) {n : ℕ} (hn : n < 2 ^ 64) :
    n ≤ (u64 x).toNat ↔ (n : K) ≤ x := by
  rw [toNat_u64, le_min_iff, Nat.le_floor_iff hx]
  exact and_iff_left (Nat.le_pred_of_lt hn)

end Saturating
