import Mathlib.Order.MinMax

/-!
# The depth of straight-line stack code

`δ d i` is the depth that instruction `i` leaves when it starts at depth `d`.  `List.foldl δ` is
then the depth after a piece of code, and `peak` the greatest depth on the way.
-/

namespace Depth

variable {ι : Type*} (δ : ℕ → ι → ℕ)

/-- The greatest depth while `code` runs from depth `d`. -/
def peak : ℕ → List ι → ℕ
  | d, [] => d
  | d, i :: code => max d (peak (δ d i) code)

theorem start_le_peak (d : ℕ) : ∀ code : List ι, d ≤ peak δ d code
  | [] => Nat.le_refl d
  | _ :: _ => Nat.le_max_left _ _

theorem peak_append : ∀ (d : ℕ) (code code' : List ι),
    peak δ d (code ++ code') = max (peak δ d code) (peak δ (code.foldl δ d) code')
  | d, [], code' => (max_eq_right (start_le_peak δ d code')).symm
  | d, i :: code, code' => by
      rw [List.cons_append, peak, peak, peak_append, max_assoc, List.foldl_cons]

/-- Code that stays within a bound does so up to every cut. -/
theorem peak_le_of_append {d n : ℕ} {code code' : List ι} (h : peak δ d (code ++ code') ≤ n) :
    peak δ d code ≤ n ∧ peak δ (code.foldl δ d) code' ≤ n := by
  rw [peak_append] at h
  exact max_le_iff.mp h

end Depth
