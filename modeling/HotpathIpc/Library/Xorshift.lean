import Mathlib.Dynamics.PeriodicPts.Lemmas
import Mathlib.Tactic.Common

/-!
# Xorshift generators

Generators whose step mixes a shifted copy of the state into the state.

* `mixRight`, `mixLeft` — one mix; **`mixRight_injective`**, **`mixLeft_injective`** — it loses
  nothing, since each bit is mixed with bits from one side only and the outermost with none.
* `iterate_ne` — an injective step never enters a fixed point from outside; `returns` — on finitely
  many states it comes back to where it started.
-/

namespace Xorshift

variable {w n : ℕ}

/-- Mix the high bits into lower ones. -/
def mixRight (n : ℕ) (x : BitVec w) : BitVec w := x ^^^ (x >>> n)

/-- Mix the low bits into higher ones. -/
def mixLeft (n : ℕ) (x : BitVec w) : BitVec w := x ^^^ (x <<< n)

theorem getLsbD_mixRight (x : BitVec w) (i : ℕ) :
    (mixRight n x).getLsbD i = (x.getLsbD i ^^ x.getLsbD (n + i)) := by
  rw [mixRight, BitVec.getLsbD_xor, BitVec.getLsbD_ushiftRight]

theorem mixRight_injective (hn : 0 < n) : Function.Injective (mixRight (w := w) n) := by
  intro x y hxy
  -- from the top bit down, which is mixed with nothing
  have hbits : ∀ k i, w ≤ i + k → x.getLsbD i = y.getLsbD i := by
    intro k
    induction k with
    | zero =>
        intro i hi
        rw [BitVec.getLsbD_of_ge x i hi, BitVec.getLsbD_of_ge y i hi]
    | succ k ih =>
        intro i hi
        have hbit := congrArg (BitVec.getLsbD · i) hxy
        simp only [getLsbD_mixRight] at hbit
        rw [ih (n + i) (by omega)] at hbit
        exact Bool.xor_left_inj.mp hbit
  exact BitVec.eq_of_getLsbD_eq fun i _ => hbits w i (Nat.le_add_left w i)

theorem getLsbD_mixLeft (x : BitVec w) {i : ℕ} (hi : i < w) :
    (mixLeft n x).getLsbD i = (x.getLsbD i ^^ (!decide (i < n) && x.getLsbD (i - n))) := by
  rw [mixLeft, BitVec.getLsbD_xor, BitVec.getLsbD_shiftLeft]
  simp [hi]

theorem mixLeft_injective (hn : 0 < n) : Function.Injective (mixLeft (w := w) n) := by
  intro x y hxy
  -- from the lowest bit up
  have hbits : ∀ i, i < w → x.getLsbD i = y.getLsbD i := by
    intro i
    induction i using Nat.strong_induction_on with
    | _ i ih =>
        intro hi
        have hbit := congrArg (BitVec.getLsbD · i) hxy
        simp only [getLsbD_mixLeft _ hi] at hbit
        have hmixed : (!decide (i < n) && x.getLsbD (i - n))
            = (!decide (i < n) && y.getLsbD (i - n)) := by
          by_cases hlow : i < n
          · simp [hlow]
          · rw [ih (i - n) (by omega) (by omega)]
        rw [hmixed] at hbit
        exact Bool.xor_left_inj.mp hbit
  exact BitVec.eq_of_getLsbD_eq fun i hi => hbits i hi

section Orbit

variable {σ : Type*} {f : σ → σ}

/-- An injective step never enters a fixed point from outside. -/
theorem iterate_ne (hf : Function.Injective f) {z x : σ} (hz : f z = z) (hx : x ≠ z) (n : ℕ) :
    f^[n] x ≠ z := by
  intro h
  refine hx (hf.iterate n ?_)
  rw [h, Function.iterate_fixed hz]

/-- On finitely many states it comes back to where it started. -/
theorem returns [Finite σ] (hf : Function.Injective f) (x : σ) : ∃ p > 0, f^[p] x = x :=
  Function.mem_periodicPts.mp (Function.Injective.mem_periodicPts hf x)

end Orbit

end Xorshift
