import Mathlib.Data.Nat.ModEq

/-!
# Ring buffers

A ring of `n` cells into which values are pushed one after the other, each at the cell after the
last one.  Histories are lists with the newest value first.

* `fill` — the cells after a history.
* **`getElem?_fill`** — a value pushed fewer than `n` pushes ago is still there;
  **`oldest_fill`** — the cell that the next push overwrites holds the oldest of the last `n`.
-/

namespace Ring

variable {α : Type*}

/-- The cells after `hist` was pushed into `n` copies of `z`. -/
def fill (n : ℕ) (z : α) : List α → List α
  | [] => List.replicate n z
  | x :: hist => (fill n z hist).set (hist.length % n) x

@[simp] theorem length_fill (n : ℕ) (z : α) : ∀ hist, (fill n z hist).length = n
  | [] => List.length_replicate
  | x :: hist => by rw [fill, List.length_set, length_fill n z hist]

/-- Two numbers less than `n` apart have different remainders. -/
theorem mod_ne {a b n : ℕ} (h : a < b) (hn : b < a + n) : a % n ≠ b % n := by
  intro heq
  have hdvd : n ∣ b - a := (Nat.modEq_iff_dvd' h.le).mp heq
  have hle := Nat.le_of_dvd (by omega) hdvd
  omega

/-- **The ring remembers** the last `n` values. -/
theorem getElem?_fill {n : ℕ} (z : α) : ∀ {hist : List α} {k : ℕ}, k < hist.length → k < n →
    (fill n z hist)[(hist.length - 1 - k) % n]? = hist[k]?
  | [], _, h, _ => absurd h (Nat.not_lt_zero _)
  | x :: hist, 0, _, hn => by
      have hlt : hist.length % n < (fill n z hist).length := by
        rw [length_fill]
        exact Nat.mod_lt _ hn
      exact List.getElem?_set_self hlt
  | x :: hist, k + 1, h, hn => by
      have hk : k < hist.length := Nat.lt_of_succ_lt_succ h
      have hne : (hist.length - 1 - k) % n ≠ hist.length % n := mod_ne (by omega) (by omega)
      have hidx : (x :: hist).length - 1 - (k + 1) = hist.length - 1 - k := by
        rw [List.length_cons]
        omega
      rw [hidx, fill, List.getElem?_set_ne hne.symm, List.getElem?_cons_succ]
      exact getElem?_fill z hk (Nat.lt_of_succ_lt hn)

/-- **The oldest value** is in the cell that is overwritten next. -/
theorem oldest_fill {n : ℕ} (z : α) {hist : List α} (hn : 0 < n) (h : n ≤ hist.length) :
    (fill n z hist)[hist.length % n]? = hist[n - 1]? := by
  have hidx : (hist.length - 1 - (n - 1)) % n = hist.length % n := by
    rw [show hist.length - 1 - (n - 1) = hist.length - n by omega]
    exact (Nat.mod_eq_sub_mod h).symm
  rw [← hidx]
  exact getElem?_fill z (by omega) (by omega)

end Ring
