import Mathlib.Data.List.TakeDrop
import Mathlib.Tactic.Common

/-!
# Reading a list through a cursor

A cursor is an index that may run past the end of the list.  `scan p xs i` moves it from `i` over
the elements that pass `p`.

* `scan_induct` — the rule of such a loop: it stops, or it takes one more step.
* `scan_scan` — where it ends.
* `scan_append` — over a stretch that is known; **`scan_take`** — in a list that is cut off, where
  a scan that stops before the cut sees nothing of it.
-/

namespace Scan

variable {α : Type*} {p : α → Bool} {xs : List α}

/-- The first index from `i` on whose element fails `p`, or the end. -/
def scan (p : α → Bool) (xs : List α) (i : ℕ) : ℕ := i + ((xs.drop i).takeWhile p).length

theorem lt_length {i : ℕ} {x : α} (h : xs[i]? = some x) : i < xs.length :=
  (List.getElem?_eq_some_iff.mp h).1

theorem drop_of_getElem? {i : ℕ} {x : α} (h : xs[i]? = some x) :
    xs.drop i = x :: xs.drop (i + 1) := by
  obtain ⟨hlt, rfl⟩ := List.getElem?_eq_some_iff.mp h
  exact List.drop_eq_getElem_cons hlt

theorem drop_add_of_append {i : ℕ} {u rest : List α} (h : xs.drop i = u ++ rest) :
    xs.drop (i + u.length) = rest := by
  rw [← List.drop_drop, h, List.drop_left]

/-! ## The loop -/

theorem scan_stop {i : ℕ} (h : ∀ x, xs[i]? = some x → p x = false) : scan p xs i = i := by
  cases hx : xs[i]? with
  | none =>
      rw [scan, List.drop_eq_nil_of_le (List.getElem?_eq_none_iff.mp hx)]
      rfl
  | some x =>
      have hfails : ¬ p x = true := by simp [h x hx]
      rw [scan, drop_of_getElem? hx, List.takeWhile_cons_of_neg hfails]
      rfl

theorem scan_step {i : ℕ} {x : α} (hx : xs[i]? = some x) (hp : p x = true) :
    scan p xs i = scan p xs (i + 1) := by
  rw [scan, scan, drop_of_getElem? hx, List.takeWhile_cons_of_pos hp, List.length_cons]
  omega

/-- What holds where the scan stops, and carries over one step back, holds where it starts. -/
theorem scan_induct (p : α → Bool) (xs : List α) {motive : ℕ → Prop}
    (stop : ∀ i, (∀ x, xs[i]? = some x → p x = false) → motive i)
    (step : ∀ i x, xs[i]? = some x → p x = true → motive (i + 1) → motive i) (i : ℕ) :
    motive i := by
  by_cases hstop : ∀ x, xs[i]? = some x → p x = false
  · exact stop i hstop
  · obtain ⟨x, hx, hp⟩ : ∃ x, xs[i]? = some x ∧ p x = true := by
      by_contra hno
      refine hstop fun x hx => ?_
      by_contra hp
      exact hno ⟨x, hx, by simpa using hp⟩
    have hlt := lt_length hx
    exact step i x hx hp (scan_induct p xs stop step (i + 1))
termination_by xs.length - i

/-! ## Where it ends -/

theorem scan_stops (i : ℕ) : ∀ x, xs[scan p xs i]? = some x → p x = false := by
  induction i using scan_induct p xs with
  | stop i hstop => rwa [scan_stop hstop]
  | step i x hx hp ih => rwa [scan_step hx hp]

theorem scan_scan (i : ℕ) : scan p xs (scan p xs i) = scan p xs i := scan_stop (scan_stops i)

/-! ## Over a list that is known in part -/

theorem scan_append {i : ℕ} {u rest : List α} (h : xs.drop i = u ++ rest)
    (hu : ∀ x ∈ u, p x = true) (hrest : ∀ x, rest.head? = some x → p x = false) :
    scan p xs i = i + u.length := by
  have hnone : rest.takeWhile p = [] := by
    cases rest with
    | nil => rfl
    | cons x rest => exact List.takeWhile_cons_of_neg (by simp [hrest x rfl])
  rw [scan, h, List.takeWhile_append_of_pos hu, hnone, List.append_nil]

theorem getElem?_of_take {n i : ℕ} {x : α} (h : (xs.take n)[i]? = some x) :
    i < n ∧ xs[i]? = some x := by
  rw [List.getElem?_take] at h
  split at h
  · exact ⟨‹_›, h⟩
  · cases h

/-- A scan that stops before the cut stops there without it. -/
theorem scan_take {n : ℕ} (i : ℕ) (h : scan p (xs.take n) i < n) :
    scan p xs i = scan p (xs.take n) i := by
  induction i using scan_induct p (xs.take n) with
  | stop i hstop =>
      rw [scan_stop hstop] at h ⊢
      refine scan_stop fun x hx => hstop x ?_
      rwa [List.getElem?_take, if_pos h]
  | step i x hx hp ih =>
      rw [scan_step hx hp] at h ⊢
      rw [scan_step (getElem?_of_take hx).2 hp]
      exact ih h

end Scan
