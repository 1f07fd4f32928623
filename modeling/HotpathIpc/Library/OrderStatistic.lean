import Mathlib.Data.List.Sort

/-!
# Order statistics

The entry at a place of a sorted list, said without sorting: by how many entries lie below it and
how many do not lie above it.

* `IsRank l i v` — `v` is the entry at place `i` once `l` is sorted, counted from 0.
* **`isRank_sorted`** — sorting finds it; `IsRank.mono` — later places have larger ones, so no other
  value is it.
-/

namespace OrderStatistic

variable {α : Type*} [LinearOrder α] {l l' : List α} {i j : ℕ} {v w : α}

/-- At most `i` entries are below `v`, and more than `i` are not above it. -/
def IsRank (l : List α) (i : ℕ) (v : α) : Prop :=
  l.countP (fun x => decide (x < v)) ≤ i ∧ i < l.countP fun x => decide (x ≤ v)

instance (l : List α) (i : ℕ) (v : α) : Decidable (IsRank l i v) :=
  inferInstanceAs (Decidable (_ ∧ _))

theorem IsRank.perm (h : IsRank l i v) (hp : l.Perm l') : IsRank l' i v := by
  rw [IsRank, ← hp.countP_eq, ← hp.countP_eq]
  exact h

/-- Of two places, the later has the larger entry. -/
theorem IsRank.mono (hv : IsRank l i v) (hw : IsRank l j w) (hij : i ≤ j) : v ≤ w := by
  by_contra hlt
  have hcount : l.countP (fun x => decide (x ≤ w)) ≤ l.countP fun x => decide (x < v) :=
    List.countP_mono_left fun x _ hx => by
      simp only [decide_eq_true_eq] at hx ⊢
      exact lt_of_le_of_lt hx (lt_of_not_ge hlt)
  have hi := hv.1
  have hj := hw.2
  omega

/-- It is one of the entries. -/
theorem IsRank.mem (h : IsRank l i v) : v ∈ l := by
  by_contra hno
  have hcount : l.countP (fun x => decide (x ≤ v)) = l.countP fun x => decide (x < v) :=
    List.countP_congr fun x hx => by
      have hne : x ≠ v := fun heq => hno (heq ▸ hx)
      simp only [decide_eq_true_eq]
      exact ⟨fun hle => lt_of_le_of_ne hle hne, le_of_lt⟩
  have h1 := h.1
  have h2 := h.2
  omega

theorem isRank_of_pairwise (hs : l.Pairwise (· ≤ ·)) (hv : l[i]? = some v) : IsRank l i v := by
  obtain ⟨hi, rfl⟩ := List.getElem?_eq_some_iff.mp hv
  have hle : ∀ a b, (ha : a < l.length) → (hb : b < l.length) → a ≤ b → l[a] ≤ l[b] := by
    intro a b ha hb hab
    rcases Nat.lt_or_eq_of_le hab with hlt | rfl
    · exact List.pairwise_iff_getElem.mp hs a b ha hb hlt
    · exact le_refl _
  constructor
  · -- nothing from place `i` on is below
    have hsplit : l.countP (fun x => decide (x < l[i]))
        = (l.take i).countP (fun x => decide (x < l[i]))
          + (l.drop i).countP fun x => decide (x < l[i]) := by
      rw [← List.countP_append, List.take_append_drop]
    have hrest : (l.drop i).countP (fun x => decide (x < l[i])) = 0 := by
      refine List.countP_eq_zero.mpr fun x hx => ?_
      obtain ⟨k, hk, rfl⟩ := List.mem_iff_getElem.mp hx
      rw [List.length_drop] at hk
      rw [decide_eq_true_eq, not_lt, List.getElem_drop]
      exact hle i (i + k) hi (by omega) (Nat.le_add_right _ _)
    have hfirst : (l.take i).countP (fun x => decide (x < l[i])) ≤ (l.take i).length :=
      List.countP_le_length
    rw [List.length_take] at hfirst
    omega
  · -- and nothing up to place `i` is above
    have hsub : (l.take (i + 1)).countP (fun x => decide (x ≤ l[i])) = (l.take (i + 1)).length := by
      refine List.countP_eq_length.mpr fun x hx => ?_
      obtain ⟨k, hk, rfl⟩ := List.mem_iff_getElem.mp hx
      rw [List.length_take] at hk
      rw [decide_eq_true_eq, List.getElem_take]
      exact hle k i (by omega) hi (by omega)
    have hcount := (List.take_sublist (i + 1) l).countP_le (p := fun x => decide (x ≤ l[i]))
    rw [hsub, List.length_take] at hcount
    omega

/-- **Sorting finds the entry at every place.** -/
theorem isRank_sorted (h : i < l.length) :
    ∃ v, (l.insertionSort (· ≤ ·))[i]? = some v ∧ IsRank l i v := by
  have hp := List.perm_insertionSort (· ≤ ·) l
  have hi : i < (l.insertionSort (· ≤ ·)).length := by rwa [List.length_insertionSort]
  refine ⟨_, List.getElem?_eq_getElem hi, ?_⟩
  exact (isRank_of_pairwise (List.pairwise_insertionSort _ l) (List.getElem?_eq_getElem hi)).perm hp

end OrderStatistic
