import Mathlib.Data.List.Forall2

/-!
# Filters, erasures and matched lists

* `filter_middle` — a filter that keeps one stretch of a list.
* `filter_eraseP_of_imp`, `filter_eraseP_of_not` — a filter that keeps, or drops, whatever may be
  erased; **`eraseP_eq_filter`** — erasing the one entry there is.
* `map_eq_of_forall₂`, `exists_of_forall₂_left` — what two lists matched entry by entry share.
* `getElem?_filterMap_of_split`, `map_filter_isSome` — the place of an entry among those that a
  partial function picks; `split_of_not_mem` — where an entry can stand in a list of two parts.
-/

namespace Lists

/-! ## Filtering and erasing -/

section Filter

variable {α : Type*} {p a : α → Bool}

/-- A filter that keeps the middle of a list. -/
theorem filter_middle {xs ms ys : List α}
    (hxs : ∀ x ∈ xs, p x = false) (hms : ∀ x ∈ ms, p x = true) (hys : ∀ x ∈ ys, p x = false) :
    (xs ++ (ms ++ ys)).filter p = ms := by
  have hleft : xs.filter p = [] := List.filter_eq_nil_iff.mpr fun x hx => by simp [hxs x hx]
  have hright : ys.filter p = [] := List.filter_eq_nil_iff.mpr fun x hx => by simp [hys x hx]
  rw [List.filter_append, List.filter_append, hleft, hright, List.filter_eq_self.mpr hms,
    List.nil_append, List.append_nil]

theorem filter_eraseP_of_imp : ∀ {l : List α}, (∀ x ∈ l, a x = true → p x = true) →
    (l.eraseP a).filter p = (l.filter p).eraseP a
  | [], _ => rfl
  | x :: l, h => by
      have ih := filter_eraseP_of_imp fun y hy => h y (List.mem_cons_of_mem _ hy)
      by_cases hx : a x = true
      · rw [List.eraseP_cons_of_pos hx, List.filter_cons_of_pos (h x List.mem_cons_self hx),
          List.eraseP_cons_of_pos hx]
      · rw [List.eraseP_cons_of_neg hx, List.filter_cons, List.filter_cons, ih]
        split
        · rw [List.eraseP_cons_of_neg hx]
        · rfl

theorem filter_eraseP_of_not : ∀ {l : List α}, (∀ x ∈ l, a x = true → p x = false) →
    (l.eraseP a).filter p = l.filter p
  | [], _ => rfl
  | x :: l, h => by
      have ih := filter_eraseP_of_not fun y hy => h y (List.mem_cons_of_mem _ hy)
      by_cases hx : a x = true
      · rw [List.eraseP_cons_of_pos hx,
          List.filter_cons_of_neg (by simp [h x List.mem_cons_self hx])]
      · rw [List.eraseP_cons_of_neg hx, List.filter_cons, List.filter_cons, ih]

/-- Erasing the one entry there is. -/
theorem eraseP_eq_filter {m : α} : ∀ {l : List α}, l.filter a = [m] →
    l.eraseP a = l.filter fun x => !a x
  | [], h => absurd h (by simp)
  | x :: l, h => by
      by_cases hx : a x = true
      · rw [List.filter_cons_of_pos hx] at h
        have hnone := List.filter_eq_nil_iff.mp (List.cons.inj h).2
        rw [List.eraseP_cons_of_pos hx, List.filter_cons_of_neg (by simp [hx]), eq_comm,
          List.filter_eq_self]
        intro y hy
        simpa using hnone y hy
      · rw [List.filter_cons_of_neg hx] at h
        rw [List.eraseP_cons_of_neg hx, List.filter_cons_of_pos (by simp [hx]),
          eraseP_eq_filter h]

end Filter

/-! ## Matched lists -/

section Matched

variable {α β γ : Type*} {xs : List α} {ys : List β}

theorem map_eq_of_forall₂ {f : α → γ} {g : β → γ}
    (h : List.Forall₂ (fun x y => f x = g y) xs ys) : xs.map f = ys.map g := by
  rwa [← List.forall₂_eq_eq_eq, List.forall₂_map_left_iff, List.forall₂_map_right_iff]

theorem exists_of_forall₂_left {R : α → β → Prop} (h : List.Forall₂ R xs ys) {x : α}
    (hx : x ∈ xs) : ∃ y ∈ ys, R x y := by
  induction h with
  | nil => exact absurd hx List.not_mem_nil
  | cons hxy _ ih =>
      rcases List.mem_cons.mp hx with rfl | hx
      · exact ⟨_, List.mem_cons_self, hxy⟩
      · obtain ⟨y, hy, hR⟩ := ih hx
        exact ⟨y, List.mem_cons_of_mem _ hy, hR⟩

end Matched

/-! ## Picking entries -/

section Pick

variable {α β γ : Type*} {f : α → Option β} {g : α → Option γ}

/-- Two functions that pick the same entries number them alike: what one makes of an entry stands
behind as many results as the other has before it. -/
theorem getElem?_filterMap_of_split (hfg : ∀ x, (f x).isSome = (g x).isSome) {pre post : List α}
    {x : α} {y : γ} (hx : g x = some y) :
    ((pre ++ x :: post).filterMap g)[(pre.filterMap f).length]? = some y := by
  have hlen : (pre.filterMap f).length = (pre.filterMap g).length := by
    rw [List.length_filterMap_eq_countP, List.length_filterMap_eq_countP]
    exact congrArg (List.countP · pre) (funext hfg)
  rw [hlen, List.filterMap_append, List.filterMap_cons_some hx,
    List.getElem?_append_right (Nat.le_refl _), Nat.sub_self]
  rfl

theorem map_filter_isSome (f : α → Option β) : ∀ l : List α,
    (l.filter fun x => (f x).isSome).map f = (l.filterMap f).map some
  | [] => rfl
  | x :: l => by
      have ih := map_filter_isSome f l
      cases hx : f x with
      | none => rw [List.filter_cons_of_neg (by simp [hx]), List.filterMap_cons_none hx, ih]
      | some y =>
          rw [List.filter_cons_of_pos (by simp [hx]), List.filterMap_cons_some hx, List.map_cons,
            List.map_cons, hx, ih]

/-- An entry that is not in the first part stands at the start of the second, or behind it. -/
theorem split_of_not_mem {xs ys pre post : List α} {x y : α}
    (h : xs ++ y :: ys = pre ++ x :: post) (hx : x ∉ xs) :
    (pre = xs ∧ x = y) ∨ ∃ mid, pre = xs ++ y :: mid ∧ ys = mid ++ x :: post := by
  rcases List.append_eq_append_iff.mp h with ⟨mid, hpre, hrest⟩ | ⟨mid, hxs, hrest⟩
  · cases mid with
    | nil => exact Or.inl ⟨hpre.trans (List.append_nil xs), (List.cons.inj hrest).1.symm⟩
    | cons z mid =>
        obtain ⟨rfl, hys⟩ := List.cons.inj hrest
        exact Or.inr ⟨mid, hpre, hys⟩
  · cases mid with
    | nil => exact Or.inl ⟨(hxs.trans (List.append_nil pre)).symm, (List.cons.inj hrest).1⟩
    | cons z mid =>
        obtain ⟨rfl, -⟩ := List.cons.inj hrest
        rw [hxs] at hx
        exact absurd (List.mem_append_right _ List.mem_cons_self) hx

end Pick

end Lists
