import HotpathIpc.Library.Greedy
import Mathlib.Order.Lattice

/-!
# Priority served from a flat list

The naive way to serve a demand by priority: keep everything in one list in arrival order and,
time after time, search it for the entry of the lowest rank, the earliest one among equals.

* `pick` — that search; `settle` — write back what is left of the entry, or remove it.
* `sweep` — pick among the eligible entries until the demand is met or none is left.
* `Arranged rank xs bag` — `xs` is `bag` sorted by rank with ties in arrival order; there is only
  one such list (`Arranged.eq_of_sorted`).
* **`sweep_arranged`** — sweeping a bag takes exactly what `Greedy.consume` takes from the head
  of the arranged list, and leaves a bag that `Greedy.residue` arranges.
-/

namespace Priority

open Greedy (Take Positive consume residue)

variable {κ ρ : Type*}

section Naive

variable [LT ρ] [DecidableLT ρ] [DecidableEq κ] (rank : κ → ρ)

/-- The entry of the lowest rank, the earliest one among equals. -/
def pick : List (κ × ℕ) → Option (κ × ℕ)
  | [] => none
  | x :: bag =>
      match pick bag with
      | none => some x
      | some y => if rank y.1 < rank x.1 then some y else some x

/-- Leave `left` of the first entry tagged `k`, or remove it when that is nothing. -/
def settle (k : κ) (left : ℕ) : List (κ × ℕ) → List (κ × ℕ)
  | [] => []
  | x :: bag =>
      if x.1 = k then if left = 0 then bag else (k, left) :: bag
      else x :: settle k left bag

/-- What a sweep leaves: the takes in order, the unmet demand and the bag. -/
structure Swept (κ : Type*) where
  takes : List (Take κ)
  unmet : ℕ
  bag : List (κ × ℕ)

/-- Serve a demand by picking among the eligible entries, at most `fuel` times. -/
def sweep (eligible : κ → Bool) : ℕ → ℕ → List (κ × ℕ) → Swept κ
  | 0, q, bag => ⟨[], q, bag⟩
  | fuel + 1, q, bag =>
      if q = 0 then ⟨[], q, bag⟩
      else match pick rank (bag.filter fun x => eligible x.1) with
        | none => ⟨[], q, bag⟩
        | some (k, n) =>
            let rest := sweep eligible fuel (q - n) (settle k (n - q) bag)
            { rest with takes := ⟨k, min q n, q - n⟩ :: rest.takes }

end Naive

variable [LinearOrder ρ] {rank : κ → ρ}

/-- `xs` lists the bag by rank, and the entries of one rank as the bag does. -/
structure Arranged (rank : κ → ρ) (xs bag : List (κ × ℕ)) : Prop where
  sorted : xs.Pairwise fun x y => rank x.1 ≤ rank y.1
  stable : ∀ r, xs.filter (fun x => rank x.1 = r) = bag.filter fun x => rank x.1 = r

variable {xs bag : List (κ × ℕ)} {x : κ × ℕ}

theorem Arranged.mem_iff (h : Arranged rank xs bag) : x ∈ xs ↔ x ∈ bag := by
  have hx : ∀ ys : List (κ × ℕ), x ∈ ys ↔ x ∈ ys.filter fun y => rank y.1 = rank x.1 := by
    intro ys
    simp [List.mem_filter]
  rw [hx xs, hx bag, h.stable]

/-- Arranging moves entries about, and no more. -/
theorem Arranged.perm [DecidableEq κ] (h : Arranged rank xs bag) : xs.Perm bag := by
  rw [List.perm_iff_count]
  intro x
  have hx : ∀ ys : List (κ × ℕ),
      (ys.filter fun y => rank y.1 = rank x.1).count x = ys.count x :=
    fun ys => List.count_filter (by simp)
  rw [← hx xs, ← hx bag, h.stable]

/-- A sorted list is its own only arrangement. -/
theorem Arranged.eq_of_sorted : ∀ {xs ys : List (κ × ℕ)}, Arranged rank xs ys →
    ys.Pairwise (fun x y => rank x.1 ≤ rank y.1) → xs = ys
  | [], ys, h, _ => by
      refine (List.eq_nil_iff_forall_not_mem.mpr fun y hy => ?_).symm
      exact absurd (h.mem_iff.mpr hy) List.not_mem_nil
  | x :: xs, [], h, _ => absurd (h.mem_iff.mp List.mem_cons_self) List.not_mem_nil
  | x :: xs, y :: ys, h, hys => by
      obtain ⟨hx, hxs⟩ := List.pairwise_cons.mp h.sorted
      obtain ⟨hy, htail⟩ := List.pairwise_cons.mp hys
      -- each head has the lowest rank, so they are the heads of one class
      have hle : ∀ {z : κ × ℕ} {zs : List (κ × ℕ)}, (∀ w ∈ zs, rank z.1 ≤ rank w.1) →
          ∀ w ∈ z :: zs, rank z.1 ≤ rank w.1 := by
        intro z zs hz w hw
        rcases List.mem_cons.mp hw with rfl | hw
        · exact le_rfl
        · exact hz w hw
      have hrank : rank x.1 = rank y.1 :=
        le_antisymm (hle hx y (h.mem_iff.mpr List.mem_cons_self))
          (hle hy x (h.mem_iff.mp List.mem_cons_self))
      have hclass := h.stable (rank x.1)
      rw [List.filter_cons_of_pos (by simp), List.filter_cons_of_pos (by simp [hrank])] at hclass
      obtain ⟨rfl, -⟩ := List.cons.inj hclass
      refine congrArg _ (Arranged.eq_of_sorted ⟨hxs, fun r => ?_⟩ htail)
      have hr := h.stable r
      rw [List.filter_cons, List.filter_cons] at hr
      split at hr
      · exact (List.cons.inj hr).2
      · exact hr

/-! ## Picking finds the head -/

theorem mem_of_pick : ∀ {bag : List (κ × ℕ)} {x : κ × ℕ}, pick rank bag = some x → x ∈ bag
  | [], _, h => absurd h (by simp [pick])
  | y :: bag, x, h => by
      rw [pick] at h
      cases hp : pick rank bag with
      | none =>
          rw [hp] at h
          rw [Option.some.inj h]
          exact List.mem_cons_self
      | some z =>
          rw [hp] at h
          dsimp only at h
          split at h
          · exact List.mem_cons_of_mem _ (Option.some.inj h ▸ mem_of_pick hp)
          · rw [Option.some.inj h]
            exact List.mem_cons_self

/-- The first entry of the bag with the lowest rank is the pick. -/
theorem pick_eq (hmin : ∀ y ∈ bag, rank x.1 ≤ rank y.1)
    (hfirst : (bag.filter fun y => rank y.1 = rank x.1).head? = some x) :
    pick rank bag = some x := by
  induction bag with
  | nil => exact absurd hfirst (by simp)
  | cons y bag ih =>
      have htail : ∀ z ∈ bag, rank x.1 ≤ rank z.1 := fun z hz => hmin z (List.mem_cons_of_mem _ hz)
      by_cases hy : rank y.1 = rank x.1
      · -- the head has the lowest rank, so it is `x`, and nothing behind it is better
        rw [List.filter_cons_of_pos (by simpa using hy), List.head?_cons] at hfirst
        obtain rfl := Option.some.inj hfirst
        rw [pick]
        cases hp : pick rank bag with
        | none => rfl
        | some z =>
            have hz : z ∈ bag := mem_of_pick hp
            exact if_neg (not_lt.mpr (htail z hz))
      · rw [List.filter_cons_of_neg (by simpa using hy)] at hfirst
        have hlt : rank x.1 < rank y.1 :=
          lt_of_le_of_ne (hmin y List.mem_cons_self) (Ne.symm hy)
        rw [pick, ih htail hfirst]
        exact if_pos hlt

theorem pick_nil_of_arranged (h : Arranged rank [] bag) : bag = [] := by
  refine List.eq_nil_iff_forall_not_mem.mpr fun x hx => ?_
  exact absurd (h.mem_iff.mpr hx) List.not_mem_nil

theorem pick_of_arranged (h : Arranged rank (x :: xs) bag) : pick rank bag = some x := by
  refine pick_eq (fun y hy => ?_) ?_
  · rcases List.mem_cons.mp (h.mem_iff.mpr hy) with rfl | hy
    · exact le_rfl
    · exact (List.pairwise_cons.mp h.sorted).1 y hy
  · rw [← h.stable, List.filter_cons_of_pos (by simp), List.head?_cons]

/-! ## Settling replaces the head -/

section Settle

variable [DecidableEq κ] {k : κ} {left : ℕ}

/-- A filter that keeps the settled tag settles the filtered list. -/
theorem filter_settle_of_pos {p : κ → Bool} (hk : p k = true) :
    ∀ bag : List (κ × ℕ), (settle k left bag).filter (fun x => p x.1)
      = settle k left (bag.filter fun x => p x.1)
  | [] => rfl
  | (j, n) :: bag => by
      by_cases hj : j = k
      · subst hj
        rw [settle, if_pos rfl, List.filter_cons_of_pos (by exact hk), settle, if_pos rfl]
        split
        · rfl
        · rw [List.filter_cons_of_pos (by exact hk)]
      · have ih := filter_settle_of_pos hk bag
        rw [settle, if_neg hj, List.filter_cons, List.filter_cons, ih]
        split
        · rw [settle, if_neg hj]
        · rfl

/-- A filter that drops the settled tag sees no difference. -/
theorem filter_settle_of_neg {p : κ → Bool} (hk : p k = false) :
    ∀ bag : List (κ × ℕ),
      (settle k left bag).filter (fun x => p x.1) = bag.filter fun x => p x.1
  | [] => rfl
  | (j, n) :: bag => by
      by_cases hj : j = k
      · subst hj
        have hdrop : ∀ m, ((j, m) :: bag).filter (fun x => p x.1) = bag.filter fun x => p x.1 :=
          fun m => List.filter_cons_of_neg (by simp [hk])
        rw [settle, if_pos rfl, hdrop]
        split
        · rfl
        · rw [hdrop]
      · have ih := filter_settle_of_neg hk bag
        rw [settle, if_neg hj, List.filter_cons, List.filter_cons, ih]

/-- Settling the first entry of a list that starts with it. -/
theorem settle_head (n : ℕ) (xs : List (κ × ℕ)) :
    settle k left ((k, n) :: xs) = if left = 0 then xs else (k, left) :: xs := by
  rw [settle, if_pos rfl]

theorem arranged_settle {n : ℕ} (left : ℕ) (h : Arranged rank ((k, n) :: xs) bag) :
    Arranged rank (if left = 0 then xs else (k, left) :: xs) (settle k left bag) := by
  obtain ⟨hhead, htail⟩ := List.pairwise_cons.mp h.sorted
  refine ⟨?_, fun r => ?_⟩
  · split
    · exact htail
    · exact List.pairwise_cons.mpr ⟨hhead, htail⟩
  · have hr := h.stable r
    rw [← settle_head n xs]
    by_cases hk : rank k = r
    · rw [filter_settle_of_pos (p := fun t => decide (rank t = r)) (by simpa using hk),
        filter_settle_of_pos (p := fun t => decide (rank t = r)) (by simpa using hk), hr]
    · rw [filter_settle_of_neg (p := fun t => decide (rank t = r)) (by simpa using hk),
        filter_settle_of_neg (p := fun t => decide (rank t = r)) (by simpa using hk), hr]

end Settle

/-! ## Sweeping -/

variable [DecidableEq κ] {eligible : κ → Bool}

theorem sweep_zero : ∀ (fuel : ℕ) (bag : List (κ × ℕ)),
    sweep rank eligible fuel 0 bag = ⟨[], 0, bag⟩
  | 0, _ => rfl
  | _ + 1, _ => by rw [sweep, if_pos rfl]

/-- What a sweep of `bag` must return, in terms of an arrangement `xs` of its eligible entries. -/
structure Swept.Serves (rank : κ → ρ) (eligible : κ → Bool) (q : ℕ) (xs bag : List (κ × ℕ))
    (s : Swept κ) : Prop where
  takes : s.takes = consume q xs
  unmet : s.unmet = q - Greedy.supply xs
  left : Arranged rank (residue q xs) (s.bag.filter fun x => eligible x.1)
  others : ∀ p : κ → Bool, (∀ k, eligible k = true → p k = false) →
    s.bag.filter (fun x => p x.1) = bag.filter fun x => p x.1

/-- **A sweep serves the bag in priority order.** -/
theorem sweep_arranged : ∀ {fuel q : ℕ} {xs bag : List (κ × ℕ)}, xs.length < fuel →
    Positive xs → Arranged rank xs (bag.filter fun x => eligible x.1) →
      (sweep rank eligible fuel q bag).Serves rank eligible q xs bag
  | 0, _, _, _, hfuel, _, _ => absurd hfuel (Nat.not_lt_zero _)
  | fuel + 1, q, xs, bag, hfuel, hpos, h => by
      rw [sweep]
      by_cases hq : q = 0
      · subst hq
        rw [if_pos rfl]
        refine ⟨(Greedy.consume_zero xs).symm, (Nat.zero_sub _).symm, ?_, fun _ _ => rfl⟩
        rw [Greedy.residue_zero hpos]
        exact h
      · rw [if_neg hq]
        cases xs with
        | nil =>
            rw [pick_nil_of_arranged h]
            refine ⟨rfl, rfl, ?_, fun _ _ => rfl⟩
            exact h
        | cons x xs =>
            obtain ⟨k, n⟩ := x
            have hn : 0 < n := hpos.head
            have hk : eligible k = true := by
              have hmem := h.mem_iff.mp List.mem_cons_self
              exact (List.mem_filter.mp hmem).2
            have hnext := arranged_settle (n - q) h
            rw [← filter_settle_of_pos hk] at hnext
            rw [List.length_cons] at hfuel
            rw [pick_of_arranged h]
            dsimp only
            by_cases hle : n ≤ q
            · -- the pick is exhausted, and the sweep goes on with the rest
              rw [if_pos (by omega)] at hnext
              have ih := sweep_arranged (q := q - n) (Nat.lt_of_succ_lt_succ hfuel) hpos.tail hnext
              refine ⟨?_, ?_, ?_, fun p hp => ?_⟩
              · rw [ih.takes, consume, if_neg hq]
              · rw [ih.unmet, Greedy.supply_cons, Nat.sub_sub]
              · rw [residue, if_pos hle]
                exact ih.left
              · rw [ih.others p hp, filter_settle_of_neg (hp k hk)]
            · -- the demand is met, and the pick keeps the difference
              rw [if_neg (by omega)] at hnext
              have hpos' : Positive ((k, n - q) :: xs) := by
                intro y hy
                rcases List.mem_cons.mp hy with rfl | hy
                · dsimp only; omega
                · exact hpos.tail y hy
              have hz : q - n = 0 := by omega
              rw [hz, sweep_zero]
              refine ⟨?_, ?_, ?_, fun p hp => ?_⟩
              · rw [consume, if_neg hq, hz, Greedy.consume_zero]
              · rw [Greedy.supply_cons]
                dsimp only
                omega
              · rw [residue, if_neg hle]
                exact hnext
              · exact filter_settle_of_neg (hp k hk) bag

end Priority
