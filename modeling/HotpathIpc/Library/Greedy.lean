import Mathlib.Algebra.BigOperators.Group.List.Basic
import Mathlib.Algebra.GroupWithZero.Nat
import Mathlib.Data.List.Basic
import Mathlib.Tactic.Common

/-!
# Greedy consumption of a queue

A queue is a list of tagged quantities, `List (κ × ℕ)`, served from the head.  A demand `q` takes
the smaller of itself and the head's quantity, goes on with what is left of it, and stops when
it is met or the queue is empty.

* `consume q xs` — what is taken, in order: from whom, how much, and what is left of the demand.
* `residue q xs` — the queue afterwards; `exhausted q xs` — the tags that left it.
* **`map_fst_eq`** — the tags split into the exhausted ones and those of the residue.
* **`consume_append`**, **`residue_append`**, **`exhausted_append`** — serving a concatenation is
  serving its parts one after the other, which is what turns nested loops into one.
* **`sum_amount_consume`**, **`consume_conserves`** — nothing is lost or made, in total and for
  any class of tags.
* **`consume_split`** — a take cut out of the list, with the quantity that stood ahead of it.
* **`map_tag_prefix`**, **`spares`** — the entries taken from are a prefix of the queue, and the
  others make no difference.
-/

namespace Greedy

variable {κ : Type*}

/-- One take: from whom, how much, and what is left of the demand after it. -/
structure Take (κ : Type*) where
  tag : κ
  amount : ℕ
  left : ℕ

/-- The total quantity queued. -/
def supply (xs : List (κ × ℕ)) : ℕ := (xs.map Prod.snd).sum

/-- Every queued quantity is positive. -/
def Positive (xs : List (κ × ℕ)) : Prop := ∀ x ∈ xs, 0 < x.2

/-- What a demand takes from the queue, head first. -/
def consume : ℕ → List (κ × ℕ) → List (Take κ)
  | _, [] => []
  | q, (k, n) :: xs => if q = 0 then [] else ⟨k, min q n, q - n⟩ :: consume (q - n) xs

/-- What a demand leaves of the queue. -/
def residue : ℕ → List (κ × ℕ) → List (κ × ℕ)
  | _, [] => []
  | q, (k, n) :: xs => if n ≤ q then residue (q - n) xs else (k, n - q) :: xs

/-- The tags a demand takes everything from. -/
def exhausted : ℕ → List (κ × ℕ) → List κ
  | _, [] => []
  | q, (k, n) :: xs => if n ≤ q then k :: exhausted (q - n) xs else []

/-! ## Supply and positivity -/

@[simp] theorem supply_nil : supply ([] : List (κ × ℕ)) = 0 := rfl

@[simp] theorem supply_cons (x : κ × ℕ) (xs : List (κ × ℕ)) :
    supply (x :: xs) = x.2 + supply xs := by simp [supply]

@[simp] theorem supply_append (xs ys : List (κ × ℕ)) :
    supply (xs ++ ys) = supply xs + supply ys := by simp [supply]

theorem supply_perm {xs ys : List (κ × ℕ)} (h : xs.Perm ys) : supply xs = supply ys :=
  (h.map Prod.snd).sum_eq

theorem supply_filter_le (p : κ × ℕ → Bool) (xs : List (κ × ℕ)) :
    supply (xs.filter p) ≤ supply xs := by
  induction xs with
  | nil => exact Nat.le_refl _
  | cons x xs ih =>
      rw [List.filter_cons]
      split
      · rw [supply_cons, supply_cons]; omega
      · rw [supply_cons]; omega

theorem Positive.tail {x : κ × ℕ} {xs : List (κ × ℕ)} (h : Positive (x :: xs)) : Positive xs :=
  fun y hy => h y (List.mem_cons_of_mem _ hy)

theorem Positive.head {x : κ × ℕ} {xs : List (κ × ℕ)} (h : Positive (x :: xs)) : 0 < x.2 :=
  h x List.mem_cons_self

theorem Positive.left {xs ys : List (κ × ℕ)} (h : Positive (xs ++ ys)) : Positive xs :=
  fun x hx => h x (List.mem_append_left _ hx)

theorem Positive.right {xs ys : List (κ × ℕ)} (h : Positive (xs ++ ys)) : Positive ys :=
  fun x hx => h x (List.mem_append_right _ hx)

/-! ## A met demand takes nothing -/

@[simp] theorem consume_zero : ∀ xs : List (κ × ℕ), consume 0 xs = []
  | [] => rfl
  | (_, _) :: _ => by simp [consume]

theorem consume_eq_nil {q : ℕ} {xs : List (κ × ℕ)} (h : consume q xs = []) (hq : q ≠ 0) :
    xs = [] := by
  cases xs with
  | nil => rfl
  | cons x xs =>
      rw [consume, if_neg hq] at h
      exact absurd h (by simp)

theorem residue_zero : ∀ {xs : List (κ × ℕ)}, Positive xs → residue 0 xs = xs
  | [], _ => rfl
  | (k, n) :: xs, h => by
      have hn : 0 < n := h.head
      rw [residue, if_neg (by omega)]
      rfl

theorem exhausted_zero : ∀ {xs : List (κ × ℕ)}, Positive xs → exhausted 0 xs = []
  | [], _ => rfl
  | (k, n) :: xs, h => by
      have hn : 0 < n := h.head
      rw [exhausted, if_neg (by omega)]

/-! ## Serving a concatenation -/

theorem consume_append : ∀ (q : ℕ) (xs ys : List (κ × ℕ)),
    consume q (xs ++ ys) = consume q xs ++ consume (q - supply xs) ys
  | q, [], ys => by simp [consume]
  | q, (k, n) :: xs, ys => by
      simp only [List.cons_append, consume, supply_cons]
      split
      · subst q; simp
      · rw [consume_append (q - n) xs ys, List.cons_append, Nat.sub_sub]

theorem residue_append {ys : List (κ × ℕ)} (hys : Positive ys) :
    ∀ (q : ℕ) (xs : List (κ × ℕ)),
      residue q (xs ++ ys) = residue q xs ++ residue (q - supply xs) ys
  | q, [] => by simp [residue]
  | q, (k, n) :: xs => by
      simp only [List.cons_append, residue, supply_cons]
      split
      · rw [residue_append hys (q - n) xs, Nat.sub_sub]
      · rw [show q - (n + supply xs) = 0 by omega, residue_zero hys, List.cons_append]

theorem exhausted_append {ys : List (κ × ℕ)} (hys : Positive ys) :
    ∀ (q : ℕ) (xs : List (κ × ℕ)),
      exhausted q (xs ++ ys) = exhausted q xs ++ exhausted (q - supply xs) ys
  | q, [] => by simp [exhausted]
  | q, (k, n) :: xs => by
      simp only [List.cons_append, exhausted, supply_cons]
      split
      · rw [exhausted_append hys (q - n) xs, List.cons_append, Nat.sub_sub]
      · rw [show q - (n + supply xs) = 0 by omega, exhausted_zero hys, List.append_nil]

/-! ## Conservation -/

/-- The demand takes all it can: the smaller of itself and the supply. -/
theorem sum_amount_consume : ∀ (q : ℕ) (xs : List (κ × ℕ)),
    ((consume q xs).map Take.amount).sum = min q (supply xs)
  | q, [] => by simp [consume]
  | q, (k, n) :: xs => by
      simp only [consume, supply_cons]
      split
      · subst q; simp
      · rw [List.map_cons, List.sum_cons, sum_amount_consume (q - n) xs]
        dsimp only
        omega

theorem supply_residue : ∀ (q : ℕ) (xs : List (κ × ℕ)), supply (residue q xs) = supply xs - q
  | q, [] => by simp [residue]
  | q, (k, n) :: xs => by
      simp only [residue, supply_cons]
      split
      · rw [supply_residue (q - n) xs]; omega
      · rw [supply_cons]; dsimp only; omega

/-- **Nothing is lost or made**, in any class of tags: what is taken from the class and what
remains of it is what was there. -/
theorem consume_conserves (p : κ → Bool) : ∀ (q : ℕ) {xs : List (κ × ℕ)}, Positive xs →
    (((consume q xs).filter fun t => p t.tag).map Take.amount).sum
      + supply ((residue q xs).filter fun x => p x.1) = supply (xs.filter fun x => p x.1)
  | q, [], _ => by simp [consume, residue]
  | q, (k, n) :: xs, h => by
      have hn : 0 < n := h.head
      have ih := consume_conserves p (q - n) h.tail
      by_cases hq : q = 0
      · subst q
        rw [consume_zero, residue_zero h]
        simp
      · by_cases hle : n ≤ q
        · cases hp : p k <;>
            simp only [consume, residue, hq, hle, if_true, if_false, List.filter_cons, hp,
              Bool.false_eq_true, List.map_cons, List.sum_cons, supply_cons] <;> omega
        · have hz : q - n = 0 := by omega
          rw [hz, residue_zero h.tail, consume_zero] at ih
          cases hp : p k <;>
            simp only [consume, residue, hq, hle, hz, consume_zero, if_true, if_false,
              List.filter_cons, hp, Bool.false_eq_true, List.map_cons, List.sum_cons,
              supply_cons, List.filter_nil, List.map_nil, List.sum_nil] <;> omega

/-- The tags split into the exhausted ones and those still queued. -/
theorem map_fst_eq : ∀ (q : ℕ) (xs : List (κ × ℕ)),
    xs.map Prod.fst = exhausted q xs ++ (residue q xs).map Prod.fst
  | q, [] => by simp [exhausted, residue]
  | q, (k, n) :: xs => by
      simp only [exhausted, residue, List.map_cons]
      split
      · rw [map_fst_eq (q - n) xs, List.cons_append]
      · rfl

theorem Positive.residue : ∀ {q : ℕ} {xs : List (κ × ℕ)}, Positive xs → Positive (residue q xs)
  | _, [], h => h
  | q, (k, n) :: xs, h => by
      rw [Greedy.residue]
      split
      · exact Positive.residue h.tail
      · intro x hx
        rcases List.mem_cons.mp hx with rfl | hx
        · dsimp only; omega
        · exact h.tail x hx

/-- Serving one demand after another is serving their sum. -/
theorem residue_add : ∀ (q r : ℕ) {xs : List (κ × ℕ)}, Positive xs →
    residue (q + r) xs = residue r (residue q xs)
  | _, _, [], _ => rfl
  | q, r, (k, n) :: xs, h => by
      by_cases hle : n ≤ q
      · rw [residue, if_pos (by omega), residue, if_pos hle,
          show q + r - n = (q - n) + r by omega]
        exact residue_add (q - n) r h.tail
      · rw [residue.eq_2 q, if_neg hle, residue, residue]
        by_cases hr : n ≤ q + r
        · rw [if_pos hr, if_pos (by omega), show q + r - n = r - (n - q) by omega]
        · rw [if_neg hr, if_neg (by omega), Nat.sub_sub]

theorem exhausted_add : ∀ (q r : ℕ) {xs : List (κ × ℕ)}, Positive xs →
    exhausted (q + r) xs = exhausted q xs ++ exhausted r (residue q xs)
  | _, _, [], _ => rfl
  | q, r, (k, n) :: xs, h => by
      by_cases hle : n ≤ q
      · rw [exhausted, if_pos (by omega), exhausted, if_pos hle, residue, if_pos hle,
          show q + r - n = (q - n) + r by omega, exhausted_add (q - n) r h.tail]
        rfl
      · rw [exhausted.eq_2 q, if_neg hle, residue, if_neg hle, exhausted, exhausted]
        by_cases hr : n ≤ q + r
        · rw [if_pos hr, if_pos (by omega), show q + r - n = r - (n - q) by omega,
            List.nil_append]
        · rw [if_neg hr, if_neg (by omega), List.nil_append]

/-- Two demands one after the other take from each class of tags what their sum takes. -/
theorem sum_amount_add (p : κ → Bool) (q r : ℕ) {xs : List (κ × ℕ)} (h : Positive xs) :
    (((consume (q + r) xs).filter fun t => p t.tag).map Take.amount).sum
      = (((consume q xs).filter fun t => p t.tag).map Take.amount).sum
        + (((consume r (residue q xs)).filter fun t => p t.tag).map Take.amount).sum := by
  have hwhole := consume_conserves p (q + r) h
  have hfirst := consume_conserves p q h
  have hsecond := consume_conserves p r (h.residue (q := q))
  rw [residue_add q r h] at hwhole
  omega

theorem residue_eq_nil_of_le : ∀ {q : ℕ} {xs : List (κ × ℕ)}, supply xs ≤ q → residue q xs = []
  | _, [], _ => rfl
  | q, (k, n) :: xs, h => by
      rw [supply_cons] at h
      dsimp only at h
      rw [residue, if_pos (by omega)]
      exact residue_eq_nil_of_le (by omega)

/-- **Interrupting a demand** after `xs` and resuming it on what is queued then changes nothing. -/
theorem resume {q : ℕ} {xs ys : List (κ × ℕ)} (h : Positive (xs ++ ys)) :
    residue (q - supply xs) (residue q xs ++ ys) = residue q (xs ++ ys) ∧
      consume (q - supply xs) (residue q xs ++ ys) = consume (q - supply xs) ys ∧
      exhausted (q - supply xs) (residue q xs ++ ys) = exhausted (q - supply xs) ys := by
  rw [residue_append h.right q xs]
  by_cases hle : supply xs ≤ q
  · rw [residue_eq_nil_of_le hle]
    exact ⟨rfl, rfl, rfl⟩
  · have hpos : Positive (residue q xs ++ ys) := by
      intro x hx
      rcases List.mem_append.mp hx with hx | hx
      · exact h.left.residue x hx
      · exact h.right x hx
    rw [show q - supply xs = 0 by omega, residue_zero hpos, residue_zero h.right,
      exhausted_zero hpos, exhausted_zero h.right, consume_zero, consume_zero]
    exact ⟨rfl, rfl, rfl⟩

/-! ## The takes one by one -/

theorem amount_pos : ∀ {q : ℕ} {xs : List (κ × ℕ)}, Positive xs →
    ∀ t ∈ consume q xs, 0 < t.amount
  | _, [], _, _, ht => absurd ht List.not_mem_nil
  | q, (k, n) :: xs, h, t, ht => by
      have hn : 0 < n := h.head
      rw [consume] at ht
      split at ht
      · exact absurd ht List.not_mem_nil
      · rcases List.mem_cons.mp ht with rfl | ht
        · dsimp only; omega
        · exact amount_pos h.tail t ht

/-- Each take lowers the demand by exactly its amount, down to what the next one starts from. -/
def Descends : ℕ → List (Take κ) → Prop
  | _, [] => True
  | q, t :: ts => t.left + t.amount = q ∧ Descends t.left ts

theorem descends_consume : ∀ (q : ℕ) (xs : List (κ × ℕ)), Descends q (consume q xs)
  | _, [] => trivial
  | q, (k, n) :: xs => by
      rw [consume]
      split
      · trivial
      · exact ⟨by dsimp only; omega, descends_consume (q - n) xs⟩

/-- What the last take leaves of the demand is what the supply could not meet. -/
theorem getLastD_left : ∀ (q : ℕ) (xs : List (κ × ℕ)),
    ((consume q xs).map Take.left).getLastD q = q - supply xs
  | q, [] => by simp [consume]
  | q, (k, n) :: xs => by
      simp only [consume, supply_cons]
      split
      · subst q; simp
      · rw [List.map_cons, List.getLastD_cons, getLastD_left (q - n) xs, Nat.sub_sub]

/-- **A take, cut out.**  It serves the entry that the quantity `supply ys` stood ahead of; the
takes before it took exactly that much. -/
theorem consume_split {t : Take κ} : ∀ {q : ℕ} {xs : List (κ × ℕ)} {ts₁ ts₂ : List (Take κ)},
    consume q xs = ts₁ ++ t :: ts₂ →
      ∃ ys n zs, xs = ys ++ (t.tag, n) :: zs ∧ supply ys < q ∧
        ts₁.map (fun t => (t.tag, t.amount)) = ys ∧
        t.amount = min (q - supply ys) n ∧ t.left = q - supply ys - n
  | _, [], ts₁, _, h => absurd h (by simp [consume])
  | q, (k, n) :: xs, ts₁, ts₂, h => by
      rw [consume] at h
      split at h
      · exact absurd h (by simp)
      · rename_i hq
        cases ts₁ with
        | nil =>
            obtain ⟨rfl, -⟩ := List.cons.inj h
            exact ⟨[], n, xs, rfl, Nat.pos_of_ne_zero hq, rfl, rfl, rfl⟩
        | cons t₁ ts₁ =>
            obtain ⟨rfl, htail⟩ := List.cons.inj h
            obtain ⟨ys, m, zs, rfl, hlt, hts, ham, hle⟩ := consume_split htail
            refine ⟨(k, n) :: ys, m, zs, rfl, ?_, ?_, ?_, ?_⟩
            · rw [supply_cons]; dsimp only; omega
            · rw [List.map_cons, hts, Nat.min_eq_right (by omega)]
            · rw [ham, supply_cons, Nat.sub_sub]
            · rw [hle, supply_cons, Nat.sub_sub q]

/-- A demand takes from the entries in their order, without leaving one out. -/
theorem map_tag_prefix : ∀ (q : ℕ) (xs : List (κ × ℕ)),
    ((consume q xs).map Take.tag).IsPrefix (xs.map Prod.fst)
  | _, [] => List.prefix_rfl
  | q, (k, n) :: xs => by
      rw [consume]
      split
      · exact List.nil_prefix
      · exact List.cons_prefix_cons.mpr ⟨rfl, map_tag_prefix (q - n) xs⟩

/-! ## Entries a demand does not take from -/

/-- What a demand does to a queue without the entries it does not take from, if those are the ones
whose tags fail `p`. -/
structure Spares (p : κ → Bool) (q : ℕ) (xs : List (κ × ℕ)) : Prop where
  consume : consume q (xs.filter fun x => p x.1) = consume q xs
  residue : residue q (xs.filter fun x => p x.1) = (residue q xs).filter fun x => p x.1
  exhausted : exhausted q (xs.filter fun x => p x.1) = exhausted q xs
  unmet : q - supply (xs.filter fun x => p x.1) = q - supply xs
  spared : (Greedy.residue q xs).filter (fun x => !p x.1) = xs.filter fun x => !p x.1

/-- **Entries not taken from might as well not be there.** -/
theorem spares {p : κ → Bool} : ∀ {q : ℕ} {xs : List (κ × ℕ)}, Positive xs →
    (∀ t ∈ consume q xs, p t.tag = true) → Spares p q xs
  | _, [], _, _ => ⟨rfl, rfl, rfl, rfl, rfl⟩
  | q, (k, n) :: xs, hpos, h => by
      have hposf : Positive (((k, n) :: xs).filter fun x => p x.1) :=
        fun x hx => hpos x (List.mem_of_mem_filter hx)
      by_cases hq : q = 0
      · subst hq
        refine ⟨?_, ?_, ?_, ?_, ?_⟩
        · rw [consume_zero, consume_zero]
        · rw [residue_zero hposf, residue_zero hpos]
        · rw [exhausted_zero hposf, exhausted_zero hpos]
        · rw [Nat.zero_sub, Nat.zero_sub]
        · rw [residue_zero hpos]
      · -- the head is taken from, so the filter keeps it
        rw [consume, if_neg hq] at h
        have hk : p k = true := h _ List.mem_cons_self
        have ih := spares hpos.tail fun t ht => h t (List.mem_cons_of_mem _ ht)
        have hkeep : ((k, n) :: xs).filter (fun x => p x.1)
            = (k, n) :: xs.filter fun x => p x.1 := List.filter_cons_of_pos hk
        have hdrop : ∀ m, ((k, m) :: xs).filter (fun x => !p x.1)
            = xs.filter fun x => !p x.1 := fun m => List.filter_cons_of_neg (by simp [hk])
        refine ⟨?_, ?_, ?_, ?_, ?_⟩
        · rw [hkeep, consume, consume, if_neg hq, if_neg hq, ih.consume]
        · rw [hkeep, residue, residue]
          split
          · exact ih.residue
          · rw [List.filter_cons_of_pos (by exact hk)]
        · rw [hkeep, exhausted, exhausted]
          split
          · rw [ih.exhausted]
          · rfl
        · have hu := ih.unmet
          rw [hkeep, supply_cons, supply_cons]
          dsimp only
          omega
        · rw [hdrop, residue]
          split
          · exact ih.spared
          · exact hdrop _

/-! ## Where a demand stops -/

/-- The demand stops partway through an entry whose tag satisfies `p`. -/
def stopsWithin (p : κ → Bool) : ℕ → List (κ × ℕ) → Bool
  | _, [] => false
  | q, (k, n) :: xs => if q < n then decide (0 < q) && p k else stopsWithin p (q - n) xs

theorem stopsWithin_iff (p : κ → Bool) : ∀ (q : ℕ) (xs : List (κ × ℕ)),
    stopsWithin p q xs = true ↔ ∃ ys k n zs, xs = ys ++ (k, n) :: zs ∧ p k = true ∧
      supply ys < q ∧ q < supply ys + n
  | _, [] => by simp [stopsWithin]
  | q, (k, n) :: xs => by
      rw [stopsWithin]
      constructor
      · intro h
        split at h
        · rw [Bool.and_eq_true, decide_eq_true_eq] at h
          exact ⟨[], k, n, xs, rfl, h.2, h.1, by simpa using ‹q < n›⟩
        · obtain ⟨ys, j, m, zs, rfl, hp, hlt, hgt⟩ := (stopsWithin_iff p _ xs).mp h
          refine ⟨(k, n) :: ys, j, m, zs, rfl, hp, ?_, ?_⟩ <;> rw [supply_cons] <;> dsimp only <;>
            omega
      · rintro ⟨ys, j, m, zs, hxs, hp, hlt, hgt⟩
        cases ys with
        | nil =>
            obtain ⟨hhead, -⟩ := List.cons.inj hxs
            obtain ⟨rfl, rfl⟩ := Prod.mk.inj hhead
            rw [supply_nil] at hlt hgt
            rw [if_pos (by omega), hp, decide_eq_true hlt]
            rfl
        | cons y ys =>
            obtain ⟨rfl, rfl⟩ := List.cons.inj hxs
            rw [supply_cons] at hlt hgt
            dsimp only at hlt hgt
            rw [if_neg (by omega)]
            exact (stopsWithin_iff p _ _).mpr ⟨ys, j, m, zs, rfl, hp, by omega, by omega⟩

end Greedy
