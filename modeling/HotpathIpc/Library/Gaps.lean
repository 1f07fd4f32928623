import Mathlib.Data.List.Nodup
import Mathlib.Data.List.Range
import Mathlib.Tactic.Common

/-!
# Gaps in a numbered stream

A sender numbers its messages one after the other.  Some get lost and the others arrive in order, so
a receiver that adds up the gaps between the numbers it sees counts losses without being told of
one.

* `gaps` — what the receiver adds up; `gaps_concat` — one more number.
* `Within` — lying between two numbers of a list.
* **`gaps_eq_lost`** — the gaps are the messages lost between the first and the last one that the
  receiver looks at, if it starts looking late as well.
-/

namespace Gaps

/-- What is missing between each number and the next. -/
def gaps : List ℕ → ℕ
  | a :: b :: rest => (b - (a + 1)) + gaps (b :: rest)
  | _ => 0

/-- Between two numbers of the list. -/
def Within (l : List ℕ) (i : ℕ) : Prop := (∃ a ∈ l, a < i) ∧ ∃ b ∈ l, i < b

instance (l : List ℕ) (i : ℕ) : Decidable (Within l i) := inferInstanceAs (Decidable (_ ∧ _))

theorem gaps_concat {a b : ℕ} : ∀ {l : List ℕ}, l.getLast? = some a →
    gaps (l ++ [b]) = gaps l + (b - (a + 1))
  | [], h => absurd h (by simp)
  | [_], h => by
      obtain rfl := Option.some.inj h
      simp [gaps]
  | _ :: y :: l, h => by
      rw [List.getLast?_cons_cons] at h
      have ih := gaps_concat (b := b) (l := y :: l) h
      rw [List.cons_append] at ih
      rw [List.cons_append, List.cons_append, gaps, gaps, ih, Nat.add_assoc]

/-- An increasing list and its gaps fill the numbers from its first to its last. -/
theorem gaps_add_length {b : ℕ} : ∀ {a : ℕ} {l : List ℕ}, (a :: l).Pairwise (· < ·) →
    (a :: l).getLast? = some b → gaps (a :: l) + (a :: l).length = b + 1 - a ∧ a ≤ b
  | a, [], _, h => by
      obtain rfl := Option.some.inj h
      simp [gaps]
  | a, y :: l, hp, h => by
      have hlt : a < y := List.rel_of_pairwise_cons hp List.mem_cons_self
      rw [List.getLast?_cons_cons] at h
      obtain ⟨ih, hle⟩ := gaps_add_length (List.Pairwise.of_cons hp) h
      rw [gaps, List.length_cons]
      omega

/-- In a stretch of consecutive numbers, those from `a` to `b` are as many as there are. -/
theorem countP_range' {k n a b : ℕ} (ha : k ≤ a) (hab : a ≤ b) (hb : b < k + n) :
    (List.range' k n).countP (fun i => decide (a ≤ i ∧ i ≤ b)) = b + 1 - a := by
  have hsplit : List.range' k n = List.range' k (a - k)
      ++ (List.range' a (b + 1 - a) ++ List.range' (b + 1) (k + n - (b + 1))) := by
    have h1 := List.range'_append_1 (s := a) (m := b + 1 - a) (n := k + n - (b + 1))
    have h2 := List.range'_append_1 (s := k) (m := a - k) (n := b + 1 - a + (k + n - (b + 1)))
    rw [show a + (b + 1 - a) = b + 1 by omega] at h1
    rw [show k + (a - k) = a by omega,
      show a - k + (b + 1 - a + (k + n - (b + 1))) = n by omega] at h2
    rw [h1, h2]
  rw [hsplit, List.countP_append, List.countP_append, List.countP_eq_zero.mpr,
    List.countP_eq_length.mpr, List.countP_eq_zero.mpr, List.length_range']
  · omega
  · intro i hi
    have := List.mem_range'_1.mp hi
    simp only [decide_eq_true_eq]
    omega
  · intro i hi
    have := List.mem_range'_1.mp hi
    simp only [decide_eq_true_eq]
    omega
  · intro i hi
    have := List.mem_range'_1.mp hi
    simp only [decide_eq_true_eq]
    omega

/-- An increasing list lies between its first and its last number. -/
theorem bounds_of_pairwise {a b : ℕ} {l : List ℕ} (hs : (a :: l).Pairwise (· < ·))
    (hb : (a :: l).getLast? = some b) : ∀ i ∈ a :: l, a ≤ i ∧ i ≤ b := by
  intro i hi
  constructor
  · rcases List.mem_cons.mp hi with rfl | hi
    · exact Nat.le_refl _
    · exact (List.rel_of_pairwise_cons hs hi).le
  · obtain ⟨l', hl'⟩ := List.getLast?_eq_some_iff.mp hb
    rw [hl'] at hs hi
    rcases List.mem_append.mp hi with hi | hi
    · exact ((List.pairwise_append.mp hs).2.2 i hi b List.mem_cons_self).le
    · exact (List.mem_singleton.mp hi).le

/-! ## Streams -/

/-- The numbers that arrive, of a stream marked with which do. -/
def arrived (E : List (ℕ × Bool)) : List ℕ := (E.filter Prod.snd).map Prod.fst

theorem arrived_append (E E' : List (ℕ × Bool)) : arrived (E ++ E') = arrived E ++ arrived E' := by
  rw [arrived, List.filter_append, List.map_append]
  rfl

/-- A count of numbers, split by whether they arrive. -/
theorem countP_split (p : ℕ → Bool) : ∀ E : List (ℕ × Bool),
    E.countP (fun e => p e.1) = (arrived E).countP p + E.countP fun e => !e.2 && p e.1
  | [] => rfl
  | (i, true) :: E => by
      have ih := countP_split p E
      rw [arrived] at ih
      simp only [arrived, List.countP_cons, List.filter_cons_of_pos, List.map_cons, ih]
      simp only [Bool.not_true, Bool.false_and, Bool.false_eq_true, if_false]
      omega
  | (i, false) :: E => by
      have ih := countP_split p E
      rw [arrived] at ih
      rw [arrived, List.filter_cons_of_neg (by simp), List.countP_cons, List.countP_cons, ih]
      simp only [Bool.not_false, Bool.true_and]
      omega

section Stream

variable {E : List (ℕ × Bool)} {k n : ℕ}

theorem arrived_pairwise (hE : E.map Prod.fst = List.range' k n) :
    (arrived E).Pairwise (· < ·) := by
  have hsub : (arrived E).Sublist (List.range' k n) := by
    rw [← hE]
    exact List.filter_sublist.map _
  exact List.Pairwise.sublist hsub List.pairwise_lt_range'

theorem mem_of_arrived (hE : E.map Prod.fst = List.range' k n) {i : ℕ} (h : i ∈ arrived E) :
    k ≤ i ∧ i < k + n := by
  obtain ⟨e, he, rfl⟩ := List.mem_map.mp h
  have hmem : e.1 ∈ List.range' k n := hE ▸ List.mem_map_of_mem (List.mem_filter.mp he).1
  exact List.mem_range'_1.mp hmem

/-- A number that is lost is none of those that arrive. -/
theorem not_arrived (hE : E.map Prod.fst = List.range' k n) {e : ℕ × Bool} (he : e ∈ E)
    (hlost : e.2 = false) : e.1 ∉ arrived E := by
  intro h
  have hnodup : (E.map Prod.fst).Nodup := hE ▸ List.nodup_range'
  obtain ⟨e', he', heq⟩ := List.mem_map.mp h
  obtain ⟨hmem, htrue⟩ := List.mem_filter.mp he'
  rw [List.inj_on_of_nodup_map hnodup hmem he heq, hlost] at htrue
  exact Bool.noConfusion htrue

/-- **The gaps are the losses.**  In a stream of consecutive numbers, the gaps in what arrives
after the first `w` arrivals are the numbers lost between the first and the last of these. -/
theorem gaps_eq_lost (hE : E.map Prod.fst = List.range' k n) (w : ℕ) :
    gaps ((arrived E).drop w)
      = E.countP fun e => !e.2 && decide (Within ((arrived E).drop w) e.1) := by
  have hsorted := arrived_pairwise hE
  have hparts := List.take_append_drop w (arrived E)
  cases hM : (arrived E).drop w with
  | nil =>
      refine (List.countP_eq_zero.mpr fun e _ => ?_).symm
      simp [Within]
  | cons a l =>
      obtain ⟨b, hb⟩ : ∃ b, (a :: l).getLast? = some b :=
        ⟨_, List.getLast?_eq_some_getLast (List.cons_ne_nil a l)⟩
      rw [hM] at hparts
      rw [← hparts] at hsorted
      obtain ⟨-, hs, hbefore⟩ := List.pairwise_append.mp hsorted
      obtain ⟨hspan, hab⟩ := gaps_add_length hs hb
      have hbound := bounds_of_pairwise hs hb
      have hamem : a ∈ a :: l := List.mem_cons_self
      have hbmem : b ∈ a :: l := List.mem_of_getLast? hb
      have harr : ∀ i ∈ a :: l, i ∈ arrived E := fun i hi => hparts ▸ List.mem_append_right _ hi
      -- all numbers from `a` to `b` are in the stream
      have hall : E.countP (fun e => decide (a ≤ e.1 ∧ e.1 ≤ b)) = b + 1 - a := by
        rw [← countP_range' (mem_of_arrived hE (harr a hamem)).1 hab
          (mem_of_arrived hE (harr b hbmem)).2, ← hE, List.countP_map]
        rfl
      -- those that arrive are the ones that are looked at
      have hcome : (arrived E).countP (fun i => decide (a ≤ i ∧ i ≤ b)) = (a :: l).length := by
        rw [← hparts, List.countP_append, List.countP_eq_zero.mpr, List.countP_eq_length.mpr,
          Nat.zero_add]
        · intro i hi
          simpa using hbound i hi
        · intro i hi
          have hlt := hbefore i hi a hamem
          simp only [decide_eq_true_eq]
          omega
      -- and the others lie strictly between
      have hlost : E.countP (fun e => !e.2 && decide (Within (a :: l) e.1))
          = E.countP fun e => !e.2 && decide (a ≤ e.1 ∧ e.1 ≤ b) := by
        refine List.countP_congr fun e he => ?_
        cases hflag : e.2 with
        | true => simp
        | false =>
            have hne : ∀ i ∈ a :: l, e.1 ≠ i := fun i hi heq =>
              not_arrived hE he hflag (heq ▸ harr i hi)
            have ha' := hne a hamem
            have hb' := hne b hbmem
            simp only [Bool.not_false, Bool.true_and, decide_eq_true_eq]
            constructor
            · rintro ⟨⟨i, hi, hlt⟩, j, hj, hgt⟩
              exact ⟨((hbound i hi).1.trans_lt hlt).le, (hgt.trans_le (hbound j hj).2).le⟩
            · rintro ⟨hle, hge⟩
              exact ⟨⟨a, hamem, by omega⟩, b, hbmem, by omega⟩
      have hsplit := countP_split (fun i => decide (a ≤ i ∧ i ≤ b)) E
      rw [hlost]
      omega

end Stream

end Gaps
