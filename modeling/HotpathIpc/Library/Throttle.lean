import Mathlib.Data.List.Basic
import Mathlib.Logic.Function.Basic
import Mathlib.Tactic.Common

/-!
# Throttles

A throttle lets events of some kind through, at most one at each instant, and holds back those
that come too soon after another.

* `each` holds back an event that comes sooner than `gap` after the last event of its kind.
* `last` looks at the last event only: it holds back the event only if that is of its kind.

`Spaced` is what a throttle is for.  **`spaced_last_iff`** says exactly when `last` gives it: as
long as `each`, on the same wishes, holds back no kind but the last.
-/

namespace Throttle

variable {κ : Type*} [DecidableEq κ]

/-- What went through: the last kind, and the last instant of each kind. -/
structure Memory (κ : Type*) where
  last : Option κ
  at? : κ → Option ℕ

def Memory.empty : Memory κ := ⟨none, fun _ => none⟩

/-- An event goes through. -/
def Memory.note (m : Memory κ) (k : κ) (t : ℕ) : Memory κ :=
  ⟨some k, Function.update m.at? k (some t)⟩

@[simp] theorem Memory.note_self (m : Memory κ) (k : κ) (t : ℕ) : (m.note k t).at? k = some t :=
  Function.update_self k _ _

@[simp] theorem Memory.note_other (m : Memory κ) {k k' : κ} (h : k' ≠ k) (t : ℕ) :
    (m.note k t).at? k' = m.at? k' :=
  Function.update_of_ne h _ _

/-- Which wishes a throttle holds back. -/
abbrev Rule (κ : Type*) := Memory κ → ℕ → κ → Bool

/-- The last event of the kind is less than `gap` ago. -/
def each (gap : ℕ) : Rule κ := fun m t k => (m.at? k).any fun s => t - s < gap

def last (gap : ℕ) : Rule κ := fun m t k => decide (m.last = some k) && each gap m t k

def next (holds : Rule κ) (m : Memory κ) (t : ℕ) : Option κ → Memory κ × Option κ
  | none => (m, none)
  | some k => if holds m t k then (m, none) else (m.note k t, some k)

/-- What goes through from an instant on. -/
def run (holds : Rule κ) : Memory κ → ℕ → List (Option κ) → List (Option κ)
  | _, _, [] => []
  | m, t, w :: ws => (next holds m t w).2 :: run holds (next holds m t w).1 (t + 1) ws

/-- Events of a kind are at least `gap` apart. -/
def Spaced (gap : ℕ) (out : List (Option κ)) : Prop :=
  ∀ i j k, i < j → out[i]? = some (some k) → out[j]? = some (some k) → gap ≤ j - i

/-- On its way, `each` holds back the last kind only. -/
def Steady (gap : ℕ) : Memory κ → ℕ → List (Option κ) → Prop
  | _, _, [] => True
  | m, t, w :: ws => (∀ k, w = some k → each gap m t k = true → m.last = some k) ∧
      Steady gap (next (each gap) m t w).1 (t + 1) ws

/-! ## Spacing, event by event -/

/-- No event comes too soon after the last one of its kind. -/
def SpacedAfter (gap : ℕ) : Memory κ → ℕ → List (Option κ) → Prop
  | _, _, [] => True
  | m, t, none :: out => SpacedAfter gap m (t + 1) out
  | m, t, some k :: out => each gap m t k = false ∧ SpacedAfter gap (m.note k t) (t + 1) out

/-- The memory is of the past. -/
def Memory.Past (m : Memory κ) (t : ℕ) : Prop := ∀ k s, m.at? k = some s → s < t

omit [DecidableEq κ] in
theorem Memory.Past.succ {m : Memory κ} {t : ℕ} (h : m.Past t) : m.Past (t + 1) :=
  fun k s hs => Nat.lt_succ_of_lt (h k s hs)

theorem Memory.Past.note {m : Memory κ} {t : ℕ} (h : m.Past t) (k : κ) :
    (m.note k t).Past (t + 1) := by
  intro k' s hs
  by_cases hk : k' = k
  · rw [hk, Memory.note_self] at hs
    obtain rfl := Option.some.inj hs
    exact Nat.lt_succ_self t
  · rw [Memory.note_other m hk] at hs
    exact Nat.lt_succ_of_lt (h k' s hs)

/-- Events are spaced from those of a memory. -/
def Keeps (gap : ℕ) (m : Memory κ) (t : ℕ) (out : List (Option κ)) : Prop :=
  ∀ k s j, m.at? k = some s → out[j]? = some (some k) → gap ≤ t + j - s

omit [DecidableEq κ] in
theorem each_eq_false {gap : ℕ} {m : Memory κ} {t : ℕ} {k : κ} :
    each gap m t k = false ↔ ∀ s, m.at? k = some s → gap ≤ t - s := by
  rw [each]
  cases m.at? k with
  | none => simp
  | some s => simp

omit [DecidableEq κ] in
theorem spaced_cons {gap : ℕ} {o : Option κ} {out : List (Option κ)} :
    Spaced gap (o :: out) ↔ Spaced gap out ∧
      ∀ k j, o = some k → out[j]? = some (some k) → gap ≤ j + 1 := by
  constructor
  · intro h
    refine ⟨?_, ?_⟩
    · intro i j k hij hi hj
      have hgap := h (i + 1) (j + 1) k (by omega) hi hj
      omega
    · rintro k j rfl hj
      exact h 0 (j + 1) k (by omega) rfl hj
  · rintro ⟨hout, hfirst⟩ i j k hij hi hj
    cases j with
    | zero => exact absurd hij (Nat.not_lt_zero i)
    | succ j =>
        cases i with
        | zero => exact hfirst k j (Option.some.inj hi) hj
        | succ i =>
            have hgap := hout i j k (by omega) hi hj
            omega

omit [DecidableEq κ] in
theorem keeps_cons {gap : ℕ} {m : Memory κ} {t : ℕ} {o : Option κ} {out : List (Option κ)} :
    Keeps gap m t (o :: out) ↔ (∀ k, o = some k → each gap m t k = false) ∧
      Keeps gap m (t + 1) out := by
  constructor
  · intro h
    refine ⟨?_, ?_⟩
    · rintro k rfl
      exact each_eq_false.mpr fun s hs => h k s 0 hs rfl
    · intro k s j hs hj
      have hgap := h k s (j + 1) hs hj
      omega
  · rintro ⟨hfirst, hout⟩ k s j hs hj
    cases j with
    | zero => exact each_eq_false.mp (hfirst k (Option.some.inj hj)) s hs
    | succ j =>
        have hgap := hout k s j hs hj
        omega

/-- An event that goes through is one more to keep away from. -/
theorem keeps_note {gap : ℕ} {m : Memory κ} {t : ℕ} {k : κ} {out : List (Option κ)}
    (hpast : m.Past t) : Keeps gap (m.note k t) (t + 1) out ↔
      (∀ j, out[j]? = some (some k) → gap ≤ j + 1) ∧ Keeps gap m (t + 1) out := by
  constructor
  · intro h
    have hk : ∀ j, out[j]? = some (some k) → gap ≤ j + 1 := by
      intro j hj
      have hgap := h k t j (Memory.note_self m k t) hj
      omega
    refine ⟨hk, ?_⟩
    intro k' s j hs hj
    by_cases heq : k' = k
    · have hgap := hk j (heq ▸ hj)
      have hlt := hpast k' s hs
      omega
    · exact h k' s j (by rwa [Memory.note_other m heq]) hj
  · rintro ⟨hk, h⟩ k' s j hs hj
    by_cases heq : k' = k
    · rw [heq, Memory.note_self] at hs
      obtain rfl := Option.some.inj hs
      have hgap := hk j (heq ▸ hj)
      omega
    · rw [Memory.note_other m heq] at hs
      exact h k' s j hs hj

theorem spacedAfter_iff {gap : ℕ} : ∀ (out : List (Option κ)) (m : Memory κ) (t : ℕ), m.Past t →
    (SpacedAfter gap m t out ↔ Spaced gap out ∧ Keeps gap m t out)
  | [], _, _, _ => by simp [SpacedAfter, Spaced, Keeps]
  | none :: out, m, t, hpast => by
      rw [SpacedAfter, spacedAfter_iff out m (t + 1) hpast.succ, spaced_cons, keeps_cons]
      simp
  | some k :: out, m, t, hpast => by
      rw [SpacedAfter, spacedAfter_iff out _ (t + 1) (hpast.note k), spaced_cons, keeps_cons,
        keeps_note hpast]
      constructor
      · rintro ⟨hsoon, hout, hk, hmem⟩
        refine ⟨⟨hout, ?_⟩, ?_, hmem⟩
        · rintro k' j hk' hj
          obtain rfl := Option.some.inj hk'
          exact hk j hj
        · rintro k' hk'
          rwa [← Option.some.inj hk']
      · rintro ⟨⟨hout, hk⟩, hsoon, hmem⟩
        exact ⟨hsoon k rfl, hout, fun j => hk k j rfl, hmem⟩

/-! ## Which throttles space -/

/-- The two throttles part where `each` holds back a kind that is not the last: there `last` lets
an event through too soon. -/
theorem spacedAfter_last_iff {gap : ℕ} : ∀ (ws : List (Option κ)) (m : Memory κ) (t : ℕ),
    SpacedAfter gap m t (run (last gap) m t ws) ↔ Steady gap m t ws
  | [], _, _ => Iff.rfl
  | none :: ws, m, t => by
      rw [run, next, SpacedAfter, Steady, next, spacedAfter_last_iff ws]
      exact ⟨fun h => ⟨fun _ hk => (by cases hk), h⟩, fun h => h.2⟩
  | some k :: ws, m, t => by
      rw [run, Steady]
      cases hsoon : each gap m t k with
      | true =>
          by_cases hlast : m.last = some k
          · have hheld : last gap m t k = true := by simp [last, hsoon, hlast]
            rw [next, if_pos hheld, next, if_pos hsoon, SpacedAfter, spacedAfter_last_iff ws]
            refine ⟨fun h => ⟨?_, h⟩, fun h => h.2⟩
            rintro k' hk -
            rwa [← hk]
          · have hthrough : ¬ last gap m t k = true := by simp [last, hlast]
            rw [next, if_neg hthrough, SpacedAfter, hsoon]
            exact ⟨fun h => absurd h.1 (by decide), fun h => absurd (h.1 k rfl hsoon) hlast⟩
      | false =>
          have hthrough : ¬ last gap m t k = true := by simp [last, hsoon]
          rw [next, if_neg hthrough, next, if_neg (by simp [hsoon]), SpacedAfter, hsoon,
            spacedAfter_last_iff ws]
          refine ⟨fun h => ⟨?_, h.2⟩, fun h => ⟨rfl, h.2⟩⟩
          intro k' hk hsoon'
          rw [← Option.some.inj hk, hsoon] at hsoon'
          cases hsoon'

omit [DecidableEq κ] in
theorem past_empty (t : ℕ) : (Memory.empty : Memory κ).Past t := fun _ _ h => by cases h

theorem spacedAfter_empty {gap : ℕ} {out : List (Option κ)} :
    SpacedAfter gap Memory.empty 0 out ↔ Spaced gap out := by
  rw [spacedAfter_iff out Memory.empty 0 (past_empty 0)]
  exact ⟨fun h => h.1, fun h => ⟨h, fun _ _ _ hs => by cases hs⟩⟩

/-- **When looking at the last event is enough.** -/
theorem spaced_last_iff (gap : ℕ) (ws : List (Option κ)) :
    Spaced gap (run (last gap) Memory.empty 0 ws) ↔ Steady gap Memory.empty 0 ws :=
  spacedAfter_empty.symm.trans (spacedAfter_last_iff ws Memory.empty 0)

end Throttle
