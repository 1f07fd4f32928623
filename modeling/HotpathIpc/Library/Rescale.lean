import Mathlib.Order.Fin.Basic
import Mathlib.Tactic.Common

/-!
# Readings of a wrapping counter on another clock

Two counters modulo `M` with one pair of readings in common, the epoch.  A reading of the first is
converted by the difference to the epoch modulo `M`, a monotone scale, and a sum modulo `M`.

* `convert_after` — from the epoch on neither wrap is taken.
* `convert_carry`, `convert_stuck` — before it the difference has wrapped; only if the sum wraps
  too, the result is before the epoch again.
* **`ordered_iff`** — which readings before a given one are converted in order.
-/

/-- A conversion. -/
structure Rescale (M : ℕ) where
  /-- the epoch on the first clock -/
  epoch : Fin M
  /-- the epoch on the second clock -/
  origin : Fin M
  scale : ℕ → Fin M
  mono : Monotone scale

namespace Rescale

variable {M : ℕ} (c : Rescale M)

def convert (t : ℕ) : ℕ := (c.origin + c.scale ((M - c.epoch + t) % M)) % M

/-- The sum wraps for a reading before the epoch. -/
def Carries (t : ℕ) : Prop := M ≤ c.origin + c.scale (M - (c.epoch - t))

variable {c} {a b t : ℕ}

theorem convert_after (hle : c.epoch ≤ t) (ht : t < M)
    (hfit : c.origin + (c.scale (t - c.epoch) : ℕ) < M) :
    c.convert t = c.origin + c.scale (t - c.epoch) := by
  have he := c.epoch.isLt
  have hdiff : (M - c.epoch + t) % M = t - c.epoch := by
    rw [show M - c.epoch + t = t - c.epoch + M by omega, Nat.add_mod_right]
    exact Nat.mod_eq_of_lt (by omega)
  rw [convert, hdiff, Nat.mod_eq_of_lt hfit]

/-- The difference to a later epoch has wrapped. -/
theorem convert_before (hlt : t < c.epoch) :
    c.convert t = (c.origin + c.scale (M - (c.epoch - t))) % M := by
  have he := c.epoch.isLt
  rw [convert, Nat.mod_eq_of_lt (show M - c.epoch + t < M by omega),
    show M - (c.epoch : ℕ) + t = M - (c.epoch - t) by omega]

theorem convert_carry (hlt : t < c.epoch) (hc : c.Carries t) :
    c.convert t + M = c.origin + c.scale (M - (c.epoch - t)) := by
  have ho := c.origin.isLt
  have hs := (c.scale (M - (c.epoch - t))).isLt
  unfold Carries at hc
  rw [convert_before hlt, Nat.mod_eq_sub_mod hc, Nat.mod_eq_of_lt (by omega)]
  omega

theorem convert_stuck (hlt : t < c.epoch) (hc : ¬ c.Carries t) :
    c.convert t = c.origin + c.scale (M - (c.epoch - t)) := by
  rw [convert_before hlt, Nat.mod_eq_of_lt (not_le.mp hc)]

/-- A reading before the epoch is converted to one before the epoch if and only if the sum wraps. -/
theorem convert_lt_origin_iff (hlt : t < c.epoch) : c.convert t < c.origin ↔ c.Carries t := by
  have hs := (c.scale (M - (c.epoch - t))).isLt
  constructor
  · intro h
    by_contra hc
    rw [convert_stuck hlt hc] at h
    omega
  · intro hc
    have hcarry := convert_carry hlt hc
    omega

theorem Carries.mono (hab : a ≤ b) (h : c.Carries a) : c.Carries b := by
  have hscale : (c.scale (M - (c.epoch - a)) : ℕ) ≤ c.scale (M - (c.epoch - b)) :=
    c.mono (by omega)
  unfold Carries at h ⊢
  omega

/-- **In order**: an earlier reading is converted to an earlier one, and to one before the epoch if
it is before the epoch, exactly when it is not before the epoch or the sum wraps. -/
theorem ordered_iff (hab : a ≤ b) (hb : b < M)
    (hfit : c.epoch ≤ b → c.origin + (c.scale (b - c.epoch) : ℕ) < M) :
    (c.convert a ≤ c.convert b ∧ (a < c.epoch → c.convert a < c.origin))
      ↔ c.epoch ≤ a ∨ c.Carries a := by
  constructor
  · rintro ⟨-, hbefore⟩
    rcases lt_or_ge a c.epoch with hlt | hle
    · exact Or.inr ((convert_lt_origin_iff hlt).mp (hbefore hlt))
    · exact Or.inl hle
  · intro h
    rcases lt_or_ge a c.epoch with hlt | hle
    · have hc : c.Carries a := h.resolve_left (not_le.mpr hlt)
      have hbefore := (convert_lt_origin_iff hlt).mpr hc
      refine ⟨?_, fun _ => hbefore⟩
      rcases lt_or_ge b c.epoch with hblt | hble
      · have hscale : (c.scale (M - (c.epoch - a)) : ℕ) ≤ c.scale (M - (c.epoch - b)) :=
          c.mono (by omega)
        have ha' := convert_carry hlt hc
        have hb' := convert_carry hblt (hc.mono hab)
        omega
      · rw [convert_after hble hb (hfit hble)]
        omega
    · have hble := hle.trans hab
      have hscale : (c.scale (a - c.epoch) : ℕ) ≤ c.scale (b - c.epoch) := c.mono (by omega)
      have hb' := hfit hble
      refine ⟨?_, fun hlt => absurd hle (not_le.mpr hlt)⟩
      rw [convert_after hble hb hb', convert_after hle (by omega) (by omega)]
      omega

end Rescale
