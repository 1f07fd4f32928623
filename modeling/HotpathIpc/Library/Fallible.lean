/-!
# Steps that may fail

A result of `Except` taken apart: where an error of a sequence of steps came from, and what the
steps of one that succeeds returned.
-/

namespace Fallible

variable {ε α β : Type} {x : Except ε α} {err : ε}

/-- A sequence of steps that succeeds, taken apart. -/
theorem bind_eq_ok {f : α → Except ε β} {b : β} (h : x >>= f = .ok b) :
    ∃ a, x = .ok a ∧ f a = .ok b := by
  cases x with
  | error err => cases h
  | ok a => exact ⟨a, rfl, h⟩

theorem bind_eq_error {f : α → Except ε β} (h : x >>= f = .error err) :
    x = .error err ∨ ∃ a, x = .ok a ∧ f a = .error err := by
  cases x with
  | error err' => exact Or.inl (congrArg _ (Except.error.inj h))
  | ok a => exact Or.inr ⟨a, rfl, h⟩

theorem map_eq_ok {f : α → β} {b : β} (h : x.map f = .ok b) : ∃ a, x = .ok a ∧ f a = b := by
  cases x with
  | error err => cases h
  | ok a => exact ⟨a, rfl, Except.ok.inj h⟩

theorem map_eq_error {f : α → β} (h : x.map f = .error err) : x = .error err := by
  cases x with
  | error err' => exact congrArg _ (Except.error.inj h)
  | ok a => cases h

/-- A result that passes a test. -/
theorem ok_of_any {p : α → Bool} (h : x.toOption.any p = true) : ∃ a, x = .ok a ∧ p a = true := by
  cases x with
  | error err => cases h
  | ok a => exact ⟨a, rfl, h⟩

end Fallible
