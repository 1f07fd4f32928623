import Mathlib.Tactic.Common

/-!
# Stack effects of straight-line code

A stack machine whose instructions may only use what is on the stack: `step` has no result if an
instruction pops more than there is.  `Effect step code us vs` says that `code`, run with `us` on
top of the stack, leaves `vs` there instead.  It says so of every stack below, the empty one too, so
what is below is neither changed nor looked at.

Effects are put together by `Effect.append`, below values that are kept by `Effect.frame`.
-/

namespace StackEffect

variable {ι α : Type*} (step : List α → ι → Option (List α))

/-- `code` takes `us` off the top of any stack and leaves `vs`. -/
def Effect (code : List ι) (us vs : List α) : Prop :=
  ∀ below, code.foldlM step (us ++ below) = some (vs ++ below)

variable {step} {code code' : List ι} {us vs ws : List α}

theorem Effect.nil (us : List α) : Effect step [] us us := fun _ => rfl

/-- An instruction has the effect that its step has. -/
theorem Effect.single {i : ι} (h : ∀ below, step (us ++ below) i = some (vs ++ below)) :
    Effect step [i] us vs := by
  intro below
  rw [List.foldlM_cons, h]
  rfl

theorem Effect.append (h : Effect step code us vs) (h' : Effect step code' vs ws) :
    Effect step (code ++ code') us ws := by
  intro below
  rw [List.foldlM_append, h below]
  exact h' below

/-- What is under the operands stays. -/
theorem Effect.frame (h : Effect step code us vs) (kept : List α) :
    Effect step code (us ++ kept) (vs ++ kept) := by
  intro below
  rw [List.append_assoc, List.append_assoc]
  exact h (kept ++ below)

/-- Run on the operands alone. -/
theorem Effect.alone (h : Effect step code us vs) : code.foldlM step us = some vs := by
  have hnil := h []
  rwa [List.append_nil, List.append_nil] at hnil

end StackEffect
