import Mathlib.Data.List.Perm.Basic
import Mathlib.Tactic.Common

/-!
# Queues that drop their oldest

A queue of bounded capacity whose sender never waits: what it cannot hold falls out at the front.

* `kept`, `spilled` — what such a queue keeps of its entries, and what falls out.
* **`spilled_append_kept`** — nothing else happens to them, so with a spill as one more way to
  leave at the front, the queue is still first in, first out.
* `getLast?_kept_concat` — a new entry is kept, unless there is no room for any.
-/

namespace Overflow

variable {α : Type*}

/-- The newest entries, as many as the capacity. -/
def kept (cap : ℕ) (q : List α) : List α := q.drop (q.length - cap)

/-- The entries that are too many, oldest first. -/
def spilled (cap : ℕ) (q : List α) : List α := q.take (q.length - cap)

@[simp] theorem spilled_append_kept (cap : ℕ) (q : List α) : spilled cap q ++ kept cap q = q :=
  List.take_append_drop _ q

theorem mem_of_mem_kept {cap : ℕ} {q : List α} {a : α} (h : a ∈ kept cap q) : a ∈ q :=
  List.mem_of_mem_drop h

theorem kept_of_le {cap : ℕ} {q : List α} (h : q.length ≤ cap) : kept cap q = q := by
  rw [kept, Nat.sub_eq_zero_of_le h, List.drop_zero]

/-- A new entry is kept, unless nothing is. -/
theorem getLast?_kept_concat {cap : ℕ} (h : 0 < cap) (q : List α) (a : α) :
    (kept cap (q ++ [a])).getLast? = some a := by
  have hlen : (q ++ [a]).length - cap ≤ q.length := by
    rw [List.length_append, List.length_singleton]
    omega
  rw [kept, List.drop_append_of_le_length hlen, List.getLast?_concat]

end Overflow
