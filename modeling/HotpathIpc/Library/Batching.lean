import HotpathIpc.Library.Mealy

/-!
# Batches

A buffer that hands over what it holds as one batch, when it has `cap` items or when it is told to
cut.

* `next` — one item, and whether to cut after it; `batches` and `rest` — what a run handed over
  and what it left in the buffer.
* `flatten_batches` — nothing is lost or repeated; `size_of_mem_batches` — no batch is empty or
  larger than `cap`.
* `length_rest` — how much is left in the buffer.
* **`complete_iff`** — when everything was handed over.
-/

namespace Batching

variable {α : Type*}

def next (cap : ℕ) (buf : List α) (x : α × Bool) : List α × Option (List α) :=
  let buf := buf ++ [x.1]
  if cap ≤ buf.length ∨ x.2 = true then ([], some buf) else (buf, none)

def batches (cap : ℕ) (xs : List (α × Bool)) : List (List α) :=
  (Mealy.outs (next cap) [] xs).filterMap id

def rest (cap : ℕ) (xs : List (α × Bool)) : List α := Mealy.exec (next cap) [] xs

/-- How many items came after the last cut. -/
def sinceCut : List (α × Bool) → ℕ := List.foldl (fun n x => if x.2 then 0 else n + 1) 0

variable {cap : ℕ} {xs : List (α × Bool)} {buf : List α} {x : α × Bool}

theorem next_cases (cap : ℕ) (buf : List α) (x : α × Bool) :
    ((cap ≤ buf.length + 1 ∨ x.2 = true) ∧ next cap buf x = ([], some (buf ++ [x.1]))) ∨
      (buf.length + 1 < cap ∧ x.2 = false ∧ next cap buf x = (buf ++ [x.1], none)) := by
  rw [next, List.length_append, List.length_singleton]
  by_cases h : cap ≤ buf.length + 1 ∨ x.2 = true
  · rw [if_pos h]
    exact Or.inl ⟨h, rfl⟩
  · rw [if_neg h]
    rw [not_or, Nat.not_le, Bool.not_eq_true] at h
    exact Or.inr ⟨h.1, h.2, rfl⟩

/-- **Nothing is lost or repeated**: the batches, then the buffer, are the items in order. -/
theorem flatten_batches (cap : ℕ) (xs : List (α × Bool)) :
    (batches cap xs).flatten ++ rest cap xs = xs.map Prod.fst := by
  induction xs using List.reverseRecOn with
  | nil => rfl
  | append_singleton xs x ih =>
      rw [batches, Mealy.filterMap_outs_concat, rest, Mealy.exec_append, List.map_append, ← ih,
        List.flatten_append, Mealy.exec_cons, Mealy.exec_nil]
      show (batches cap xs).flatten ++ (next cap (rest cap xs) x).2.toList.flatten
        ++ (next cap (rest cap xs) x).1 = _
      rcases next_cases cap (rest cap xs) x with ⟨-, hnext⟩ | ⟨-, -, hnext⟩
      · rw [hnext]
        simp
      · rw [hnext]
        simp

theorem length_next (hbuf : buf.length < cap) :
    (next cap buf x).1.length = if x.2 then 0 else (buf.length + 1) % cap := by
  rcases next_cases cap buf x with ⟨hcut, hnext⟩ | ⟨hlt, hx, hnext⟩
  · rw [hnext]
    cases hx : x.2 with
    | true => rfl
    | false =>
        have hfull : buf.length + 1 = cap := by
          rw [hx] at hcut
          have hle := hcut.resolve_right (by decide)
          omega
        rw [hfull, Nat.mod_self]
        rfl
  · rw [hnext, hx, Nat.mod_eq_of_lt hlt, List.length_append]
    rfl

/-- **What is left in the buffer**, in number. -/
theorem length_rest (hcap : 0 < cap) (xs : List (α × Bool)) :
    (rest cap xs).length = sinceCut xs % cap := by
  induction xs using List.reverseRecOn with
  | nil => exact (Nat.zero_mod cap).symm
  | append_singleton xs x ih =>
      have hbuf : (rest cap xs).length < cap := ih ▸ Nat.mod_lt _ hcap
      have hnext := length_next (x := x) hbuf
      rw [rest, Mealy.exec_append, sinceCut, List.foldl_append]
      refine hnext.trans ?_
      show _ = (if x.2 then 0 else sinceCut xs + 1) % cap
      cases x.2 with
      | true => exact (Nat.zero_mod cap).symm
      | false =>
          rw [ih]
          exact Nat.mod_add_mod _ _ _

/-- **No batch is empty or too large.** -/
theorem size_of_mem_batches (hcap : 0 < cap) (xs : List (α × Bool)) :
    ∀ b ∈ batches cap xs, b ≠ [] ∧ b.length ≤ cap := by
  refine (Mealy.messages (J := fun bs buf => (∀ b ∈ bs, b ≠ [] ∧ b.length ≤ cap) ∧
    buf.length < cap) ?_ ⟨fun _ hb => absurd hb List.not_mem_nil, hcap⟩ xs).1
  rintro bs buf x ⟨hbs, hbuf⟩
  rcases next_cases cap buf x with ⟨-, hnext⟩ | ⟨hlt, -, hnext⟩
  · rw [hnext]
    refine ⟨fun b hb => ?_, hcap⟩
    rcases List.mem_append.mp hb with hb | hb
    · exact hbs b hb
    · rw [List.mem_singleton.mp hb, List.length_append, List.length_singleton]
      exact ⟨List.concat_ne_nil _ _, hbuf⟩
  · rw [hnext, Option.toList, List.append_nil, List.length_append, List.length_singleton]
    exact ⟨hbs, hlt⟩

/-- **When everything was handed over.** -/
theorem complete_iff (hcap : 0 < cap) (xs : List (α × Bool)) :
    (batches cap xs).flatten = xs.map Prod.fst ↔ sinceCut xs % cap = 0 := by
  rw [← flatten_batches cap xs, List.self_eq_append_right, ← length_rest hcap,
    List.length_eq_zero_iff]

end Batching
