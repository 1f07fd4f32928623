import Mathlib.Data.List.Infix

/-!
# Looking for a quoted word

Text in which a mark `q` opens and closes words, read as the pieces between its marks.

* `after` — what follows the first occurrence of a pattern; `after_skip`, `after_found` compute it.
* **`after_text`** — a word between two marks is found at the first piece that is that word and has
  a mark behind it, whether the piece was meant to be quoted or not.
-/

namespace Quoted

variable {α : Type*}

/-! ## Pieces between marks -/

/-- Pieces, each with a mark before it. -/
def text (q : α) : List (List α) → List α
  | [] => []
  | s :: pieces => q :: (s ++ text q pieces)

/-- Pieces with a mark between each two. -/
def between (q : α) : List (List α) → List α
  | [] => []
  | s :: pieces => s ++ text q pieces

theorem text_ne_nil {q : α} : ∀ {pieces : List (List α)}, pieces ≠ [] →
    text q pieces = q :: between q pieces
  | [], h => absurd rfl h
  | _ :: _, _ => rfl

theorem text_append (q : α) : ∀ u v : List (List α), text q (u ++ v) = text q u ++ text q v
  | [], _ => rfl
  | s :: u, v => by
      rw [List.cons_append, text, text, text_append q u v, List.cons_append, List.append_assoc]

/-- Two texts up to their first marks. -/
theorem append_mark_inj {q : α} {s word rest rest' : List α} (hs : q ∉ s) (hword : q ∉ word)
    (h : s ++ q :: rest = word ++ q :: rest') : s = word := by
  induction s generalizing word with
  | nil =>
      cases word with
      | nil => rfl
      | cons w word => exact absurd (List.cons.inj h).1 fun heq => hword (heq ▸ List.mem_cons_self)
  | cons x s ih =>
      cases word with
      | nil => exact absurd (List.cons.inj h).1 fun heq => hs (heq ▸ List.mem_cons_self)
      | cons w word =>
          obtain ⟨rfl, htail⟩ := List.cons.inj h
          rw [ih (fun hq => hs (List.mem_cons_of_mem _ hq))
            (fun hq => hword (List.mem_cons_of_mem _ hq)) htail]

/-! ## The first occurrence -/

variable [DecidableEq α] {pat : List α}

/-- What follows the first occurrence of `pat`. -/
def after (pat xs : List α) : Option (List α) := (xs.dropInfix? pat).map Prod.snd

theorem after_go : ∀ xs acc : List α,
    (List.dropInfix?.go pat xs acc).map Prod.snd = after pat xs := by
  have hgo : ∀ xs acc acc' : List α, (List.dropInfix?.go pat xs acc).map Prod.snd
      = (List.dropInfix?.go pat xs acc').map Prod.snd := by
    intro xs
    induction xs with
    | nil =>
        intro acc acc'
        rw [List.dropInfix?.go, List.dropInfix?.go]
        split <;> rfl
    | cons x xs ih =>
        intro acc acc'
        rw [List.dropInfix?.go, List.dropInfix?.go]
        split
        · exact ih _ _
        · rfl
  exact fun xs acc => hgo xs acc []

theorem dropPrefix_eq_none {xs : List α} (h : ¬ pat <+: xs) : xs.dropPrefix? pat = none := by
  cases hdrop : xs.dropPrefix? pat with
  | none => rfl
  | some rest =>
      obtain ⟨p, rfl, hp⟩ := List.dropPrefix?_eq_some_iff.mp hdrop
      exact absurd (eq_of_beq hp ▸ List.prefix_append p rest) h

theorem after_step {x : α} {xs : List α} (h : ¬ pat <+: x :: xs) :
    after pat (x :: xs) = after pat xs := by
  rw [← after_go (x :: xs) [], List.dropInfix?.go, dropPrefix_eq_none h]
  exact after_go xs [x]

theorem after_found (hpat : pat ≠ []) (rest : List α) : after pat (pat ++ rest) = some rest := by
  obtain ⟨p, ps, rfl⟩ := List.exists_cons_of_ne_nil hpat
  have hdrop : List.dropPrefix? (p :: (ps ++ rest)) (p :: ps) = some rest :=
    List.dropPrefix?_append_of_beq rest (beq_self_eq_true (p :: ps))
  rw [List.cons_append, ← after_go (p :: (ps ++ rest)) [], List.dropInfix?.go, hdrop]
  rfl

theorem after_nil (hpat : pat ≠ []) : after pat [] = none := by
  obtain ⟨p, ps, rfl⟩ := List.exists_cons_of_ne_nil hpat
  rfl

/-- What does not contain the first element of the pattern is skipped. -/
theorem after_skip {q : α} {ps : List α} : ∀ {u : List α}, q ∉ u → ∀ rest : List α,
    after (q :: ps) (u ++ rest) = after (q :: ps) rest
  | [], _, _ => rfl
  | x :: u, h, rest => by
      obtain ⟨hne, hu⟩ := not_or.mp (List.mem_cons.not.mp h)
      have hhead : ¬ q :: ps <+: x :: (u ++ rest) := fun hp => hne (List.cons_prefix_cons.mp hp).1
      rw [List.cons_append, after_step hhead]
      exact after_skip hu rest

/-- What is left behind the first piece that is the word and has a mark behind it. -/
def behind (word : List α) : List (List α) → Option (List (List α))
  | [] => none
  | s :: pieces => if s = word ∧ pieces ≠ [] then some pieces else behind word pieces

theorem behind_append {word : List α} {v : List (List α)} : ∀ {u : List (List α)}, word ∉ u →
    behind word (u ++ v) = behind word v
  | [], _ => rfl
  | s :: u, h => by
      obtain ⟨hne, hu⟩ := not_or.mp (List.mem_cons.not.mp h)
      rw [List.cons_append, behind, if_neg fun hs => hne hs.1.symm]
      exact behind_append hu

theorem behind_self {word : List α} {pieces : List (List α)} (h : pieces ≠ []) :
    behind word (word :: pieces) = some pieces := by rw [behind, if_pos ⟨rfl, h⟩]

/-- **A quoted word** is found at the first piece that is that word, if a mark follows it. -/
theorem after_text {q : α} {word : List α} (hword : q ∉ word) : ∀ {pieces : List (List α)},
    (∀ s ∈ pieces, q ∉ s) →
      after (q :: (word ++ [q])) (text q pieces) = (behind word pieces).map (between q)
  | [], _ => after_nil (List.cons_ne_nil _ _)
  | s :: pieces, h => by
      have hs : q ∉ s := h s List.mem_cons_self
      have ih := after_text hword fun s' hs' => h s' (List.mem_cons_of_mem s hs')
      by_cases hfound : s = word ∧ pieces ≠ []
      · obtain ⟨rfl, hne⟩ := hfound
        have hsplit : text q (s :: pieces) = (q :: (s ++ [q])) ++ between q pieces := by
          rw [text, text_ne_nil hne]
          simp
        rw [hsplit, after_found (List.cons_ne_nil _ _), behind, if_pos ⟨rfl, hne⟩]
        rfl
      · have hprefix : ¬ q :: (word ++ [q]) <+: q :: (s ++ text q pieces) := by
          rintro ⟨rest, hrest⟩
          have htail : word ++ q :: rest = s ++ text q pieces := by simpa using hrest
          by_cases hne : pieces = []
          · subst hne
            have hmem : q ∈ s := by
              rw [text, List.append_nil] at htail
              rw [← htail]
              exact List.mem_append_right _ List.mem_cons_self
            exact hs hmem
          · rw [text_ne_nil hne] at htail
            exact hfound ⟨append_mark_inj hs hword htail.symm, hne⟩
        rw [text, after_step hprefix, after_skip hs, ih, behind, if_neg hfound]

end Quoted
