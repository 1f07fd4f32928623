import Mathlib.Data.List.Infix
import Mathlib.Tactic.Common

/-!
# Regular expressions by backtracking

Patterns as text-processing languages have them: tried from left to right, greedily, the first way
that succeeds is the match.

* `ways` — all ways to match at a place, in the order in which they are tried; `search` — the first
  match at the leftmost place that has one.
* `Takes` — the first way to match, wherever the match stands; it composes with `seq`, and a greedy
  run takes all it can: `takes_many`.  If what follows the run can match at one place only, the run
  gives back what it must: **`takes_last`**.
* `Needs` — a pattern is not found in a text that has none of the words it needs:
  **`search_needs`**.
* `StartsWith` — a pattern that begins with a word is found where the word first occurs, and not
  found where it does not: **`search_at`**, **`search_eq_none`**.  Whether a word occurs can be
  decided on some of the characters: `not_infix_of_filter`.
-/

namespace Regex

inductive Pattern where
  | empty
  /-- as many characters of a class as there are, and no fewer than `least` -/
  | many (p : Char → Bool) (least : ℕ)
  /-- a character of a class, if there is one -/
  | opt (p : Char → Bool)
  /-- one of several words -/
  | oneOf (words : List (List Char))
  /-- between a word and what is none -/
  | boundary
  | group (r : Pattern)
  | seq (r t : Pattern)

namespace Pattern

def word (w : String) : Pattern := oneOf [w.toList]

def cat : List Pattern → Pattern
  | [] => empty
  | r :: rs => seq r (cat rs)

end Pattern

/-- A match: its text, its groups and what follows it. -/
structure Found where
  text : List Char
  groups : List (List Char)
  rest : List Char
deriving DecidableEq, Repr

def isWord (c : Char) : Bool := c.isAlphanum || c = '_'

/-- The character before what follows `text`. -/
def after (prev : Option Char) (text : List Char) : Option Char := text.getLast?.or prev

/-- Greedy runs of characters, the longest first. -/
def runs (p : Char → Bool) : ℕ → List Char → List (List Char × List Char)
  | 0, [] => [([], [])]
  | _ + 1, [] => []
  | least, c :: s =>
      (if p c then (runs p (least - 1) s).map fun x => (c :: x.1, x.2) else [])
        ++ if least = 0 then [([], c :: s)] else []

def ways : Pattern → Option Char → List Char → List Found
  | Pattern.empty, _, s => [⟨[], [], s⟩]
  | Pattern.many p least, _, s => (runs p least s).map fun x => ⟨x.1, [], x.2⟩
  | Pattern.opt _, _, [] => [⟨[], [], []⟩]
  | Pattern.opt p, _, c :: s => (if p c then [⟨[c], [], s⟩] else []) ++ [⟨[], [], c :: s⟩]
  | Pattern.oneOf ws, _, s =>
      ws.filterMap fun w => if w <+: s then some ⟨w, [], s.drop w.length⟩ else none
  | Pattern.boundary, prev, s =>
      if prev.any isWord = s.head?.any isWord then [] else [⟨[], [], s⟩]
  | Pattern.group r, prev, s =>
      (ways r prev s).map fun f => { f with groups := f.text :: f.groups }
  | Pattern.seq r t, prev, s =>
      (ways r prev s).flatMap fun f => (ways t (after prev f.text) f.rest).map fun g =>
        ⟨f.text ++ g.text, f.groups ++ g.groups, g.rest⟩

/-- The match of a search that begins behind `prev`. -/
def search (r : Pattern) : Option Char → List Char → Option Found
  | prev, [] => (ways r prev []).head?
  | prev, c :: s => (ways r prev (c :: s)).head?.or (search r (some c) s)

/-- The groups of the match in a text. -/
def exec (r : Pattern) (s : List Char) : Option (List (List Char)) :=
  (search r none s).map Found.groups

/-- Is there a match in a text? -/
def test (r : Pattern) (s : List Char) : Bool := (search r none s).isSome

theorem after_cons (prev : Option Char) (c : Char) (text : List Char) :
    after prev (c :: text) = after (some c) text := by
  rw [after, after, List.getLast?_cons, Option.some_or]
  cases text.getLast? with
  | none => rfl
  | some d => rfl

/-! ## The first way to match -/

/-- A pattern matches `a` in front of `rest`, with the given groups, before any other way. -/
def Takes (r : Pattern) (a : List Char) (groups : List (List Char)) (rest : List Char) : Prop :=
  ∀ prev, (ways r prev (a ++ rest)).head? = some ⟨a, groups, rest⟩

variable {p : Char → Bool} {r t : Pattern} {a b rest : List Char} {g g' : List (List Char)}

theorem takes_empty (rest : List Char) : Takes Pattern.empty [] [] rest := fun _ => rfl

theorem head?_runs {least : ℕ} : ∀ {a : List Char} (_ : ∀ c ∈ a, p c = true)
    (_ : ∀ c ∈ rest.head?, p c = false) (_ : least ≤ a.length),
    (runs p least (a ++ rest)).head? = some (a, rest)
  | [], _, hrest, hleast => by
      obtain rfl := Nat.le_zero.mp hleast
      cases rest with
      | nil => rfl
      | cons c s => rw [List.nil_append, runs, hrest c rfl]; rfl
  | c :: a, ha, hrest, hleast => by
      have ih : (runs p (least - 1) (a ++ rest)).head? = some (a, rest) :=
        head?_runs (fun d hd => ha d (List.mem_cons_of_mem _ hd)) hrest
          (Nat.sub_le_of_le_add hleast)
      rw [List.cons_append, runs, if_pos (ha c List.mem_cons_self), List.head?_append,
        List.head?_map, ih]
      rfl

/-- A greedy run takes all it can. -/
theorem takes_many {least : ℕ} (ha : ∀ c ∈ a, p c = true) (hrest : ∀ c ∈ rest.head?, p c = false)
    (hleast : least ≤ a.length) : Takes (Pattern.many p least) a [] rest := by
  intro prev
  rw [ways, List.head?_map, head?_runs ha hrest hleast]
  rfl

theorem takes_opt {c : Char} (hc : p c = true) (rest : List Char) :
    Takes (Pattern.opt p) [c] [] rest := by
  intro prev
  rw [List.singleton_append, ways, if_pos hc]
  rfl

theorem takes_oneOf {w : List Char} {u t : List (List Char)}
    (hu : ∀ v ∈ u, ¬ v <+: w ++ rest) :
    Takes (Pattern.oneOf (u ++ w :: t)) w [] rest := by
  intro prev
  have hnone : u.filterMap (fun v => if v <+: w ++ rest
      then some (⟨v, [], (w ++ rest).drop v.length⟩ : Found) else none) = [] :=
    List.filterMap_eq_nil_iff.mpr fun v hv => if_neg (hu v hv)
  rw [ways, List.filterMap_append, hnone, List.nil_append, List.filterMap_cons,
    if_pos (List.prefix_append w rest), List.drop_left]
  rfl

theorem takes_word (w : String) (rest : List Char) : Takes (Pattern.word w) w.toList [] rest :=
  takes_oneOf (u := []) fun _ h => absurd h List.not_mem_nil

theorem Takes.group (h : Takes r a g rest) : Takes (Pattern.group r) a (a :: g) rest := by
  intro prev
  rw [ways, List.head?_map, h prev]
  rfl

theorem head?_ways_seq {prev : Option Char} {s : List Char} {f f' : Found}
    (h : (ways r prev s).head? = some f)
    (h' : (ways t (after prev f.text) f.rest).head? = some f') :
    (ways (Pattern.seq r t) prev s).head?
      = some ⟨f.text ++ f'.text, f.groups ++ f'.groups, f'.rest⟩ := by
  obtain ⟨fs, hfs⟩ := List.head?_eq_some_iff.mp h
  rw [ways, hfs, List.flatMap_cons, List.head?_append, List.head?_map, h']
  rfl

theorem Takes.seq (h : Takes r a g (b ++ rest)) (h' : Takes t b g' rest) :
    Takes (Pattern.seq r t) (a ++ b) (g ++ g') rest := by
  intro prev
  rw [List.append_assoc]
  exact head?_ways_seq (h prev) (h' _)

/-- The last pattern of a sequence. -/
theorem Takes.single (h : Takes r a g rest) : Takes (Pattern.cat [r]) a g rest := by
  have hseq := Takes.seq (b := []) h (takes_empty rest)
  rwa [List.append_nil, List.append_nil] at hseq

/-! ## Backtracking -/

/-- A run goes on by one character, or what follows it is tried. -/
theorem ways_many_seq (prev : Option Char) (c : Char) (s : List Char) :
    ways (Pattern.seq (Pattern.many p 0) t) prev (c :: s)
      = (if p c then (ways (Pattern.seq (Pattern.many p 0) t) (some c) s).map
          fun f => { f with text := c :: f.text } else []) ++ ways t prev (c :: s) := by
  have hstop : (ways t (after prev []) (c :: s)).map
      (fun f => (⟨[] ++ f.text, [] ++ f.groups, f.rest⟩ : Found)) = ways t prev (c :: s) :=
    List.map_id _
  rw [ways, ways, runs, if_pos rfl, List.map_append, List.flatMap_append]
  refine congrArg₂ (· ++ ·) ?_ ((List.append_nil _).trans hstop)
  split
  · rw [ways, ways, List.flatMap_map, List.map_flatMap, List.flatMap_map, List.flatMap_map]
    refine List.flatMap_congr fun x _ => ?_
    dsimp only
    rw [after_cons, List.map_map]
    rfl
  · rfl

theorem ways_many_seq_eq_nil : ∀ {s : List Char} (_ : ∀ v, v <:+ s → ∀ prev, ways t prev v = [])
    (prev : Option Char), ways (Pattern.seq (Pattern.many p 0) t) prev s = []
  | [], h, prev => by
      have hnil := h [] List.suffix_rfl prev
      rw [ways, ways, runs, List.map_singleton, List.flatMap_singleton]
      exact List.map_eq_nil_iff.mpr hnil
  | c :: s, h, prev => by
      have ih := ways_many_seq_eq_nil (fun v hv => h v (hv.trans (List.suffix_cons c s))) (some c)
      rw [ways_many_seq, ih, h _ List.suffix_rfl prev, List.append_nil]
      split
      · rfl
      · rfl

/-- **Giving back.**  A run in front of a pattern that can only match at the end of `a` ends
there. -/
theorem takes_last (ha : ∀ c ∈ a, p c = true) (h : Takes t b g rest)
    (hlast : ∀ v, v <:+ (b ++ rest).tail → ∀ prev, ways t prev v = []) :
    Takes (Pattern.seq (Pattern.many p 0) t) (a ++ b) g rest := by
  induction a with
  | nil =>
      intro prev
      rw [List.nil_append]
      cases hs : b ++ rest with
      | nil =>
          have hmatch := h prev
          rw [hs] at hmatch
          rw [ways, ways, runs, List.map_singleton, List.flatMap_singleton, List.head?_map]
          exact (congrArg (Option.map _) hmatch).trans rfl
      | cons c s =>
          have hmatch := h prev
          rw [hs] at hmatch hlast
          rw [ways_many_seq, ways_many_seq_eq_nil (s := s) hlast]
          split
          · exact hmatch
          · exact hmatch
  | cons c a ih =>
      intro prev
      have hrest := ih (fun d hd => ha d (List.mem_cons_of_mem _ hd)) (some c)
      rw [List.cons_append, List.cons_append, ways_many_seq, if_pos (ha c List.mem_cons_self),
        List.head?_append, List.head?_map, hrest]
      rfl

/-! ## Words that are needed -/

theorem append_of_mem_runs : ∀ {least : ℕ} {s : List Char} {x : List Char × List Char},
    x ∈ runs p least s → x.1 ++ x.2 = s
  | 0, [], x, h => by
      rw [List.mem_singleton.mp h]
      rfl
  | _ + 1, [], _, h => absurd h List.not_mem_nil
  | least, c :: s, x, h => by
      rw [runs] at h
      rcases List.mem_append.mp h with h | h
      · split at h
        · obtain ⟨y, hy, rfl⟩ := List.mem_map.mp h
          exact congrArg (c :: ·) (append_of_mem_runs hy)
        · exact absurd h List.not_mem_nil
      · split at h
        · rw [List.mem_singleton.mp h]
          rfl
        · exact absurd h List.not_mem_nil

/-- A match and what follows it are the text. -/
theorem append_of_mem_ways : ∀ {r : Pattern} {prev : Option Char} {s : List Char} {f : Found},
    f ∈ ways r prev s → f.text ++ f.rest = s := by
  intro r
  induction r with
  | empty =>
      intro prev s f h
      rw [List.mem_singleton.mp h]
      rfl
  | many p least =>
      intro prev s f h
      obtain ⟨x, hx, rfl⟩ := List.mem_map.mp h
      exact append_of_mem_runs hx
  | opt p =>
      intro prev s f h
      cases s with
      | nil =>
          rw [List.mem_singleton.mp h]
          rfl
      | cons c s =>
          rw [ways] at h
          rcases List.mem_append.mp h with h | h
          · split at h
            · rw [List.mem_singleton.mp h]
              rfl
            · exact absurd h List.not_mem_nil
          · rw [List.mem_singleton.mp h]
            rfl
  | oneOf words =>
      intro prev s f h
      obtain ⟨w, -, hw⟩ := List.mem_filterMap.mp h
      split at hw
      · rename_i hstart
        rw [← Option.some.inj hw]
        exact List.prefix_iff_eq_append.mp hstart
      · exact absurd hw (by simp)
  | boundary =>
      intro prev s f h
      rw [ways] at h
      split at h
      · exact absurd h List.not_mem_nil
      · rw [List.mem_singleton.mp h]
        rfl
  | group r ih =>
      intro prev s f h
      obtain ⟨f', hf', rfl⟩ := List.mem_map.mp h
      have hpart : f'.text ++ f'.rest = s := ih hf'
      exact hpart
  | seq r t ihr iht =>
      intro prev s f h
      obtain ⟨f', hf', h⟩ := List.mem_flatMap.mp h
      obtain ⟨f'', hf'', rfl⟩ := List.mem_map.mp h
      have hrest := iht hf''
      rw [List.append_assoc, hrest]
      exact ihr hf'

/-- Whatever the pattern matches has one of the words in it. -/
def Needs (r : Pattern) (ws : List (List Char)) : Prop :=
  ∀ prev v, (∀ w ∈ ws, ¬ w <:+: v) → ways r prev v = []

variable {ws : List (List Char)}

theorem needs_oneOf (ws : List (List Char)) : Needs (Pattern.oneOf ws) ws := by
  intro prev v hv
  rw [ways]
  exact List.filterMap_eq_nil_iff.mpr fun w hw => if_neg fun hstart => hv w hw hstart.isInfix

theorem Needs.group (h : Needs r ws) : Needs (Pattern.group r) ws := by
  intro prev v hv
  rw [ways, h prev v hv]
  rfl

theorem Needs.here (h : Needs r ws) (t : Pattern) : Needs (Pattern.seq r t) ws := by
  intro prev v hv
  rw [ways, h prev v hv]
  rfl

theorem Needs.later (r : Pattern) (h : Needs t ws) : Needs (Pattern.seq r t) ws := by
  intro prev v hv
  rw [ways, List.flatMap_eq_nil_iff]
  intro f hf
  rw [h _ f.rest fun w hw hocc => hv w hw ?_]
  · rfl
  · exact hocc.trans (append_of_mem_ways hf ▸ (List.suffix_append f.text f.rest).isInfix)

/-- **A pattern is not found if none of the words it needs occurs.** -/
theorem search_needs (hr : Needs r ws) : ∀ {s : List Char} (_ : ∀ w ∈ ws, ¬ w <:+: s)
    (prev : Option Char), search r prev s = none
  | [], h, prev => by
      rw [search, hr prev [] h]
      rfl
  | c :: s, h, prev => by
      have hrest : ∀ w ∈ ws, ¬ w <:+: s := fun w hw hocc =>
        h w hw (hocc.trans (List.infix_cons (List.infix_refl s)))
      rw [search, hr prev _ h, search_needs hr hrest (some c)]
      rfl

theorem exec_needs (hr : Needs r ws) {s : List Char} (h : ∀ w ∈ ws, ¬ w <:+: s) :
    exec r s = none := by
  rw [exec, search_needs hr h]
  rfl

/-! ## Where a word occurs -/

/-- Whatever the pattern matches begins with `w`. -/
def StartsWith (r : Pattern) (w : List Char) : Prop :=
  ∀ prev v, ¬ w <+: v → ways r prev v = []

variable {w : List Char}

theorem startsWith_word (w : String) : StartsWith (Pattern.word w) w.toList := by
  intro prev v hv
  rw [Pattern.word, ways, List.filterMap_cons, if_neg hv]
  rfl

theorem StartsWith.seq (h : StartsWith r w) (t : Pattern) : StartsWith (Pattern.seq r t) w := by
  intro prev v hv
  rw [ways, h prev v hv]
  rfl

/-- A boundary takes nothing. -/
theorem StartsWith.boundary (h : StartsWith t w) :
    StartsWith (Pattern.seq Pattern.boundary t) w := by
  intro prev v hv
  rw [ways, ways]
  split
  · rfl
  · rw [List.flatMap_singleton, h _ v hv]
    rfl

theorem ways_of_suffix (hr : StartsWith r w) {s : List Char} (h : ¬ w <:+: s) :
    ∀ v, v <:+ s → ∀ prev, ways r prev v = [] :=
  fun v hv prev => hr prev v fun hw => h (hw.isInfix.trans hv.isInfix)

theorem StartsWith.needs (h : StartsWith r w) : Needs r [w] :=
  fun prev v hv => h prev v fun hw => hv w List.mem_cons_self hw.isInfix

/-- **A word that does not occur is not found.** -/
theorem search_eq_none (hr : StartsWith r w) {s : List Char} (h : ¬ w <:+: s)
    (prev : Option Char) : search r prev s = none :=
  search_needs hr.needs (fun v hv => by rw [List.mem_singleton.mp hv]; exact h) prev

/-- The word does not begin earlier than in `pre ++ w`. -/
theorem not_prefix_of_first {v s : List Char} (hv : v ≠ []) (h : ¬ w <:+: v ++ w.dropLast) :
    ¬ w <+: v ++ (w ++ s) := by
  intro hw
  have hpart : v ++ w.dropLast <+: v ++ (w ++ s) :=
    (List.prefix_append_right_inj v).mpr ((List.dropLast_prefix w).trans (List.prefix_append w s))
  have hlen : w.length ≤ (v ++ w.dropLast).length := by
    have hpos := List.length_pos_iff.mpr hv
    rw [List.length_append, List.length_dropLast]
    omega
  exact h (List.prefix_of_prefix_length_le hw hpart hlen).isInfix

/-- **A word is found where it first occurs.** -/
theorem search_at (hr : StartsWith r w) {s : List Char} {f : Found} :
    ∀ {pre : List Char} (_ : ¬ w <:+: pre ++ w.dropLast) {prev : Option Char}
      (_ : (ways r (after prev pre) (w ++ s)).head? = some f),
      search r prev (pre ++ (w ++ s)) = some f
  | [], _, prev, h => by
      rw [List.nil_append]
      cases hs : w ++ s with
      | nil =>
          rw [hs] at h
          exact h
      | cons c v =>
          rw [hs] at h
          rw [search, show (ways r prev (c :: v)).head? = some f from h]
          rfl
  | c :: pre, hpre, prev, h => by
      have hhead : ways r prev (c :: pre ++ (w ++ s)) = [] :=
        hr _ _ (not_prefix_of_first (List.cons_ne_nil c pre) hpre)
      rw [List.cons_append] at hhead ⊢
      rw [search, hhead]
      refine search_at hr (fun hw => hpre ?_) (after_cons prev c pre ▸ h)
      exact hw.trans (List.infix_cons (List.infix_refl _))

theorem test_eq_false (hr : StartsWith r w) {s : List Char} (h : ¬ w <:+: s) :
    test r s = false := by
  rw [test, search_eq_none hr h]
  rfl

theorem exec_eq_none (hr : StartsWith r w) {s : List Char} (h : ¬ w <:+: s) : exec r s = none := by
  rw [exec, search_eq_none hr h]
  rfl

theorem exec_at (hr : StartsWith r w) {pre : List Char} (hpre : ¬ w <:+: pre ++ w.dropLast)
    (ha : Takes r (w ++ a) g rest) : exec r (pre ++ (w ++ (a ++ rest))) = some g := by
  have hmatch := ha (after none pre)
  rw [List.append_assoc] at hmatch
  rw [exec, search_at hr hpre hmatch]
  rfl

/-- A word that must stand behind a boundary. -/
theorem test_boundary {v : String} {pre s : List Char} {f : Found}
    (hpre : ¬ v.toList <:+: pre ++ v.toList.dropLast)
    (hbefore : (after none pre).any isWord = false) (hv : v.toList.head?.any isWord = true)
    (hr : (ways r v.toList.getLast? s).head? = some f) :
    test (Pattern.seq Pattern.boundary (Pattern.seq (Pattern.word v) r)) (pre ++ (v.toList ++ s))
      = true := by
  obtain ⟨c, cs, hcs⟩ : ∃ c cs, v.toList = c :: cs := by
    cases hlist : v.toList with
    | nil =>
        rw [hlist] at hv
        exact absurd hv Bool.false_ne_true
    | cons c cs => exact ⟨c, cs, rfl⟩
  have hhead : (v.toList ++ s).head?.any isWord = true := by
    rw [hcs] at hv ⊢
    exact hv
  have hbound : ways Pattern.boundary (after none pre) (v.toList ++ s)
      = [⟨[], [], v.toList ++ s⟩] := by
    rw [ways, hbefore, hhead, if_neg Bool.false_ne_true]
  have hlast : after (after (after none pre) []) v.toList = v.toList.getLast? := by
    rw [after, hcs, List.getLast?_cons]
    rfl
  have hword := head?_ways_seq (t := r) (takes_word v s (after (after none pre) []))
    (hlast.symm ▸ hr)
  have hstarts := ((startsWith_word v).seq r).boundary
  rw [test, search_at hstarts hpre (head?_ways_seq (congrArg List.head? hbound) hword)]
  rfl

/-- What does not occur among some of the characters does not occur. -/
theorem not_infix_of_filter (k : Char → Bool) {s : List Char}
    (h : ¬ w.filter k <:+: s.filter k) : ¬ w <:+: s :=
  fun hw => h (hw.filter k)

/-- A word does not reach over a character that it does not have. -/
theorem infix_of_not_mem {u v : List Char} {c : Char} (hc : c ∉ w) (h : w <:+: u ++ c :: v) :
    w <:+: u ∨ w <:+: v := by
  obtain ⟨before, behind, heq⟩ := h
  rw [List.append_assoc] at heq
  rcases List.append_eq_append_iff.mp heq with ⟨x, rfl, hx⟩ | ⟨x, rfl, hx⟩
  · rcases List.append_eq_append_iff.mp hx with ⟨y, rfl, -⟩ | ⟨y, rfl, hy⟩
    · exact Or.inl ⟨before, y, by rw [List.append_assoc]⟩
    · cases y with
      | nil => exact Or.inl ⟨before, [], by rw [List.append_nil, List.append_nil]⟩
      | cons d y =>
          obtain ⟨rfl, -⟩ := List.cons.inj hy
          exact absurd (List.mem_append_right x List.mem_cons_self) hc
  · cases x with
    | nil =>
        cases w with
        | nil => exact Or.inl (List.nil_infix)
        | cons d w =>
            obtain ⟨rfl, -⟩ := List.cons.inj hx
            exact absurd List.mem_cons_self hc
    | cons d x =>
        obtain ⟨-, rfl⟩ := List.cons.inj hx
        exact Or.inr ⟨x, behind, List.append_assoc x w behind⟩

end Regex
