import HotpathIpc.Strategy.Reader

/-!
# Texts that are cut off

The reader accepts much that is no JSON: commas that are missing, strings that are not closed,
literals of the right length.  It still rejects every text that ends before the closing bracket of
its value.

* `scanStr_take`, `parseStr_take`, `leaf_take` — what is read before the cut is read without it.
* `Reads.of_take` — by induction over what is nested; only a loop can end at its bracket, and a
  loop that meets the end fails.
* **`truncated_rejected`** — a text cut off before its last bracket is an error.
-/

namespace HotpathIpc

/-- An array or an object. -/
def Json.Container {F : Type} (v : Json F) : Prop := (∃ a, v = Json.arr a) ∨ ∃ m, v = Json.obj m

namespace MiniJson

variable {F : Type} [F64 F] {b : List UInt8}

/-! ## Before the cut -/

theorem scanStr_take : ∀ (s : List UInt8) (m : ℕ), (scanStr (s.take m)).2 < m →
    scanStr s = scanStr (s.take m)
  | [], m, _ => by rw [List.take_nil]
  | c :: s, 0, h => absurd h (Nat.not_lt_zero _)
  | [c], m + 1, _ => by rw [List.take_succ_cons, List.take_nil]
  | c :: d :: s, 1, h => by
      rw [List.take_succ_cons, List.take_zero] at h ⊢
      by_cases hquote : c = '"'.toUInt8
      · rw [hquote, scanStr_quote, scanStr_quote]
      · rw [scanStr_plain hquote fun _ => rfl] at h
        exact absurd h (Nat.lt_irrefl 1)
  | c :: d :: s, m + 2, h => by
      rw [List.take_succ_cons] at h ⊢
      by_cases hquote : c = '"'.toUInt8
      · rw [hquote, scanStr_quote, scanStr_quote]
      · by_cases hslash : c = '\\'.toUInt8
        · rw [List.take_succ_cons, hslash, scanStr_escape] at h
          rw [List.take_succ_cons, hslash, scanStr_escape, scanStr_escape,
            scanStr_take s m (by dsimp only at h; omega)]
        · rw [scanStr_plain hquote (absurd · hslash)] at h
          rw [scanStr_plain hquote (absurd · hslash), scanStr_plain hquote (absurd · hslash),
            scanStr_take (d :: s) (m + 1) (by dsimp only at h; omega)]

section Cut

variable {n : ℕ}

theorem skipWs_take {i : ℕ} (h : skipWs (b.take n) i < n) : skipWs b i = skipWs (b.take n) i :=
  Scan.scan_take i h

theorem byte_eq_take {i : ℕ} (h : skipWs (b.take n) i < n) :
    b[skipWs b i]? = (b.take n)[skipWs (b.take n) i]? := by
  rw [skipWs_take h, List.getElem?_take, if_pos h]

/-- A byte that is seen after whitespace is seen without the cut. -/
theorem byte_take {i : ℕ} {c : UInt8} (h : (b.take n)[skipWs (b.take n) i]? = some c) :
    b[skipWs b i]? = some c := by
  obtain ⟨hlt, hc⟩ := Scan.getElem?_of_take h
  rwa [skipWs_take hlt]

/-- After a value, up to the next one. -/
theorem skip_take {i : ℕ} (h : skipComma (b.take n) (skipWs (b.take n) i) < n) :
    skipComma b (skipWs b i) = skipComma (b.take n) (skipWs (b.take n) i) ∧ i < n := by
  have hle := le_skipWs (b.take n) i
  have hlt : skipWs (b.take n) i < n := by
    rw [skipComma] at h
    split at h
    · omega
    · exact h
  rw [skipComma, skipComma, byte_eq_take hlt, skipWs_take hlt]
  exact ⟨rfl, by omega⟩

theorem parseStr_take {i j : ℕ} {s : String} (h : parseStr (b.take n) i = .ok (s, j))
    (hj : j ≤ n) : parseStr b i = .ok (s, j) := by
  dsimp only [parseStr] at h ⊢
  split at h
  · rename_i hquote
    have hlt := (Scan.getElem?_of_take hquote).1
    obtain ⟨rfl, rfl⟩ := Prod.mk.inj (Except.ok.inj h)
    rw [List.drop_take] at hj ⊢
    have hscan := scanStr_take (b.drop (skipWs (b.take n) i + 1)) (n - (skipWs (b.take n) i + 1))
      (by omega)
    rw [if_pos (byte_take hquote), skipWs_take hlt, hscan]
  · cases h

theorem parseNum_take {i j : ℕ} {v : Json F} (h : parseNum (b.take n) i = .ok (v, j))
    (hj : j < n) : parseNum b i = .ok (v, j) := by
  have hlen := parseNum_ok h
  rw [List.length_take] at hlen
  dsimp only [parseNum] at h ⊢
  rw [← Scan.scan] at h ⊢
  split at h
  · split at h
    · rename_i x hx
      obtain ⟨rfl, rfl⟩ := Prod.mk.inj (Except.ok.inj h)
      have hscan := Scan.scan_take i hj
      rw [List.drop_take, List.take_take, min_eq_left (by omega)] at hx
      rw [hscan, if_pos ⟨hlen.1.le, by omega⟩, hx]
    · cases h
  · cases h

theorem leaf_take {i j : ℕ} {c : UInt8} {v : Json F}
    (hc : (b.take n)[skipWs (b.take n) i]? = some c) (hobj : c ≠ '{'.toUInt8)
    (harr : c ≠ '['.toUInt8) (h : parseValue (b.take n) 1 i = .ok (v, j)) (hj : j < n) :
    parseValue b 1 i = .ok (v, j) := by
  have hlt := (Scan.getElem?_of_take hc).1
  rw [parseValue, hc] at h
  rw [parseValue, byte_take hc]
  dsimp only at h ⊢
  rw [if_neg hobj, if_neg harr] at h ⊢
  rw [skipWs_take hlt]
  split at h
  · rename_i hquote
    obtain ⟨⟨s, k⟩, hs, hvj⟩ := Fallible.map_eq_ok h
    obtain ⟨-, rfl⟩ := Prod.mk.inj hvj
    rw [if_pos hquote, parseStr_take hs hj.le]
    exact congrArg Except.ok hvj
  · rename_i hquote
    rw [if_neg hquote]
    split at h
    · rename_i hbool
      rw [if_pos hbool]
      rw [parseBool, hc] at h
      rw [parseBool, (Scan.getElem?_of_take hc).2]
      exact h
    · rename_i hbool
      rw [if_neg hbool]
      split at h
      · rename_i hnull
        rw [if_pos hnull, h]
      · rename_i hnull
        rw [if_neg hnull]
        exact parseNum_take h hj

end Cut

/-! ## Containers -/

/-- A value without brackets is no container. -/
theorem leaf_not_container {i j : ℕ} {c : UInt8} {v : Json F} (hc : b[skipWs b i]? = some c)
    (hobj : c ≠ '{'.toUInt8) (harr : c ≠ '['.toUInt8) (h : parseValue b 1 i = .ok (v, j)) :
    ¬ v.Container := by
  rw [parseValue, hc] at h
  dsimp only at h
  rw [if_neg hobj, if_neg harr] at h
  split at h
  · obtain ⟨⟨s, k⟩, -, hvj⟩ := Fallible.map_eq_ok h
    obtain ⟨rfl, -⟩ := Prod.mk.inj hvj
    simp [Json.Container]
  · split at h
    · rw [parseBool, hc] at h
      dsimp only at h
      split at h
      · obtain ⟨rfl, -⟩ := Prod.mk.inj (Except.ok.inj h)
        simp [Json.Container]
      · obtain ⟨rfl, -⟩ := Prod.mk.inj (Except.ok.inj h)
        simp [Json.Container]
    · split at h
      · obtain ⟨rfl, -⟩ := Prod.mk.inj (Except.ok.inj h)
        simp [Json.Container]
      · dsimp only [parseNum] at h
        split at h
        · split at h
          · obtain ⟨rfl, -⟩ := Prod.mk.inj (Except.ok.inj h)
            simp [Json.Container]
          · cases h
        · cases h

/-- A loop returns a container. -/
theorem Reads.container {task : Task F} {i j : ℕ} {v : Json F} (h : Reads b task i v j)
    (htask : task ≠ Task.value) : v.Container := by
  induction h with
  | leaf _ _ _ _ => exact absurd rfl htask
  | obj _ _ _ => exact absurd rfl htask
  | arr _ _ _ => exact absurd rfl htask
  | closeObj _ => exact Or.inr ⟨_, rfl⟩
  | member _ _ _ _ _ _ ih => exact ih (fun h => by cases h)
  | closeArr _ => exact Or.inl ⟨_, rfl⟩
  | element _ _ _ _ ih => exact ih (fun h => by cases h)

/-- A container ends with a bracket of the text. -/
theorem Reads.container_le {task : Task F} {i j : ℕ} {v : Json F} (h : Reads b task i v j)
    (hv : v.Container) : j ≤ b.length := by
  induction h with
  | leaf hc hobj harr h => exact absurd hv (leaf_not_container hc hobj harr h)
  | obj _ _ ih => exact ih hv
  | arr _ _ ih => exact ih hv
  | closeObj hc => exact Scan.lt_length hc
  | member _ _ _ _ _ _ ih => exact ih hv
  | closeArr hc => exact Scan.lt_length hc
  | element _ _ _ _ ih => exact ih hv

/-! ## Without the cut -/

/-- What is read from a text that is cut off, up to a bracket or to a place before the cut, is read
from the whole text. -/
theorem Reads.of_take {n : ℕ} {task : Task F} {i j : ℕ} {v : Json F}
    (h : Reads (b.take n) task i v j) (hj : v.Container ∨ j < n) : Reads b task i v j := by
  induction h with
  | leaf hc hobj harr h =>
      have hlt := hj.resolve_left (leaf_not_container hc hobj harr h)
      exact Reads.leaf (byte_take hc) hobj harr (leaf_take hc hobj harr h hlt)
  | obj hc hrest ih =>
      have hlt := (Scan.getElem?_of_take hc).1
      refine Reads.obj (byte_take hc) ?_
      rw [skipWs_take hlt]
      exact ih (Or.inl (hrest.container fun h => by cases h))
  | arr hc hrest ih =>
      have hlt := (Scan.getElem?_of_take hc).1
      refine Reads.arr (byte_take hc) ?_
      rw [skipWs_take hlt]
      exact ih (Or.inl (hrest.container fun h => by cases h))
  | @closeObj m i hc =>
      have hlt := (Scan.getElem?_of_take hc).1
      rw [← skipWs_take hlt]
      exact Reads.closeObj (byte_take hc)
  | @member m i key j val k v l hclose hkey hcolon hval hrest ihval ih =>
      have hlen : (b.take n).length ≤ n := List.length_take_le n b
      have hstr := parseStr_ok hkey
      rw [skipWs_skipWs] at hstr
      have hlt : skipWs (b.take n) i < n := by omega
      have hlt' := (Scan.getElem?_of_take hcolon).1
      have hle' := le_skipWs (b.take n) j
      -- the next round starts before the cut, and so does what this one leaves
      have hnext := le_skipWs (b.take n) (skipComma (b.take n) (skipWs (b.take n) k))
      have hstart := hrest.starts
      obtain ⟨hskip, hk⟩ := skip_take (b := b) (n := n) (i := k) (by omega)
      refine Reads.member ?_ ?_ (byte_take hcolon) ?_ (hskip ▸ ih hj)
      · rwa [byte_eq_take hlt]
      · rw [skipWs_take hlt]
        exact parseStr_take hkey (by omega)
      · rw [skipWs_take hlt']
        exact ihval (Or.inr hk)
  | @closeArr a i hc =>
      have hlt := (Scan.getElem?_of_take hc).1
      rw [← skipWs_take hlt]
      exact Reads.closeArr (byte_take hc)
  | @element a i val j v k hclose hval hrest ihval ih =>
      have hlen : (b.take n).length ≤ n := List.length_take_le n b
      have hstarts := hval.starts
      rw [skipWs_skipWs] at hstarts
      have hlt : skipWs (b.take n) i < n := by omega
      have hnext := le_skipWs (b.take n) (skipComma (b.take n) (skipWs (b.take n) j))
      have hstart := hrest.starts
      obtain ⟨hskip, hlt'⟩ := skip_take (b := b) (n := n) (i := j) (by omega)
      refine Reads.element ?_ ?_ (hskip ▸ ih hj)
      · rwa [byte_eq_take hlt]
      · rw [skipWs_take hlt]
        exact ihval (Or.inr hlt')

/-- Cut off before its last bracket, a container is not read at all. -/
theorem not_reads_take {n k j : ℕ} {v v' : Json F} (h : Reads b Task.value 0 v (k + 1))
    (hv : v.Container) (hn : n ≤ k) : ¬ Reads (b.take n) Task.value 0 v' j := by
  intro hcut
  by_cases hinside : v'.Container ∨ j < n
  · -- the whole text is read to the same place, before the cut
    have hsame := (hcut.of_take hinside).run_eq (b.length + 1) (b.length + 1) (by omega) (by omega)
      (by omega) (by omega)
    rw [h.run_eq _ _ (by omega) (by omega) (by omega) (by omega)] at hsame
    obtain ⟨rfl, rfl⟩ := Prod.mk.inj (Except.ok.inj hsame)
    have hle := hcut.container_le hv
    rw [List.length_take] at hle
    omega
  · -- the value starts before the cut, and not with a bracket
    obtain ⟨hleaf, -⟩ := not_or.mp hinside
    cases hcut with
    | obj _ hrest => exact hleaf (hrest.container fun h => by cases h)
    | arr _ hrest => exact hleaf (hrest.container fun h => by cases h)
    | leaf hc hobj harr _ =>
        have hwhole := byte_take hc
        cases h with
        | leaf hc' hobj' harr' h' => exact leaf_not_container hc' hobj' harr' h' hv
        | obj hc' _ => exact hobj (Option.some.inj (hwhole.symm.trans hc'))
        | arr hc' _ => exact harr (Option.some.inj (hwhole.symm.trans hc'))

end MiniJson

/-- **A text that is cut off is rejected.**  Where a text has an array or object that is closed by
the byte at `k`, every text of its first `n ≤ k` bytes is an error. -/
theorem truncated_rejected {F : Type} [F64 F] (json cut : String) (v : Json F) (k n : ℕ)
    (hread : MiniJson.parseValue json.toUTF8.data.toList (json.toUTF8.data.toList.length + 1) 0
      = .ok (v, k + 1))
    (hv : v.Container) (hcut : cut.toUTF8.data.toList = json.toUTF8.data.toList.take n)
    (hn : n ≤ k) :
    ∃ message, (MiniJson.parse cut : Except ParseError (Json F)) = .error (.error message) ∧
      (parse cut : Except ParseError (GraphSpec F)) = .error (.error message) := by
  have hreads := MiniJson.parseValue_reads _ _ _ _ hread
  cases hparse : (MiniJson.parse cut : Except ParseError (Json F)) with
  | ok v' =>
      dsimp only [MiniJson.parse] at hparse
      obtain ⟨⟨w, j⟩, hw, -⟩ := Fallible.map_eq_ok hparse
      rw [hcut] at hw
      exact absurd (MiniJson.parseValue_reads _ _ _ _ hw) (MiniJson.not_reads_take hreads hv hn)
  | error err =>
      cases err with
      | panic =>
          exact absurd (Fallible.map_eq_error hparse)
            (MiniJson.parseValue_not_panic _ 0 (by omega) (by omega))
      | error message =>
          refine ⟨message, rfl, ?_⟩
          rw [parse, hparse]
          rfl

/-- A mangled literal takes the bracket after it, and the next bracket is then the last. -/
theorem mangled_literal_rejected : letI : F64 ℚ := F64.exact id
    ∃ message, (parse "[nul]" : Except ParseError (GraphSpec ℚ)) = .error (.error message) := by
  let _ : F64 ℚ := F64.exact id
  obtain ⟨message, -, h⟩ := truncated_rejected "[nul]]" "[nul]"
    (Json.arr [Json.null] : Json ℚ) 5 5 rfl (Or.inl ⟨_, rfl⟩) rfl (by decide)
  exact ⟨message, h⟩

end HotpathIpc
