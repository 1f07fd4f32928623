import HotpathIpc.Library.Fallible
import HotpathIpc.Library.Scan
import HotpathIpc.Strategy.Json

/-!
# What the JSON reader reads

The reader of `mini_json` shares one cursor between its functions, and its two loops have no exit
at the end of the input.

* `Reads` — the reader as a relation, without bounds.  What is read advances the cursor, to at most
  four bytes past the end.
* `parseValue_reads`, `Reads.parseValue_eq` — the relation is what `parseValue` computes, under
  every bound that is above the bytes left.
* `parseValue_not_panic` — under such a bound nothing panics.
-/

namespace HotpathIpc

namespace MiniJson

variable {F : Type} [F64 F] {b : List UInt8}

/-! ## The cursor -/

theorem le_skipWs (b : List UInt8) (i : ℕ) : i ≤ skipWs b i := Nat.le_add_right _ _

theorem skipWs_skipWs (i : ℕ) : skipWs b (skipWs b i) = skipWs b i := Scan.scan_scan i

/-- Whitespace and a comma are behind the cursor. -/
theorem le_skip (b : List UInt8) (i : ℕ) : i ≤ skipComma b (skipWs b i) := by
  have hle := le_skipWs b i
  rw [skipComma]
  split
  · exact Nat.le_succ_of_le hle
  · exact hle

theorem scanStr_quote : ∀ s : List UInt8, scanStr ('"'.toUInt8 :: s) = ([], 0)
  | [] => rfl
  | _ :: _ => rfl

theorem scanStr_escape (d : UInt8) (s : List UInt8) :
    scanStr ('\\'.toUInt8 :: d :: s) = (escaped d :: (scanStr s).1, (scanStr s).2 + 2) := by
  rw [scanStr, if_neg (by decide), if_pos rfl]

/-- A backslash at the very end is a character. -/
theorem scanStr_plain {c : UInt8} (hquote : c ≠ '"'.toUInt8) :
    ∀ {s : List UInt8}, (c = '\\'.toUInt8 → s = []) →
      scanStr (c :: s) = (Char.ofUInt8 c :: (scanStr s).1, (scanStr s).2 + 1)
  | [], _ => if_neg hquote
  | d :: s, h => by
      have hslash : c ≠ '\\'.toUInt8 := fun hc => by cases h hc
      rw [scanStr, if_neg hquote, if_neg hslash]

theorem scanStr_le : ∀ s : List UInt8, (scanStr s).2 ≤ s.length
  | [] => Nat.le_refl 0
  | [c] => by
      rw [scanStr]
      split
      · exact Nat.zero_le _
      · exact Nat.le_refl 1
  | c :: d :: s => by
      have hs := scanStr_le s
      have hds := scanStr_le (d :: s)
      rw [scanStr]
      rw [List.length_cons] at hds ⊢
      rw [List.length_cons]
      split
      · exact Nat.zero_le _
      · split
        · exact Nat.add_le_add_right hs 2
        · exact Nat.add_le_add_right hds 1

/-- A string ends after its first quote, at most one byte past the end. -/
theorem parseStr_ok {i j : ℕ} {s : String} (h : parseStr b i = .ok (s, j)) :
    skipWs b i < b.length ∧ skipWs b i < j ∧ j ≤ b.length + 1 := by
  dsimp only [parseStr] at h
  split at h
  · rename_i hquote
    have hlt := Scan.lt_length hquote
    have hle := scanStr_le (b.drop (skipWs b i + 1))
    rw [List.length_drop] at hle
    injection h with h
    injection h with hs hj
    omega
  · cases h

theorem parseNum_ok {i j : ℕ} {v : Json F} (h : parseNum b i = .ok (v, j)) :
    i < j ∧ j ≤ b.length := by
  dsimp only [parseNum] at h
  split at h
  · rename_i hslice
    split at h
    · rename_i x hx
      injection h with h
      injection h with hv hj
      refine ⟨?_, hj ▸ hslice.2⟩
      -- no number is empty
      by_contra hle
      rw [show i + ((b.drop i).takeWhile isNumByte).length - i = 0 by omega, List.take_zero] at hx
      cases hx
    · cases h
  · cases h

/-- A number that starts inside ends inside. -/
theorem parseNum_not_panic {i : ℕ} (h : i ≤ b.length) :
    (parseNum b i : Except ParseError (Json F × ℕ)) ≠ .error ParseError.panic := by
  have hle := ((b.drop i).takeWhile_sublist isNumByte).length_le
  rw [List.length_drop] at hle
  dsimp only [parseNum]
  rw [if_pos ⟨Nat.le_add_right _ _, by omega⟩]
  intro hpanic
  split at hpanic
  · cases hpanic
  · cases hpanic

theorem parseStr_not_panic (i : ℕ) : parseStr b i ≠ .error ParseError.panic := by
  dsimp only [parseStr]
  intro hpanic
  split at hpanic
  · cases hpanic
  · cases hpanic

/-! ## The reader as a relation -/

/-- What the reader is in the middle of. -/
inductive Task (F : Type) where
  | value
  | members (m : List (String × Json F))
  | elements (a : List (Json F))

/-- At work on a task at a cursor, the reader returns a value and leaves the cursor after it. -/
inductive Reads (b : List UInt8) : Task F → ℕ → Json F → ℕ → Prop
  /-- All values without brackets: nothing nests, so the least bound will do. -/
  | leaf {i : ℕ} {c : UInt8} {v : Json F} {j : ℕ} : b[skipWs b i]? = some c → c ≠ '{'.toUInt8 →
      c ≠ '['.toUInt8 → parseValue b 1 i = .ok (v, j) → Reads b Task.value i v j
  | obj {i : ℕ} {v : Json F} {j : ℕ} : b[skipWs b i]? = some '{'.toUInt8 →
      Reads b (Task.members []) (skipWs b i + 1) v j → Reads b Task.value i v j
  | arr {i : ℕ} {v : Json F} {j : ℕ} : b[skipWs b i]? = some '['.toUInt8 →
      Reads b (Task.elements []) (skipWs b i + 1) v j → Reads b Task.value i v j
  | closeObj {m : List (String × Json F)} {i : ℕ} : b[skipWs b i]? = some '}'.toUInt8 →
      Reads b (Task.members m) i (Json.obj m) (skipWs b i + 1)
  | member {m : List (String × Json F)} {i : ℕ} {key : String} {j : ℕ} {val : Json F} {k : ℕ}
      {v : Json F} {l : ℕ} : b[skipWs b i]? ≠ some '}'.toUInt8 →
      parseStr b (skipWs b i) = .ok (key, j) → b[skipWs b j]? = some ':'.toUInt8 →
      Reads b Task.value (skipWs b j + 1) val k →
      Reads b (Task.members (Json.insert m key val)) (skipComma b (skipWs b k)) v l →
      Reads b (Task.members m) i v l
  | closeArr {a : List (Json F)} {i : ℕ} : b[skipWs b i]? = some ']'.toUInt8 →
      Reads b (Task.elements a) i (Json.arr a) (skipWs b i + 1)
  | element {a : List (Json F)} {i : ℕ} {val : Json F} {j : ℕ} {v : Json F} {k : ℕ} :
      b[skipWs b i]? ≠ some ']'.toUInt8 → Reads b Task.value (skipWs b i) val j →
      Reads b (Task.elements (a ++ [val])) (skipComma b (skipWs b j)) v k →
      Reads b (Task.elements a) i v k

/-- The reader on a value that starts with this byte, no bracket. -/
theorem parseValue_leaf {i : ℕ} {c : UInt8} (h : b[skipWs b i]? = some c) (hobj : c ≠ '{'.toUInt8)
    (harr : c ≠ '['.toUInt8) (bound : ℕ) :
    (parseValue b (bound + 1) i : Except ParseError (Json F × ℕ)) = parseValue b 1 i := by
  rw [parseValue, parseValue, h]
  dsimp only
  rw [if_neg hobj, if_neg harr, if_neg hobj, if_neg harr]

theorem leaf_ok {i j : ℕ} {c : UInt8} {v : Json F} (hc : b[skipWs b i]? = some c)
    (hobj : c ≠ '{'.toUInt8) (harr : c ≠ '['.toUInt8) (h : parseValue b 1 i = .ok (v, j)) :
    skipWs b i < j ∧ j ≤ b.length + 4 := by
  have hlt := Scan.lt_length hc
  rw [parseValue, hc] at h
  dsimp only at h
  rw [if_neg hobj, if_neg harr] at h
  split at h
  · obtain ⟨⟨s, k⟩, hs, hvj⟩ := Fallible.map_eq_ok h
    have hstr := parseStr_ok hs
    rw [skipWs_skipWs] at hstr
    obtain ⟨-, rfl⟩ := Prod.mk.inj hvj
    omega
  · split at h
    · rw [parseBool, hc] at h
      dsimp only at h
      split at h
      · obtain ⟨-, rfl⟩ := Prod.mk.inj (Except.ok.inj h)
        omega
      · obtain ⟨-, rfl⟩ := Prod.mk.inj (Except.ok.inj h)
        omega
    · split at h
      · obtain ⟨-, rfl⟩ := Prod.mk.inj (Except.ok.inj h)
        omega
      · have hnum := parseNum_ok h
        omega

theorem leaf_not_panic {i : ℕ} {c : UInt8} (hc : b[skipWs b i]? = some c)
    (hobj : c ≠ '{'.toUInt8) (harr : c ≠ '['.toUInt8) :
    (parseValue b 1 i : Except ParseError (Json F × ℕ)) ≠ .error ParseError.panic := by
  have hlt := Scan.lt_length hc
  rw [parseValue, hc]
  dsimp only
  rw [if_neg hobj, if_neg harr]
  split
  · intro hpanic
    exact parseStr_not_panic _ (Fallible.map_eq_error hpanic)
  · split
    · rw [parseBool, hc]
      dsimp only
      split
      · exact fun hpanic => by cases hpanic
      · exact fun hpanic => by cases hpanic
    · split
      · exact fun hpanic => by cases hpanic
      · exact parseNum_not_panic hlt.le

/-- What is read advances the cursor, by a literal to at most four bytes past the end. -/
theorem Reads.advances {task : Task F} {i j : ℕ} {v : Json F} (h : Reads b task i v j) :
    i < j ∧ j ≤ b.length + 4 := by
  induction h with
  | @leaf i c v j hc hobj harr h =>
      have hle := le_skipWs b i
      have hok := leaf_ok hc hobj harr h
      omega
  | @obj i v j hc _ ih =>
      have hle := le_skipWs b i
      omega
  | @arr i v j hc _ ih =>
      have hle := le_skipWs b i
      omega
  | @closeObj m i hc =>
      have hle := le_skipWs b i
      have hlt := Scan.lt_length hc
      omega
  | @member m i key j val k v l _ hkey _ _ _ ihval ih =>
      have hle := le_skipWs b i
      have hle' := le_skipWs b j
      have hle'' := le_skip b k
      have hstr := parseStr_ok hkey
      rw [skipWs_skipWs] at hstr
      omega
  | @closeArr a i hc =>
      have hle := le_skipWs b i
      have hlt := Scan.lt_length hc
      omega
  | @element a i val j v k _ _ _ ihval ih =>
      have hle := le_skipWs b i
      have hle' := le_skip b j
      omega

/-- Nothing is read from the end of the text on. -/
theorem Reads.starts {task : Task F} {i j : ℕ} {v : Json F} (h : Reads b task i v j) :
    skipWs b i < b.length := by
  induction h with
  | leaf hc _ _ _ => exact Scan.lt_length hc
  | obj hc _ _ => exact Scan.lt_length hc
  | arr hc _ _ => exact Scan.lt_length hc
  | closeObj hc => exact Scan.lt_length hc
  | @member m i key j val k v l _ hkey _ _ _ _ _ =>
      rw [← skipWs_skipWs]
      exact (parseStr_ok hkey).1
  | closeArr hc => exact Scan.lt_length hc
  | @element a i val j v k _ _ _ ihval _ =>
      rw [← skipWs_skipWs]
      exact ihval

/-! ## The bounds -/

section Loops

variable {pv : ℕ → Except ParseError (Json F × ℕ)}

theorem parseMembers_reads (hpv : ∀ i v j, pv i = .ok (v, j) → Reads b Task.value i v j) :
    ∀ bound m i v j, parseMembers b pv bound m i = .ok (v, j) → Reads b (Task.members m) i v j
  | 0, _, _, _, _, h => by cases h
  | bound + 1, m, i, v, j, h => by
      dsimp only [parseMembers] at h
      split at h
      · rename_i hclose
        obtain ⟨rfl, rfl⟩ := Prod.mk.inj (Except.ok.inj h)
        exact Reads.closeObj hclose
      · rename_i hclose
        obtain ⟨⟨key, k⟩, hkey, h⟩ := Fallible.bind_eq_ok h
        dsimp only at h
        split at h
        · rename_i hcolon
          obtain ⟨⟨val, l⟩, hval, h⟩ := Fallible.bind_eq_ok h
          exact Reads.member hclose hkey hcolon (hpv _ _ _ hval)
            (parseMembers_reads hpv bound _ _ v j h)
        · cases h

theorem parseElements_reads (hpv : ∀ i v j, pv i = .ok (v, j) → Reads b Task.value i v j) :
    ∀ bound a i v j, parseElements b pv bound a i = .ok (v, j) →
      Reads b (Task.elements a) i v j
  | 0, _, _, _, _, h => by cases h
  | bound + 1, a, i, v, j, h => by
      dsimp only [parseElements] at h
      split at h
      · rename_i hclose
        obtain ⟨rfl, rfl⟩ := Prod.mk.inj (Except.ok.inj h)
        exact Reads.closeArr hclose
      · rename_i hclose
        obtain ⟨⟨val, k⟩, hval, h⟩ := Fallible.bind_eq_ok h
        exact Reads.element hclose (hpv _ _ _ hval) (parseElements_reads hpv bound _ _ v j h)

omit [F64 F] in
/-- A loop with a bound above the bytes left ends before the bound: each round takes a byte. -/
theorem parseMembers_not_panic {start : ℕ}
    (hpv : ∀ i v j, pv i = .ok (v, j) → i < j)
    (hpanic : ∀ i, start ≤ i → pv i ≠ .error ParseError.panic) :
    ∀ bound m i, 1 ≤ bound → b.length < bound + i → start ≤ i →
      parseMembers b pv bound m i ≠ .error ParseError.panic
  | 0, _, _, hbound, _, _ => absurd hbound (by omega)
  | bound + 1, m, i, _, hlen, hfrom => by
      have hle := le_skipWs b i
      dsimp only [parseMembers]
      split
      · exact fun hpanic => by cases hpanic
      · intro h
        rcases Fallible.bind_eq_error h with h | ⟨⟨key, k⟩, hkey, h⟩
        · exact parseStr_not_panic _ h
        · have hstr := parseStr_ok hkey
          have hle' := le_skipWs b k
          rw [skipWs_skipWs] at hstr
          dsimp only at h
          split at h
          · rcases Fallible.bind_eq_error h with h | ⟨⟨val, l⟩, hval, h⟩
            · exact hpanic _ (by omega) h
            · have hval := hpv _ _ _ hval
              have hle'' := le_skip b l
              dsimp only at h
              exact parseMembers_not_panic hpv hpanic bound _ _ (by omega) (by omega) (by omega) h
          · cases h

omit [F64 F] in
theorem parseElements_not_panic {start : ℕ}
    (hpv : ∀ i v j, pv i = .ok (v, j) → skipWs b i < b.length ∧ i < j)
    (hpanic : ∀ i, start ≤ i → pv i ≠ .error ParseError.panic) :
    ∀ bound a i, 1 ≤ bound → b.length < bound + i → start ≤ i →
      parseElements b pv bound a i ≠ .error ParseError.panic
  | 0, _, _, hbound, _, _ => absurd hbound (by omega)
  | bound + 1, a, i, _, hlen, hfrom => by
      have hle := le_skipWs b i
      dsimp only [parseElements]
      split
      · exact fun hpanic => by cases hpanic
      · intro h
        rcases Fallible.bind_eq_error h with h | ⟨⟨val, k⟩, hval, h⟩
        · exact hpanic _ (by omega) h
        · have hval := hpv _ _ _ hval
          have hle' := le_skip b k
          rw [skipWs_skipWs] at hval
          dsimp only at h
          exact parseElements_not_panic hpv hpanic bound _ _ (by omega) (by omega) (by omega) h

end Loops

theorem parseValue_reads : ∀ bound i v j, (parseValue b bound i : Except ParseError (Json F × ℕ))
    = .ok (v, j) → Reads b Task.value i v j
  | 0, _, _, _, h => by cases h
  | bound + 1, i, v, j, h => by
      have ih := parseValue_reads bound
      cases hc : b[skipWs b i]? with
      | none =>
          rw [parseValue, hc] at h
          cases h
      | some c =>
          by_cases hobj : c = '{'.toUInt8
          · rw [parseValue, hc] at h
            dsimp only at h
            rw [if_pos hobj] at h
            exact Reads.obj (hobj ▸ hc) (parseMembers_reads ih _ _ _ v j h)
          · by_cases harr : c = '['.toUInt8
            · rw [parseValue, hc] at h
              dsimp only at h
              rw [if_neg hobj, if_pos harr] at h
              exact Reads.arr (harr ▸ hc) (parseElements_reads ih _ _ _ v j h)
            · rw [parseValue_leaf hc hobj harr] at h
              exact Reads.leaf hc hobj harr h

/-- Under a bound above the bytes left nothing panics: every level takes a byte. -/
theorem parseValue_not_panic : ∀ bound i, 1 ≤ bound → b.length < bound + i →
    (parseValue b bound i : Except ParseError (Json F × ℕ)) ≠ .error ParseError.panic
  | 0, _, hbound, _ => absurd hbound (by omega)
  | bound + 1, i, _, hlen => by
      have ih := parseValue_not_panic bound
      cases hc : b[skipWs b i]? with
      | none =>
          rw [parseValue, hc]
          exact fun hpanic => by cases hpanic
      | some c =>
          have hle := le_skipWs b i
          have hlt := Scan.lt_length hc
          have hinner : ∀ k, skipWs b i + 1 ≤ k →
              (parseValue b bound k : Except ParseError (Json F × ℕ)) ≠ .error ParseError.panic :=
            fun k hk => ih k (by omega) (by omega)
          by_cases hobj : c = '{'.toUInt8
          · rw [parseValue, hc]
            dsimp only
            rw [if_pos hobj]
            exact parseMembers_not_panic (fun k v l h => (parseValue_reads _ k v l h).advances.1)
              hinner _ _ _ (by omega) (by omega) (Nat.le_refl _)
          · by_cases harr : c = '['.toUInt8
            · rw [parseValue, hc]
              dsimp only
              rw [if_neg hobj, if_pos harr]
              exact parseElements_not_panic
                (fun k v l h => ⟨(parseValue_reads _ k v l h).starts,
                  (parseValue_reads _ k v l h).advances.1⟩)
                hinner _ _ _ (by omega) (by omega) (Nat.le_refl _)
            · rw [parseValue_leaf hc hobj harr]
              exact leaf_not_panic hc hobj harr

/-- The reader at work on a task, with bounds on the nesting and on the rounds of the loop. -/
def Task.run (b : List UInt8) (nest loop : ℕ) :
    Task F → ℕ → Except ParseError (Json F × ℕ)
  | Task.value, i => parseValue b nest i
  | Task.members m, i => parseMembers b (parseValue b nest) loop m i
  | Task.elements a, i => parseElements b (parseValue b nest) loop a i

/-- The relation is what the reader computes, under all bounds above the bytes left. -/
theorem Reads.run_eq {task : Task F} {i j : ℕ} {v : Json F} (h : Reads b task i v j) :
    ∀ nest loop, 1 ≤ nest → 1 ≤ loop → b.length < nest + i → b.length < loop + i →
      task.run b nest loop i = .ok (v, j) := by
  induction h with
  | @leaf i c v j hc hobj harr h =>
      intro nest loop hnest _ _ _
      obtain ⟨n, rfl⟩ := Nat.exists_eq_add_of_le' hnest
      rw [Task.run, parseValue_leaf hc hobj harr, h]
  | @obj i v j hc _ ih =>
      intro nest loop hnest _ hlen _
      have hle := le_skipWs b i
      have hlt := Scan.lt_length hc
      obtain ⟨n, rfl⟩ := Nat.exists_eq_add_of_le' hnest
      rw [Task.run, parseValue, hc]
      exact ih n (b.length + 1) (by omega) (by omega) (by omega) (by omega)
  | @arr i v j hc _ ih =>
      intro nest loop hnest _ hlen _
      have hle := le_skipWs b i
      have hlt := Scan.lt_length hc
      obtain ⟨n, rfl⟩ := Nat.exists_eq_add_of_le' hnest
      rw [Task.run, parseValue, hc]
      exact ih n (b.length + 1) (by omega) (by omega) (by omega) (by omega)
  | @closeObj m i hc =>
      intro nest loop _ hloop _ _
      obtain ⟨n, rfl⟩ := Nat.exists_eq_add_of_le' hloop
      rw [Task.run, parseMembers]
      exact if_pos hc
  | @member m i key j val k v l hclose hkey hcolon hreads _ ihval ih =>
      intro nest loop hnest hloop hlen hlen'
      have hle := le_skipWs b i
      have hle' := le_skipWs b j
      have hle'' := le_skip b k
      have hstr := parseStr_ok hkey
      rw [skipWs_skipWs] at hstr
      obtain ⟨n, rfl⟩ := Nat.exists_eq_add_of_le' hloop
      have hadv := hreads.advances
      have hval := ihval nest (b.length + 1) hnest (by omega) (by omega) (by omega)
      have hrest := ih nest n hnest (by omega) (by omega) (by omega)
      dsimp only [Task.run] at hval hrest ⊢
      rw [parseMembers, if_neg hclose, hkey]
      dsimp only [bind, Except.bind]
      rw [if_pos hcolon, hval]
      exact hrest
  | @closeArr a i hc =>
      intro nest loop _ hloop _ _
      obtain ⟨n, rfl⟩ := Nat.exists_eq_add_of_le' hloop
      rw [Task.run, parseElements]
      exact if_pos hc
  | @element a i val j v k hclose hreads _ ihval ih =>
      intro nest loop hnest hloop hlen hlen'
      have hle := le_skipWs b i
      have hle' := le_skip b j
      have hstarts := hreads.starts
      have hadv := hreads.advances
      rw [skipWs_skipWs] at hstarts
      obtain ⟨n, rfl⟩ := Nat.exists_eq_add_of_le' hloop
      have hval := ihval nest (b.length + 1) hnest (by omega) (by omega) (by omega)
      have hrest := ih nest n hnest (by omega) (by omega) (by omega)
      dsimp only [Task.run] at hval hrest ⊢
      rw [parseElements, if_neg hclose, hval]
      exact hrest

end MiniJson

end HotpathIpc
