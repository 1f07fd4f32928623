import HotpathIpc.Strategy.Reader

/-!
# The JSON reader with every access checked

The scans of `Json.lean` cannot leave their text.  The source walks over bytes with an index, so
here is the reader once more, byte by byte: an access or a slice out of range panics, and so does
a loop that takes more rounds than there are bytes.

* `Checked.parseValue_eq` — the two readers are the same.
* **`parse_returns`** — on every text the reader returns a value or an error.
-/

namespace HotpathIpc

namespace MiniJson

namespace Checked

variable {F : Type} [F64 F] (b : List UInt8)

/-- `b[i]`. -/
def byte (i : ℕ) : Except ParseError UInt8 :=
  match b[i]? with
  | some c => .ok c
  | none => .error ParseError.panic

/-- `b[start..i]`. -/
def slice (start i : ℕ) : Except ParseError (List UInt8) :=
  if start ≤ i ∧ i ≤ b.length then .ok ((b.drop start).take (i - start))
  else .error ParseError.panic

/-- `i < b.len() && p(b[i])`. -/
def sees (p : UInt8 → Bool) (i : ℕ) : Except ParseError Bool :=
  if i < b.length then (byte b i).map p else .ok false

/-- `while i < b.len() && p(b[i]) { i += 1; }`. -/
def skipWhile (p : UInt8 → Bool) : ℕ → ℕ → Except ParseError ℕ
  | 0, _ => .error ParseError.panic
  | bound + 1, i => do
      if ← sees b p i then skipWhile p bound (i + 1) else .ok i

def skipWs (i : ℕ) : Except ParseError ℕ := skipWhile b isWhitespace (b.length + 1) i

/-- The loop of `parse_str`. -/
def strLoop : ℕ → List Char → ℕ → Except ParseError (List Char × ℕ)
  | 0, _, _ => .error ParseError.panic
  | bound + 1, s, i => do
      if ← sees b (· ≠ '"'.toUInt8) i then
        let c ← byte b i
        if c = '\\'.toUInt8 ∧ i + 1 < b.length then
          let d ← byte b (i + 1)
          strLoop bound (s ++ [escaped d]) (i + 1 + 1)
        else
          let c ← byte b i
          strLoop bound (s ++ [Char.ofUInt8 c]) (i + 1)
      else .ok (s, i)

def parseStr (i : ℕ) : Except ParseError (String × ℕ) := do
  let i ← skipWs b i
  if ← sees b (· = '"'.toUInt8) i then
    let (s, i) ← strLoop b (b.length + 1) [] (i + 1)
    .ok (String.ofList s, i + 1)
  else .error (ParseError.error "expected string")

def parseBool (i : ℕ) : Except ParseError (Json F × ℕ) := do
  let c ← byte b i
  if c = 't'.toUInt8 then .ok (Json.bool true, i + 4) else .ok (Json.bool false, i + 5)

def parseNum (start : ℕ) : Except ParseError (Json F × ℕ) := do
  let i ← skipWhile b isNumByte (b.length + 1) start
  let s ← slice b start i
  match Decimal.parseF64 s with
  | some x => .ok (Json.num x, i)
  | none => .error (ParseError.error "bad number")

/-- A comma is optional. -/
def skipComma (i : ℕ) : Except ParseError ℕ := do
  if ← sees b (· = ','.toUInt8) i then .ok (i + 1) else .ok i

section Loops

variable (parseValue : ℕ → Except ParseError (Json F × ℕ))

def parseMembers : ℕ → List (String × Json F) → ℕ → Except ParseError (Json F × ℕ)
  | 0, _, _ => .error ParseError.panic
  | bound + 1, m, i => do
      let i ← skipWs b i
      if ← sees b (· = '}'.toUInt8) i then .ok (Json.obj m, i + 1)
      else
        let (key, i) ← parseStr b i
        let i ← skipWs b i
        if ← sees b (· = ':'.toUInt8) i then
          let (val, i) ← parseValue (i + 1)
          let i ← skipWs b i
          let i ← skipComma b i
          parseMembers bound (Json.insert m key val) i
        else .error (ParseError.error "expected :")

def parseElements : ℕ → List (Json F) → ℕ → Except ParseError (Json F × ℕ)
  | 0, _, _ => .error ParseError.panic
  | bound + 1, a, i => do
      let i ← skipWs b i
      if ← sees b (· = ']'.toUInt8) i then .ok (Json.arr a, i + 1)
      else
        let (val, i) ← parseValue i
        let i ← skipWs b i
        let i ← skipComma b i
        parseElements bound (a ++ [val]) i

end Loops

def parseValue : ℕ → ℕ → Except ParseError (Json F × ℕ)
  | 0, _ => .error ParseError.panic
  | bound + 1, i => do
      let i ← skipWs b i
      if i ≥ b.length then .error (ParseError.error "unexpected end")
      else
        let c ← byte b i
        if c = '{'.toUInt8 then parseMembers b (parseValue bound) (b.length + 1) [] (i + 1)
        else if c = '['.toUInt8 then parseElements b (parseValue bound) (b.length + 1) [] (i + 1)
        else if c = '"'.toUInt8 then do
          let r ← parseStr b i
          .ok (Json.str r.1, r.2)
        else if c = 't'.toUInt8 ∨ c = 'f'.toUInt8 then parseBool b i
        else if c = 'n'.toUInt8 then .ok (Json.null, i + 4)
        else parseNum b i

def parse (s : String) : Except ParseError (Json F) := do
  let b := s.toUTF8.data.toList
  let r ← parseValue b (b.length + 1) 0
  .ok r.1

/-! ## No check fails -/

variable {b}

theorem byte_eq {i : ℕ} {c : UInt8} (h : b[i]? = some c) : byte b i = .ok c := by
  rw [byte, h]

theorem sees_eq (p : UInt8 → Bool) (i : ℕ) : sees b p i = .ok (b[i]?.any p) := by
  rw [sees]
  by_cases hlt : i < b.length
  · rw [if_pos hlt, byte_eq (List.getElem?_eq_getElem hlt), List.getElem?_eq_getElem hlt]
    rfl
  · rw [if_neg hlt, List.getElem?_eq_none (by omega)]
    rfl

/-- `p` is the test for one byte. -/
theorem sees_byte (c : UInt8) (i : ℕ) : sees b (· = c) i = .ok (decide (b[i]? = some c)) := by
  rw [sees_eq]
  cases b[i]? with
  | none => rfl
  | some d => simp

theorem skipWhile_eq (p : UInt8 → Bool) (i : ℕ) : ∀ bound, 1 ≤ bound → b.length < bound + i →
    skipWhile b p bound i = .ok (Scan.scan p b i) := by
  induction i using Scan.scan_induct p b with
  | stop i hstop =>
      intro bound hbound _
      obtain ⟨n, rfl⟩ := Nat.exists_eq_add_of_le' hbound
      have hnot : b[i]?.any p = false := by
        cases hx : b[i]? with
        | none => rfl
        | some x => exact hstop x hx
      rw [skipWhile, sees_eq, hnot, Scan.scan_stop hstop]
      rfl
  | step i x hx hp ih =>
      intro bound hbound hlen
      have hlt := Scan.lt_length hx
      obtain ⟨n, rfl⟩ := Nat.exists_eq_add_of_le' hbound
      have hsees : b[i]?.any p = true := by rw [hx]; exact hp
      rw [skipWhile, sees_eq, hsees, Scan.scan_step hx hp]
      exact ih n (by omega) (by omega)

theorem skipWs_ok (i : ℕ) : skipWs b i = .ok (MiniJson.skipWs b i) :=
  skipWhile_eq isWhitespace i (b.length + 1) (by omega) (by omega)

theorem skipComma_ok (i : ℕ) : skipComma b i = .ok (MiniJson.skipComma b i) := by
  rw [skipComma, sees_byte, MiniJson.skipComma]
  by_cases hcomma : b[i]? = some ','.toUInt8
  · rw [if_pos hcomma, decide_eq_true hcomma]
    rfl
  · rw [if_neg hcomma, decide_eq_false hcomma]
    rfl

/-- The loop over a string is the scan, however it starts. -/
theorem strLoop_eq : ∀ (bound : ℕ) (s : List Char) (i : ℕ), 1 ≤ bound → b.length < bound + i →
    strLoop b bound s i = .ok (s ++ (scanStr (b.drop i)).1, i + (scanStr (b.drop i)).2)
  | 0, _, _, hbound, _ => absurd hbound (by omega)
  | bound + 1, s, i, _, hlen => by
      rw [strLoop, sees_eq]
      cases hc : b[i]? with
      | none =>
          rw [List.drop_eq_nil_of_le (List.getElem?_eq_none_iff.mp hc), scanStr, List.append_nil]
          rfl
      | some c =>
          have hlt := Scan.lt_length hc
          rw [Scan.drop_of_getElem? hc]
          by_cases hquote : c = '"'.toUInt8
          · rw [hquote, scanStr_quote, List.append_nil]
            rfl
          · have hsees : (some c).any (· ≠ '"'.toUInt8) = true := by simpa using hquote
            rw [hsees]
            dsimp only [bind, Except.bind]
            rw [if_pos rfl, byte_eq hc]
            dsimp only
            by_cases hslash : c = '\\'.toUInt8 ∧ i + 1 < b.length
            · obtain ⟨d, hd⟩ : ∃ d, b[i + 1]? = some d := ⟨_, List.getElem?_eq_getElem hslash.2⟩
              rw [if_pos hslash, byte_eq hd, hslash.1, Scan.drop_of_getElem? hd, scanStr_escape]
              dsimp only
              rw [strLoop_eq bound _ _ (by omega) (by omega), List.append_assoc, Nat.add_assoc]
              congr 2
              omega
            · have hplain : c = '\\'.toUInt8 → b.drop (i + 1) = [] := fun hc =>
                List.drop_eq_nil_of_le (by
                  by_contra hin
                  exact hslash ⟨hc, by omega⟩)
              rw [if_neg hslash, scanStr_plain hquote hplain]
              dsimp only
              rw [strLoop_eq bound _ _ (by omega) (by omega), List.append_assoc]
              congr 2
              omega

theorem parseStr_eq (i : ℕ) : parseStr b i = MiniJson.parseStr b i := by
  rw [parseStr, skipWs_ok, MiniJson.parseStr]
  dsimp only [bind, Except.bind]
  rw [sees_byte]
  by_cases hquote : b[MiniJson.skipWs b i]? = some '"'.toUInt8
  · rw [if_pos hquote, decide_eq_true hquote]
    dsimp only
    rw [if_pos rfl, strLoop_eq _ _ _ (by omega) (by omega), List.nil_append]
  · rw [if_neg hquote, decide_eq_false hquote]
    rfl

omit [F64 F] in
theorem parseBool_eq (i : ℕ) :
    (parseBool b i : Except ParseError (Json F × ℕ)) = MiniJson.parseBool b i := by
  rw [parseBool, byte, MiniJson.parseBool]
  cases b[i]? with
  | none => rfl
  | some c => rfl

theorem parseNum_eq (start : ℕ) :
    (parseNum b start : Except ParseError (Json F × ℕ)) = MiniJson.parseNum b start := by
  rw [parseNum, skipWhile_eq _ _ _ (by omega) (by omega), MiniJson.parseNum]
  dsimp only [bind, Except.bind]
  rw [slice, Scan.scan]
  by_cases hslice : start ≤ start + ((b.drop start).takeWhile isNumByte).length ∧
      start + ((b.drop start).takeWhile isNumByte).length ≤ b.length
  · rw [if_pos hslice]
    exact (if_pos hslice).symm
  · rw [if_neg hslice]
    exact (if_neg hslice).symm

section Loops

variable {pv pv' : ℕ → Except ParseError (Json F × ℕ)}

omit [F64 F] in
theorem parseMembers_eq (hpv : ∀ i, pv i = pv' i) : ∀ bound m i,
    parseMembers b pv bound m i = MiniJson.parseMembers b pv' bound m i
  | 0, _, _ => rfl
  | bound + 1, m, i => by
      rw [parseMembers, skipWs_ok, MiniJson.parseMembers]
      dsimp only [bind, Except.bind]
      rw [sees_byte]
      by_cases hclose : b[MiniJson.skipWs b i]? = some '}'.toUInt8
      · rw [if_pos hclose, decide_eq_true hclose]
        rfl
      · rw [if_neg hclose, decide_eq_false hclose, parseStr_eq]
        dsimp only
        rw [if_neg Bool.false_ne_true]
        cases MiniJson.parseStr b (MiniJson.skipWs b i) with
        | error err => rfl
        | ok r =>
            dsimp only
            rw [skipWs_ok]
            dsimp only
            rw [sees_byte]
            by_cases hcolon : b[MiniJson.skipWs b r.2]? = some ':'.toUInt8
            · rw [if_pos hcolon, decide_eq_true hcolon, hpv]
              dsimp only
              rw [if_pos rfl]
              cases pv' (MiniJson.skipWs b r.2 + 1) with
              | error err => rfl
              | ok r' =>
                  dsimp only
                  rw [skipWs_ok]
                  dsimp only
                  rw [skipComma_ok]
                  exact parseMembers_eq hpv bound _ _
            · rw [if_neg hcolon, decide_eq_false hcolon]
              rfl

omit [F64 F] in
theorem parseElements_eq (hpv : ∀ i, pv i = pv' i) : ∀ bound a i,
    parseElements b pv bound a i = MiniJson.parseElements b pv' bound a i
  | 0, _, _ => rfl
  | bound + 1, a, i => by
      rw [parseElements, skipWs_ok, MiniJson.parseElements]
      dsimp only [bind, Except.bind]
      rw [sees_byte]
      by_cases hclose : b[MiniJson.skipWs b i]? = some ']'.toUInt8
      · rw [if_pos hclose, decide_eq_true hclose]
        rfl
      · rw [if_neg hclose, decide_eq_false hclose, hpv]
        dsimp only
        rw [if_neg Bool.false_ne_true]
        cases pv' (MiniJson.skipWs b i) with
        | error err => rfl
        | ok r =>
            dsimp only
            rw [skipWs_ok]
            dsimp only
            rw [skipComma_ok]
            exact parseElements_eq hpv bound _ _

end Loops

theorem parseValue_eq : ∀ bound i, (parseValue b bound i : Except ParseError (Json F × ℕ))
    = MiniJson.parseValue b bound i
  | 0, _ => rfl
  | bound + 1, i => by
      have ih := parseValue_eq bound
      rw [parseValue, skipWs_ok, MiniJson.parseValue]
      dsimp only [bind, Except.bind]
      cases hc : b[MiniJson.skipWs b i]? with
      | none =>
          rw [if_pos (List.getElem?_eq_none_iff.mp hc)]
      | some c =>
          have hlt := Scan.lt_length hc
          rw [if_neg (by omega), byte_eq hc]
          dsimp only
          rw [parseMembers_eq ih, parseElements_eq ih, parseStr_eq, parseBool_eq, parseNum_eq]
          rfl

theorem parse_eq (json : String) :
    (parse json : Except ParseError (Json F)) = MiniJson.parse json := by
  dsimp only [parse, MiniJson.parse]
  rw [parseValue_eq]
  rfl

end Checked

end MiniJson

/-- **The reader returns.**  No access or slice is out of range and no loop runs on, so every text
gives a graph or a message. -/
theorem parse_returns {F : Type} [F64 F] (json : String) :
    (MiniJson.Checked.parse json : Except ParseError (Json F)) = MiniJson.parse json ∧
      ∃ r : Except String (GraphSpec F), parse json = r.mapError ParseError.error := by
  refine ⟨MiniJson.Checked.parse_eq json, ?_⟩
  have hpanic : (MiniJson.parse json : Except ParseError (Json F)) ≠ .error ParseError.panic := by
    intro h
    exact MiniJson.parseValue_not_panic _ 0 (by omega) (by omega) (Fallible.map_eq_error h)
  rw [parse]
  cases hread : (MiniJson.parse json : Except ParseError (Json F)) with
  | error err =>
      cases err with
      | panic => exact absurd hread hpanic
      | error message => exact ⟨.error message, rfl⟩
  | ok v =>
      dsimp only [bind, Except.bind]
      cases v.get "canvas" with
      | none => exact ⟨.error "missing canvas", rfl⟩
      | some canvas => exact ⟨.ok _, rfl⟩

end HotpathIpc
