import HotpathIpc.Strategy.Reader
import Mathlib.Data.List.Forall2

/-!
# JSON text

The grammar of JSON over bytes, as a relation between values and their texts.  The escapes of
strings are those of quotes, backslashes, newlines, tabs and slashes.

* `Number` — the numbers of the grammar, each with its text and the number that it denotes.
* `CharText`, `StrText`, `Text` — the texts of characters, of strings, and of values, elements and
  members, with whitespace between all tokens.
* `parseF64_text`, `scanStr_text` — tokens are read as what they denote; a character beyond ASCII
  is read byte by byte (`latin`).
-/

namespace HotpathIpc

namespace JsonText

/-! ## Numbers -/

/-- One digit or more. -/
abbrev Digits := {ds : List UInt8 // ds ≠ [] ∧ ∀ c ∈ ds, Decimal.isDigit c = true}

/-- What follows a number with an exponent. -/
structure Exponent where
  upper : Bool
  /-- An explicit sign: whether it is a minus. -/
  sign : Option Bool
  digits : Digits

/-- A JSON number.  A zero leads only by itself. -/
structure Number where
  minus : Bool
  whole : Digits
  fraction : Option Digits
  exponent : Option Exponent
  leading : whole.1.head? = some '0'.toUInt8 → whole.1 = ['0'.toUInt8]

namespace Exponent

def signText : Option Bool → List UInt8
  | none => []
  | some true => ['-'.toUInt8]
  | some false => ['+'.toUInt8]

def text (e : Exponent) : List UInt8 :=
  (if e.upper then 'E'.toUInt8 else 'e'.toUInt8) :: (signText e.sign ++ e.digits.1)

def value (e : Exponent) : ℤ :=
  if e.sign = some true then -(Decimal.value e.digits.1 : ℤ) else Decimal.value e.digits.1

end Exponent

namespace Number

def fractionText : Option Digits → List UInt8
  | none => []
  | some ds => '.'.toUInt8 :: ds.1

def exponentText : Option Exponent → List UInt8
  | none => []
  | some e => e.text

def text (n : Number) : List UInt8 :=
  (if n.minus then ['-'.toUInt8] else [])
    ++ (n.whole.1 ++ (fractionText n.fraction ++ exponentText n.exponent))

/-- The digits after the point. -/
def places (n : Number) : List UInt8 := (n.fraction.map Subtype.val).getD []

def value {F : Type} [F64 F] (n : Number) : F :=
  let x : F := Decimal.scaled (Decimal.value (n.whole.1 ++ n.places))
    ((n.exponent.map Exponent.value).getD 0 - n.places.length)
  if n.minus then -x else x

end Number

/-! ## Strings -/

/-- The texts of a character within a string. -/
inductive CharText : Char → List UInt8 → Prop
  | quote : CharText '"' ['\\'.toUInt8, '"'.toUInt8]
  | backslash : CharText '\\' ['\\'.toUInt8, '\\'.toUInt8]
  | newline : CharText '\n' ['\\'.toUInt8, 'n'.toUInt8]
  | tab : CharText '\t' ['\\'.toUInt8, 't'.toUInt8]
  | slash : CharText '/' ['\\'.toUInt8, '/'.toUInt8]
  | plain {c : Char} : 32 ≤ c.toNat → c ≠ '"' → c ≠ '\\' → CharText c (String.utf8EncodeChar c)

inductive StrText : List Char → List UInt8 → Prop
  | nil : StrText [] []
  | cons {c : Char} {p : List UInt8} {s : List Char} {w : List UInt8} :
      CharText c p → StrText s w → StrText (c :: s) (p ++ w)

/-- A string without quotes, backslashes and control characters is a text of its own. -/
theorem strText_plain : ∀ {s : List Char}, (∀ c ∈ s, 32 ≤ c.toNat ∧ c ≠ '"' ∧ c ≠ '\\') →
    StrText s (s.flatMap String.utf8EncodeChar)
  | [], _ => StrText.nil
  | c :: s, h => by
      obtain ⟨hlow, hquote, hslash⟩ := h c List.mem_cons_self
      exact StrText.cons (CharText.plain hlow hquote hslash)
        (strText_plain fun d hd => h d (List.mem_cons_of_mem c hd))

/-! ## Values -/

/-- Whitespace between tokens. -/
def Ws (w : List UInt8) : Prop :=
  ∀ c ∈ w, c = ' '.toUInt8 ∨ c = '\t'.toUInt8 ∨ c = '\n'.toUInt8 ∨ c = '\r'.toUInt8

/-- What stands before an element or a member: a comma, unless it is the first. -/
inductive Gap : Bool → List UInt8 → Prop
  | first {w : List UInt8} : Ws w → Gap true w
  | next {w w' : List UInt8} : Ws w → Ws w' → Gap false (w ++ ','.toUInt8 :: w')

def bytes (s : String) : List UInt8 := s.toUTF8.data.toList

variable {F : Type} [F64 F]

/-- What is written: a value, or what is left of an array or an object up to its bracket, and
whether nothing of it is written yet. -/
inductive Piece (F : Type) where
  | value (v : Json F)
  | elements (first : Bool) (a : List (Json F))
  | members (first : Bool) (m : List (String × Json F))

inductive Text : Piece F → List UInt8 → Prop
  | null : Text (Piece.value Json.null) (bytes "null")
  | true : Text (Piece.value (Json.bool Bool.true)) (bytes "true")
  | false : Text (Piece.value (Json.bool Bool.false)) (bytes "false")
  | num (n : Number) : Text (Piece.value (Json.num n.value)) n.text
  | str {s : String} {w : List UInt8} : StrText s.toList w →
      Text (Piece.value (Json.str s)) ('"'.toUInt8 :: (w ++ ['"'.toUInt8]))
  | arr {a : List (Json F)} {w : List UInt8} : Text (Piece.elements Bool.true a) w →
      Text (Piece.value (Json.arr a)) ('['.toUInt8 :: w)
  | obj {m : List (String × Json F)} {w : List UInt8} : Text (Piece.members Bool.true m) w →
      Text (Piece.value (Json.obj m)) ('{'.toUInt8 :: w)
  | closeArr {first : Bool} {w : List UInt8} : Ws w →
      Text (Piece.elements first []) (w ++ [']'.toUInt8])
  | element {first : Bool} {v : Json F} {a : List (Json F)} {u w w' : List UInt8} : Gap first u →
      Text (Piece.value v) w → Text (Piece.elements Bool.false a) w' →
      Text (Piece.elements first (v :: a)) (u ++ (w ++ w'))
  | closeObj {first : Bool} {w : List UInt8} : Ws w →
      Text (Piece.members first []) (w ++ ['}'.toUInt8])
  | member {first : Bool} {key : String} {v : Json F} {m : List (String × Json F)}
      {u k u₁ u₂ w w' : List UInt8} : Gap first u → StrText key.toList k → Ws u₁ → Ws u₂ →
      Text (Piece.value v) w → Text (Piece.members Bool.false m) w' →
      Text (Piece.members first ((key, v) :: m))
        (u ++ '"'.toUInt8 :: (k ++ '"'.toUInt8 :: (u₁ ++ ':'.toUInt8 :: (u₂ ++ (w ++ w')))))

/-- A text of a value, alone in its file. -/
def Document (v : Json F) (json : String) : Prop :=
  ∃ u w u', Ws u ∧ Text (Piece.value v) w ∧ Ws u' ∧ bytes json = u ++ (w ++ u')

/-! ## What is read -/

/-- A string whose UTF-8 bytes are taken for characters. -/
def latinChars (s : List Char) : List Char :=
  s.flatMap fun c => (String.utf8EncodeChar c).map Char.ofUInt8

def latin (s : String) : String := String.ofList (latinChars s.toList)

mutual

/-- A value as it is read. -/
def read : Json F → Json F
  | Json.str s => Json.str (latin s)
  | Json.arr a => Json.arr (readElements a)
  | Json.obj m => Json.obj (readMembers [] m)
  | v => v

def readElements : List (Json F) → List (Json F)
  | [] => []
  | v :: a => read v :: readElements a

/-- Members as they are inserted into a map. -/
def readMembers : List (String × Json F) → List (String × Json F) → List (String × Json F)
  | acc, [] => acc
  | acc, (key, v) :: m => readMembers (Json.insert acc (latin key) (read v)) m

end

/-! ## Numbers are read -/

section ReadNumbers

theorem ne_of_digit {c d : UInt8} (h : Decimal.isDigit c = Bool.true)
    (hd : Decimal.isDigit d = Bool.false) : c ≠ d := by
  rintro rfl
  exact absurd h (by simp [hd])

theorem Digits.head (ds : Digits) : ∃ c s, ds.1 = c :: s ∧ Decimal.isDigit c = Bool.true := by
  obtain ⟨ds, hne, hall⟩ := ds
  cases ds with
  | nil => exact absurd rfl hne
  | cons c s => exact ⟨c, s, rfl, hall c List.mem_cons_self⟩

theorem sign_digits (ds : Digits) (rest : List UInt8) :
    Decimal.sign (ds.1 ++ rest) = (Bool.false, ds.1 ++ rest) := by
  obtain ⟨c, s, hds, hc⟩ := ds.head
  rw [hds, List.cons_append, Decimal.sign, if_neg (ne_of_digit hc (by decide)),
    if_neg (ne_of_digit hc (by decide))]

/-- A text that no digit starts. -/
def NoDigit (rest : List UInt8) : Prop := ∀ c, rest.head? = some c → Decimal.isDigit c = Bool.false

theorem takeWhile_digits (ds : Digits) {rest : List UInt8} (hrest : NoDigit rest) :
    (ds.1 ++ rest).takeWhile Decimal.isDigit = ds.1 ∧
      (ds.1 ++ rest).dropWhile Decimal.isDigit = rest := by
  rw [List.takeWhile_append_of_pos ds.2.2, List.dropWhile_append_of_pos ds.2.2]
  cases rest with
  | nil => exact ⟨List.append_nil _, rfl⟩
  | cons c s =>
      have hc : ¬ Decimal.isDigit c = Bool.true := by simp [hrest c rfl]
      rw [List.takeWhile_cons_of_neg hc, List.dropWhile_cons_of_neg hc]
      exact ⟨List.append_nil _, rfl⟩

theorem exponent_text (e : Exponent) : Decimal.exponent e.text = some e.value := by
  obtain ⟨upper, sign, ds⟩ := e
  have hmark : (if upper then 'E'.toUInt8 else 'e'.toUInt8) = 'e'.toUInt8 ∨
      (if upper then 'E'.toUInt8 else 'e'.toUInt8) = 'E'.toUInt8 := by
    cases upper
    · exact Or.inl rfl
    · exact Or.inr rfl
  have hds : ds.1 ≠ [] ∧ ds.1.all Decimal.isDigit = Bool.true :=
    ⟨ds.2.1, List.all_eq_true.mpr ds.2.2⟩
  rw [Exponent.text, Decimal.exponent, if_pos hmark]
  cases sign with
  | none =>
      have hsign := sign_digits ds []
      rw [List.append_nil] at hsign
      dsimp only [Exponent.signText]
      rw [List.nil_append, hsign]
      exact if_pos hds
  | some minus =>
      cases minus
      · exact if_pos hds
      · exact if_pos hds

theorem noDigit_exponentText (e : Option Exponent) : NoDigit (Number.exponentText e) := by
  intro c hc
  cases e with
  | none => cases hc
  | some e =>
      obtain ⟨upper, sign, ds⟩ := e
      cases upper
      · obtain rfl := Option.some.inj hc
        rfl
      · obtain rfl := Option.some.inj hc
        rfl

theorem fraction_text (f : Option Digits) (e : Option Exponent) :
    Decimal.fraction (Number.fractionText f ++ Number.exponentText e)
      = ((f.map Subtype.val).getD [], Number.exponentText e) := by
  cases f with
  | some ds =>
      obtain ⟨htake, hdrop⟩ := takeWhile_digits ds (noDigit_exponentText e)
      rw [Number.fractionText, List.cons_append, Decimal.fraction, if_pos rfl, htake, hdrop]
      rfl
  | none =>
      cases e with
      | none => rfl
      | some e =>
          obtain ⟨upper, sign, ds⟩ := e
          cases upper
          · rfl
          · rfl

theorem noDigit_fraction (f : Option Digits) (e : Option Exponent) :
    NoDigit (Number.fractionText f ++ Number.exponentText e) := by
  cases f with
  | none => exact noDigit_exponentText e
  | some ds =>
      intro c hc
      obtain rfl := Option.some.inj hc
      decide

/-- Every number is read as what it denotes. -/
theorem parseF64_text (n : Number) : Decimal.parseF64 n.text = some (n.value : F) := by
  have hsign : Decimal.sign n.text = (n.minus, n.whole.1
      ++ (Number.fractionText n.fraction ++ Number.exponentText n.exponent)) := by
    rw [Number.text]
    cases n.minus
    · exact sign_digits _ _
    · rfl
  obtain ⟨htake, hdrop⟩ := takeWhile_digits n.whole (noDigit_fraction n.fraction n.exponent)
  have hexponent : Decimal.exponent (Number.exponentText n.exponent)
      = some ((n.exponent.map Exponent.value).getD 0) := by
    cases n.exponent with
    | none => rfl
    | some e => exact exponent_text e
  rw [Decimal.parseF64, hsign]
  dsimp only
  rw [htake, hdrop, fraction_text]
  dsimp only
  rw [hexponent]
  exact if_neg fun h => n.whole.2.1 h.1

theorem Number.text_ne_nil (n : Number) : n.text ≠ [] := by
  intro hnil
  rw [Number.text, List.append_eq_nil_iff, List.append_eq_nil_iff] at hnil
  exact n.whole.2.1 hnil.2.1

theorem isNumByte_digits (ds : Digits) : ∀ c ∈ ds.1, MiniJson.isNumByte c = Bool.true := by
  intro c hc
  simp [MiniJson.isNumByte, ds.2.2 c hc]

theorem isNumByte_fraction : ∀ (f : Option Digits), ∀ c ∈ Number.fractionText f,
    MiniJson.isNumByte c = Bool.true
  | none, _, hc => absurd hc List.not_mem_nil
  | some ds, c, hc => by
      rcases List.mem_cons.mp hc with rfl | hc
      · decide
      · exact isNumByte_digits ds c hc

theorem isNumByte_sign : ∀ (sign : Option Bool), ∀ c ∈ Exponent.signText sign,
    MiniJson.isNumByte c = Bool.true
  | none, _, hc => absurd hc List.not_mem_nil
  | some Bool.true, _, hc => by
      obtain rfl := List.mem_singleton.mp hc
      decide
  | some Bool.false, _, hc => by
      obtain rfl := List.mem_singleton.mp hc
      decide

theorem isNumByte_exponent : ∀ (e : Option Exponent), ∀ c ∈ Number.exponentText e,
    MiniJson.isNumByte c = Bool.true
  | none, _, hc => absurd hc List.not_mem_nil
  | some ⟨upper, sign, ds⟩, c, hc => by
      rcases List.mem_cons.mp hc with rfl | hc
      · cases upper
        · rfl
        · rfl
      · rcases List.mem_append.mp hc with hc | hc
        · exact isNumByte_sign sign c hc
        · exact isNumByte_digits ds c hc

theorem isNumByte_text (n : Number) : ∀ c ∈ n.text, MiniJson.isNumByte c = Bool.true := by
  intro c hc
  rw [Number.text, List.mem_append, List.mem_append, List.mem_append] at hc
  rcases hc with hc | hc | hc | hc
  · split at hc
    · obtain rfl := List.mem_singleton.mp hc
      decide
    · cases hc
  · exact isNumByte_digits n.whole c hc
  · exact isNumByte_fraction n.fraction c hc
  · exact isNumByte_exponent n.exponent c hc

end ReadNumbers

/-! ## Strings are read -/

section ReadStrings

theorem utf8_ascii {c : Char} (h : c.toNat < 128) :
    String.utf8EncodeChar c = [UInt8.ofNat c.toNat] :=
  if_pos (Nat.le_of_lt_succ h)

theorem high_byte (a : ℕ) {m h : ℕ} (hm : 0 < m) (hlow : 128 ≤ h) (hhigh : m + h ≤ 256) :
    128 ≤ (UInt8.ofNat (a % m + h)).toNat := by
  have hmod := Nat.mod_lt a hm
  rw [UInt8.toNat_ofNat', Nat.mod_eq_of_lt (by omega)]
  omega

/-- Beyond ASCII no byte is a character of its own. -/
theorem utf8_high {c : Char} (h : 128 ≤ c.toNat) :
    ∀ x ∈ String.utf8EncodeChar c, 128 ≤ x.toNat := by
  have hv : 128 ≤ c.val.toNat := h
  intro x hx
  dsimp only [String.utf8EncodeChar] at hx
  rw [if_neg (by omega)] at hx
  split at hx
  · simp only [List.mem_cons, List.not_mem_nil, or_false] at hx
    rcases hx with rfl | rfl
    · exact high_byte _ (by decide) (by decide) (by decide)
    · exact high_byte _ (by decide) (by decide) (by decide)
  · split at hx
    · simp only [List.mem_cons, List.not_mem_nil, or_false] at hx
      rcases hx with rfl | rfl | rfl
      · exact high_byte _ (by decide) (by decide) (by decide)
      · exact high_byte _ (by decide) (by decide) (by decide)
      · exact high_byte _ (by decide) (by decide) (by decide)
    · simp only [List.mem_cons, List.not_mem_nil, or_false] at hx
      rcases hx with rfl | rfl | rfl | rfl
      · exact high_byte _ (by decide) (by decide) (by decide)
      · exact high_byte _ (by decide) (by decide) (by decide)
      · exact high_byte _ (by decide) (by decide) (by decide)
      · exact high_byte _ (by decide) (by decide) (by decide)

theorem ofUInt8_ascii {c : Char} (h : c.toNat < 128) : Char.ofUInt8 (UInt8.ofNat c.toNat) = c := by
  apply Char.toNat_inj.mp
  have hmod : (UInt8.ofNat c.toNat).toNat = c.toNat := by
    rw [UInt8.toNat_ofNat', Nat.mod_eq_of_lt (by omega)]
  exact hmod

theorem latinChars_ascii {c : Char} (h : c.toNat < 128) : latinChars [c] = [c] := by
  rw [latinChars, List.flatMap_cons, List.flatMap_nil, List.append_nil, utf8_ascii h,
    List.map_singleton, ofUInt8_ascii h]

theorem latinChars_cons (c : Char) (s : List Char) :
    latinChars (c :: s) = latinChars [c] ++ latinChars s := by
  simp [latinChars]

/-- Bytes that are neither a quote nor a backslash are characters. -/
theorem scanStr_plains (s : List UInt8) : ∀ p : List UInt8,
    (∀ x ∈ p, x ≠ '"'.toUInt8 ∧ x ≠ '\\'.toUInt8) →
      MiniJson.scanStr (p ++ s)
        = (p.map Char.ofUInt8 ++ (MiniJson.scanStr s).1, (MiniJson.scanStr s).2 + p.length)
  | [], _ => rfl
  | x :: p, h => by
      have hx := h x List.mem_cons_self
      have ih := scanStr_plains s p fun y hy => h y (List.mem_cons_of_mem x hy)
      rw [List.cons_append, MiniJson.scanStr_plain hx.1 (absurd · hx.2), ih]
      rfl

/-- A text of a character is read as the character, byte by byte beyond ASCII. -/
theorem scanStr_char {c : Char} {p : List UInt8} (h : CharText c p) (s : List UInt8) :
    MiniJson.scanStr (p ++ s)
      = (latinChars [c] ++ (MiniJson.scanStr s).1, (MiniJson.scanStr s).2 + p.length) := by
  cases h with
  | plain hlow hquote hslash =>
      have hplain : ∀ x ∈ String.utf8EncodeChar c, x ≠ '"'.toUInt8 ∧ x ≠ '\\'.toUInt8 := by
        intro x hx
        by_cases hascii : c.toNat < 128
        · rw [utf8_ascii hascii] at hx
          have hc := ofUInt8_ascii hascii
          rw [← List.mem_singleton.mp hx] at hc
          refine ⟨?_, ?_⟩
          · rintro rfl
            exact hquote hc.symm
          · rintro rfl
            exact hslash hc.symm
        · have hhigh := utf8_high (by omega) x hx
          refine ⟨?_, ?_⟩
          · rintro rfl
            exact absurd hhigh (by decide)
          · rintro rfl
            exact absurd hhigh (by decide)
      rw [scanStr_plains s _ hplain, latinChars, List.flatMap_cons, List.flatMap_nil,
        List.append_nil]
  | quote => exact MiniJson.scanStr_escape _ s
  | backslash => exact MiniJson.scanStr_escape _ s
  | newline => exact MiniJson.scanStr_escape _ s
  | tab => exact MiniJson.scanStr_escape _ s
  | slash => exact MiniJson.scanStr_escape _ s

theorem scanStr_text {s : List Char} {w : List UInt8} (h : StrText s w) (rest : List UInt8) :
    MiniJson.scanStr (w ++ '"'.toUInt8 :: rest) = (latinChars s, w.length) := by
  induction h with
  | nil => exact MiniJson.scanStr_quote rest
  | @cons c p s w hc _ ih =>
      rw [List.append_assoc, scanStr_char hc, ih, List.length_append, Nat.add_comm,
        latinChars_cons c s]

end ReadStrings

/-! ## Values are read -/

section ReadValues

open MiniJson

variable {b : List UInt8}

theorem ws_isWhitespace {w : List UInt8} (h : Ws w) : ∀ c ∈ w, isWhitespace c = Bool.true := by
  intro c hc
  rcases h c hc with rfl | rfl | rfl | rfl
  · decide
  · decide
  · decide
  · decide

/-- Whitespace up to a byte is skipped. -/
theorem skipWs_text {i : ℕ} {u rest : List UInt8} {c : UInt8} (h : b.drop i = u ++ c :: rest)
    (hu : Ws u) (hc : isWhitespace c = Bool.false) :
    skipWs b i = i + u.length ∧ b[i + u.length]? = some c ∧ b.drop (i + u.length) = c :: rest := by
  have hdrop := Scan.drop_add_of_append h
  refine ⟨Scan.scan_append h (ws_isWhitespace hu) ?_, ?_, hdrop⟩
  · intro x hx
    obtain rfl := Option.some.inj hx
    exact hc
  · rw [← List.head?_drop, hdrop]
    rfl

theorem parseStr_text {i : ℕ} {s : String} {w rest : List UInt8} (hs : StrText s.toList w)
    (h : b.drop i = '"'.toUInt8 :: (w ++ '"'.toUInt8 :: rest)) :
    parseStr b i = .ok (latin s, i + 1 + w.length + 1) := by
  obtain ⟨hskip, hquote, -⟩ := skipWs_text (u := []) h (fun _ hc => by cases hc) (by decide)
  rw [List.length_nil, Nat.add_zero] at hskip hquote
  have hrest : b.drop (i + 1) = w ++ '"'.toUInt8 :: rest :=
    Scan.drop_add_of_append (u := ['"'.toUInt8]) h
  dsimp only [parseStr]
  rw [hskip, if_pos hquote, hrest, scanStr_text hs]
  rfl

/-- A text that does not go on with a number. -/
def NoNumber (rest : List UInt8) : Prop := ∀ c, rest.head? = some c → isNumByte c = Bool.false

theorem parseNum_text {i : ℕ} {rest : List UInt8} (n : Number) (h : b.drop i = n.text ++ rest)
    (hrest : NoNumber rest) : parseNum b i = .ok (Json.num (n.value : F), i + n.text.length) := by
  have hscan : Scan.scan isNumByte b i = i + n.text.length :=
    Scan.scan_append h (isNumByte_text n) hrest
  have hlen : n.text.length ≤ (b.drop i).length := by
    rw [h, List.length_append]
    exact Nat.le_add_right _ _
  have hpos := List.length_pos_iff.mpr n.text_ne_nil
  rw [List.length_drop] at hlen
  dsimp only [parseNum]
  rw [← Scan.scan, hscan, if_pos ⟨Nat.le_add_right _ _, by omega⟩, Nat.add_sub_cancel_left, h,
    List.take_left, parseF64_text]

/-- Where the loop over elements or members starts its round. -/
def enter (first : Bool) (b : List UInt8) (i : ℕ) : ℕ :=
  if first then i else skipComma b (skipWs b i)

/-- The gap before an item is skipped. -/
theorem enter_gap {first : Bool} {i : ℕ} {u rest : List UInt8} {c : UInt8}
    (h : b.drop i = u ++ c :: rest) (hu : Gap first u) (hc : isWhitespace c = Bool.false) :
    skipWs b (enter first b i) = i + u.length ∧ b[i + u.length]? = some c ∧
      b.drop (i + u.length) = c :: rest := by
  cases hu with
  | first hws => exact skipWs_text h hws hc
  | @next w w' hw hw' =>
      rw [List.append_assoc, List.cons_append] at h
      obtain ⟨hskip, hcomma, hdrop⟩ := skipWs_text h hw (by decide)
      have henter : enter Bool.false b i = i + w.length + 1 := by
        rw [enter, if_neg Bool.false_ne_true, hskip, skipComma, if_pos hcomma]
      have hnext := skipWs_text (Scan.drop_add_of_append (u := [','.toUInt8]) hdrop) hw' hc
      rw [henter, List.length_append, List.length_cons,
        show i + (w.length + (w'.length + 1)) = i + w.length + 1 + w'.length by omega]
      exact hnext

/-- So is the whitespace before a bracket. -/
theorem enter_close {first : Bool} {i : ℕ} {u rest : List UInt8} {c : UInt8}
    (h : b.drop i = u ++ c :: rest) (hu : Ws u) (hc : isWhitespace c = Bool.false)
    (hcomma : c ≠ ','.toUInt8) :
    skipWs b (enter first b i) = i + u.length ∧ b[i + u.length]? = some c := by
  obtain ⟨hskip, hbyte, -⟩ := skipWs_text h hu hc
  cases first with
  | true => exact ⟨hskip, hbyte⟩
  | false =>
      have henter : enter Bool.false b i = skipWs b i := by
        rw [enter, if_neg Bool.false_ne_true, hskip, skipComma, hbyte, if_neg]
        exact fun h => hcomma (Option.some.inj h)
      rw [henter, skipWs_skipWs]
      exact ⟨hskip, hbyte⟩

theorem noNumber_cons {c : UInt8} (hc : isNumByte c = Bool.false) (rest : List UInt8) :
    NoNumber (c :: rest) := by
  intro x hx
  obtain rfl := Option.some.inj hx
  exact hc

theorem noNumber_ws {u rest : List UInt8} (hu : Ws u) (hrest : NoNumber rest) :
    NoNumber (u ++ rest) := by
  cases u with
  | nil => exact hrest
  | cons y u =>
      refine noNumber_cons ?_ (u ++ rest)
      rcases hu y List.mem_cons_self with rfl | rfl | rfl | rfl
      · decide
      · decide
      · decide
      · decide

theorem noNumber_gap {u rest : List UInt8} (hu : Gap Bool.false u) : NoNumber (u ++ rest) := by
  cases hu with
  | @next w w' hw _ =>
      rw [List.append_assoc]
      exact noNumber_ws hw (noNumber_cons (by decide) _)

/-- After an element or a member no number goes on. -/
theorem Text.noNumber {piece : Piece F} {w : List UInt8} (h : Text piece w) (rest : List UInt8) :
    (∀ a, piece = Piece.elements Bool.false a → NoNumber (w ++ rest)) ∧
      ∀ m, piece = Piece.members Bool.false m → NoNumber (w ++ rest) := by
  refine ⟨?_, ?_⟩
  · rintro a rfl
    cases h with
    | closeArr hw =>
        rw [List.append_assoc]
        exact noNumber_ws hw (noNumber_cons (by decide) _)
    | element hu _ _ =>
        rw [List.append_assoc]
        exact noNumber_gap hu
  · rintro m rfl
    cases h with
    | closeObj hw =>
        rw [List.append_assoc]
        exact noNumber_ws hw (noNumber_cons (by decide) _)
    | member hu _ _ _ _ _ =>
        rw [List.append_assoc]
        exact noNumber_gap hu

theorem not_ws_of_number {c : UInt8} (h : isNumByte c = Bool.true) :
    isWhitespace c = Bool.false := by
  simp only [isNumByte, Bool.or_eq_true, decide_eq_true_eq] at h
  rcases h with ((((hdigit | rfl) | rfl) | rfl) | rfl) | rfl
  · simp only [Decimal.isDigit, Bool.and_eq_true, decide_eq_true_eq] at hdigit
    have hlow : 48 ≤ c.toNat := hdigit.1
    have hhigh : c.toNat ≤ 57 := hdigit.2
    simp only [isWhitespace, Bool.or_eq_false_iff, Bool.and_eq_false_iff, decide_eq_false_iff_not,
      UInt8.le_iff_toNat_le, ← UInt8.toNat_inj, UInt8.reduceToNat]
    omega
  · decide
  · decide
  · decide
  · decide
  · decide

/-- A value starts with a byte that is no whitespace and closes no array. -/
theorem Text.head {v : Json F} {w : List UInt8} (h : Text (Piece.value v) w) :
    ∃ c s, w = c :: s ∧ isWhitespace c = Bool.false ∧ c ≠ ']'.toUInt8 := by
  cases h with
  | null => exact ⟨_, _, rfl, by decide, by decide⟩
  | true => exact ⟨_, _, rfl, by decide, by decide⟩
  | false => exact ⟨_, _, rfl, by decide, by decide⟩
  | num n =>
      obtain ⟨c, s, htext⟩ := List.exists_cons_of_ne_nil n.text_ne_nil
      have hc := isNumByte_text n c (htext ▸ List.mem_cons_self)
      refine ⟨c, s, htext, not_ws_of_number hc, ?_⟩
      rintro rfl
      exact absurd hc (by decide)
  | str _ => exact ⟨_, _, rfl, by decide, by decide⟩
  | arr _ => exact ⟨_, _, rfl, by decide, by decide⟩
  | obj _ => exact ⟨_, _, rfl, by decide, by decide⟩

/-- What is read where a text stands, whitespace before it. -/
def Piece.IsRead (b : List UInt8) : Piece F → List UInt8 → Prop
  | Piece.value v, w => ∀ i u rest, b.drop i = u ++ (w ++ rest) → Ws u → NoNumber rest →
      Reads b Task.value i (read v) (i + u.length + w.length)
  | Piece.elements first a, w => ∀ acc i rest, b.drop i = w ++ rest →
      Reads b (Task.elements acc) (enter first b i) (Json.arr (acc ++ readElements a))
        (i + w.length)
  | Piece.members first m, w => ∀ acc i rest, b.drop i = w ++ rest →
      Reads b (Task.members acc) (enter first b i) (Json.obj (readMembers acc m)) (i + w.length)

theorem literal_isRead {v : Json F} {c : UInt8} {s : List UInt8}
    (hc : isWhitespace c = Bool.false) (hobj : c ≠ '{'.toUInt8) (harr : c ≠ '['.toUInt8)
    (hv : read v = v) (hparse : ∀ i, b[skipWs b i]? = some c →
      parseValue b 1 i = .ok (v, skipWs b i + (s.length + 1))) :
    (Piece.value v).IsRead b (c :: s) := by
  intro i u rest h hu _
  obtain ⟨hskip, hbyte, -⟩ := skipWs_text h hu hc
  rw [← hskip] at hbyte ⊢
  rw [hv]
  exact Reads.leaf hbyte hobj harr (hparse i hbyte)

theorem num_isRead (n : Number) : (Piece.value (Json.num (n.value : F))).IsRead b n.text := by
  intro i u rest h hu hrest
  obtain ⟨c, s, htext⟩ := List.exists_cons_of_ne_nil n.text_ne_nil
  have hnum := isNumByte_text n c (htext ▸ List.mem_cons_self)
  have hne : ∀ d, isNumByte d = Bool.false → c ≠ d := by
    rintro d hd rfl
    exact absurd hnum (by simp [hd])
  rw [htext, List.cons_append] at h
  obtain ⟨hskip, hbyte, hdrop⟩ := skipWs_text h hu (not_ws_of_number hnum)
  have hstands : b.drop (i + u.length) = n.text ++ rest := by rw [htext, hdrop, List.cons_append]
  have hparse := parseNum_text (F := F) n hstands hrest
  rw [← hskip] at hbyte hparse ⊢
  refine Reads.leaf hbyte (hne _ (by decide)) (hne _ (by decide)) ?_
  rw [parseValue, hbyte]
  dsimp only
  rw [if_neg (hne _ (by decide)), if_neg (hne _ (by decide)), if_neg (hne _ (by decide)),
    if_neg (not_or.mpr ⟨hne _ (by decide), hne _ (by decide)⟩), if_neg (hne _ (by decide)), hparse]
  rfl

theorem str_isRead {s : String} {w : List UInt8} (hs : StrText s.toList w) :
    (Piece.value (Json.str s : Json F)).IsRead b ('"'.toUInt8 :: (w ++ ['"'.toUInt8])) := by
  intro i u rest h hu _
  rw [List.cons_append, List.append_assoc] at h
  obtain ⟨hskip, hbyte, hdrop⟩ := skipWs_text h hu (by decide)
  have hparse := parseStr_text hs hdrop
  rw [← hskip] at hbyte hparse ⊢
  have hend : skipWs b i + ('"'.toUInt8 :: (w ++ ['"'.toUInt8])).length
      = skipWs b i + 1 + w.length + 1 := by
    rw [List.length_cons, List.length_append, List.length_singleton]
    omega
  refine Reads.leaf hbyte (by decide) (by decide) ?_
  rw [parseValue, hbyte]
  dsimp only
  rw [if_neg (by decide), if_neg (by decide), if_pos rfl, hparse, hend]
  rfl

theorem bool_isRead (x : Bool) :
    (Piece.value (Json.bool x : Json F)).IsRead b (bytes (if x then "true" else "false")) := by
  cases x with
  | true =>
      refine literal_isRead (c := 't'.toUInt8) (by decide) (by decide) (by decide) rfl ?_
      intro i hbyte
      have hbool : (parseBool b (skipWs b i) : Except ParseError (Json F × ℕ))
          = .ok (Json.bool Bool.true, skipWs b i + 4) := by
        rw [parseBool, hbyte]
        rfl
      rw [parseValue, hbyte]
      exact hbool
  | false =>
      refine literal_isRead (c := 'f'.toUInt8) (by decide) (by decide) (by decide) rfl ?_
      intro i hbyte
      have hbool : (parseBool b (skipWs b i) : Except ParseError (Json F × ℕ))
          = .ok (Json.bool Bool.false, skipWs b i + 5) := by
        rw [parseBool, hbyte]
        rfl
      rw [parseValue, hbyte]
      exact hbool

theorem arr_isRead {a : List (Json F)} {w : List UInt8}
    (ih : (Piece.elements Bool.true a).IsRead b w) :
    (Piece.value (Json.arr a)).IsRead b ('['.toUInt8 :: w) := by
  intro i u rest h hu _
  obtain ⟨hskip, hbyte, hdrop⟩ := skipWs_text h hu (by decide)
  have hrest := ih [] (i + u.length + 1) rest (Scan.drop_add_of_append (u := ['['.toUInt8]) hdrop)
  rw [← hskip] at hbyte hrest ⊢
  rw [List.length_cons, ← Nat.add_assoc, Nat.add_right_comm]
  exact Reads.arr hbyte hrest

theorem obj_isRead {m : List (String × Json F)} {w : List UInt8}
    (ih : (Piece.members Bool.true m).IsRead b w) :
    (Piece.value (Json.obj m)).IsRead b ('{'.toUInt8 :: w) := by
  intro i u rest h hu _
  obtain ⟨hskip, hbyte, hdrop⟩ := skipWs_text h hu (by decide)
  have hrest := ih [] (i + u.length + 1) rest (Scan.drop_add_of_append (u := ['{'.toUInt8]) hdrop)
  rw [← hskip] at hbyte hrest ⊢
  rw [List.length_cons, ← Nat.add_assoc, Nat.add_right_comm]
  exact Reads.obj hbyte hrest

theorem closeArr_isRead {first : Bool} {w : List UInt8} (hw : Ws w) :
    (Piece.elements first ([] : List (Json F))).IsRead b (w ++ [']'.toUInt8]) := by
  intro acc i rest h
  rw [List.append_assoc] at h
  obtain ⟨hskip, hbyte⟩ := enter_close h hw (by decide) (by decide)
  rw [readElements, List.append_nil, List.length_append, ← Nat.add_assoc, ← hskip]
  rw [← hskip] at hbyte
  exact Reads.closeArr hbyte

theorem closeObj_isRead {first : Bool} {w : List UInt8} (hw : Ws w) :
    (Piece.members first ([] : List (String × Json F))).IsRead b (w ++ ['}'.toUInt8]) := by
  intro acc i rest h
  rw [List.append_assoc] at h
  obtain ⟨hskip, hbyte⟩ := enter_close h hw (by decide) (by decide)
  rw [readMembers, List.length_append, ← Nat.add_assoc, ← hskip]
  rw [← hskip] at hbyte
  exact Reads.closeObj hbyte

/-- An element and what follows it; no number runs on into what follows. -/
theorem element_isRead {first : Bool} {v : Json F} {a : List (Json F)} {u w w' : List UInt8}
    (hu : Gap first u) (hval : Text (Piece.value v) w)
    (htail : Text (Piece.elements Bool.false a) w') (ihval : (Piece.value v).IsRead b w)
    (ih : (Piece.elements Bool.false a).IsRead b w') :
    (Piece.elements first (v :: a)).IsRead b (u ++ (w ++ w')) := by
  intro acc i rest h
  obtain ⟨c, s, hw, hc, hclose⟩ := hval.head
  rw [List.append_assoc, List.append_assoc] at h
  have hstands := h
  rw [hw, List.cons_append] at hstands
  obtain ⟨hskip, hbyte, hdrop⟩ := enter_gap hstands hu hc
  have hvalue := ihval (i + u.length) [] (w' ++ rest) (Scan.drop_add_of_append h)
    (fun _ hx => by cases hx) ((htail.noNumber rest).1 a rfl)
  have hrest := ih (acc ++ [read v]) (i + u.length + w.length) rest
    (Scan.drop_add_of_append (Scan.drop_add_of_append h))
  have hlist : acc ++ read v :: readElements a = acc ++ [read v] ++ readElements a := by simp
  have hend : i + (u ++ (w ++ w')).length = i + u.length + w.length + w'.length := by
    rw [List.length_append, List.length_append]
    omega
  rw [readElements, hlist, hend]
  refine Reads.element ?_ (hskip.symm ▸ hvalue) hrest
  rw [hskip, hbyte]
  exact fun h => hclose (Option.some.inj h)

theorem member_isRead {first : Bool} {key : String} {v : Json F} {m : List (String × Json F)}
    {u k u₁ u₂ w w' : List UInt8} (hu : Gap first u) (hkey : StrText key.toList k) (hu₁ : Ws u₁)
    (hu₂ : Ws u₂) (htail : Text (Piece.members Bool.false m) w')
    (ihval : (Piece.value v).IsRead b w) (ih : (Piece.members Bool.false m).IsRead b w') :
    (Piece.members first ((key, v) :: m)).IsRead b
      (u ++ '"'.toUInt8 :: (k ++ '"'.toUInt8 :: (u₁ ++ ':'.toUInt8 :: (u₂ ++ (w ++ w'))))) := by
  intro acc i rest h
  simp only [List.append_assoc, List.cons_append] at h
  obtain ⟨hskip, hbyte, hdrop⟩ := enter_gap h hu (by decide)
  have hparse := parseStr_text hkey hdrop
  have hafter : b.drop (i + u.length + 1 + k.length + 1)
      = u₁ ++ ':'.toUInt8 :: (u₂ ++ (w ++ (w' ++ rest))) :=
    Scan.drop_add_of_append (u := ['"'.toUInt8])
      (Scan.drop_add_of_append (Scan.drop_add_of_append (u := ['"'.toUInt8]) hdrop))
  obtain ⟨hskip', hcolon, hdrop'⟩ := skipWs_text hafter hu₁ (by decide)
  have hstands := Scan.drop_add_of_append (u := [':'.toUInt8]) hdrop'
  have hvalue := ihval _ u₂ (w' ++ rest) hstands hu₂ ((htail.noNumber rest).2 m rfl)
  have hrest := ih (Json.insert acc (latin key) (read v)) _ rest
    (Scan.drop_add_of_append (Scan.drop_add_of_append hstands))
  have hend : i + (u ++ '"'.toUInt8 :: (k ++ '"'.toUInt8 :: (u₁ ++ ':'.toUInt8
      :: (u₂ ++ (w ++ w'))))).length = i + u.length + 1 + k.length + 1 + u₁.length
      + [':'.toUInt8].length + u₂.length + w.length + w'.length := by
    simp only [List.length_append, List.length_cons, List.length_nil]
    omega
  rw [readMembers, hend]
  rw [← hskip'] at hcolon hvalue hrest ⊢
  refine Reads.member ?_ (hskip.symm ▸ hparse) hcolon hvalue hrest
  rw [hskip, hbyte]
  exact fun h => absurd (Option.some.inj h) (by decide)

/-- **A text is read as what it is written for**, wherever it stands. -/
theorem Text.isRead {piece : Piece F} {w : List UInt8} (h : Text piece w) : piece.IsRead b w := by
  induction h with
  | null =>
      refine literal_isRead (c := 'n'.toUInt8) (by decide) (by decide) (by decide) rfl ?_
      intro i hbyte
      rw [parseValue, hbyte]
      rfl
  | true => exact bool_isRead Bool.true
  | false => exact bool_isRead Bool.false
  | num n => exact num_isRead n
  | str hs => exact str_isRead hs
  | arr _ ih => exact arr_isRead ih
  | obj _ ih => exact obj_isRead ih
  | closeArr hw => exact closeArr_isRead hw
  | element hu hval htail ihval ih => exact element_isRead hu hval htail ihval ih
  | closeObj hw => exact closeObj_isRead hw
  | member hu hkey hu₁ hu₂ _ htail ihval ih =>
      exact member_isRead hu hkey hu₁ hu₂ htail ihval ih

end ReadValues

end JsonText

end HotpathIpc
