import HotpathIpc.Strategy.Compiler

/-!
# Reading a graph from JSON

`parse` of `src/compiler.rs` and the `mini_json` reader under it.

* A text is its bytes, and the cursor is an index into them.  As in the source the cursor may run
  past the end, after a shortened literal or a string that is not closed.
* A `while` that walks over bytes is a scan of the bytes from the cursor on.
* The two loops over members and elements, and the nesting of values, have bounds.  Every member,
  element and level takes a byte, so `parse` starts them above the number of bytes.
* An error ends the parse, so the cursor is not returned with it.
* An access out of range is `ParseError.panic`, and so is a bound that is met.
* A hash map is a list of members with distinct keys, which nothing reads in order.
* `str::parse::<f64>` is the decimal grammar of the standard library over the decimal literals of
  `F64`; its words for infinities and NaN have bytes that no number token has.
-/

namespace HotpathIpc

open Std (ExtTreeMap)

/-- Why nothing was parsed. -/
inductive ParseError where
  | panic
  | error (message : String)
deriving DecidableEq, Repr

/-! ## Values -/

/-- A JSON value. -/
inductive Json (F : Type) where
  | null
  | bool (b : Bool)
  | num (n : F)
  | str (s : String)
  | arr (items : List (Json F))
  | obj (members : List (String × Json F))

namespace Json

variable {F : Type}

def get (v : Json F) (key : String) : Option (Json F) :=
  match v with
  | obj m => m.lookup key
  | _ => none

def asArray : Json F → Option (List (Json F))
  | arr a => some a
  | _ => none

def asObject : Json F → Option (List (String × Json F))
  | obj m => some m
  | _ => none

def asStr : Json F → Option String
  | str s => some s
  | _ => none

def asF64 : Json F → Option F
  | num n => some n
  | _ => none

/-- `HashMap::insert`. -/
def insert (m : List (String × Json F)) (key : String) (val : Json F) : List (String × Json F) :=
  (key, val) :: m.filter fun p => p.1 ≠ key

end Json

/-! ## Numbers -/

namespace Decimal

def isDigit (c : UInt8) : Bool := '0'.toUInt8 ≤ c && c ≤ '9'.toUInt8

/-- The number that some digits spell. -/
def value (digits : List UInt8) : ℕ :=
  digits.foldl (fun n c => 10 * n + (c.toNat - '0'.toNat)) 0

/-- An optional sign: whether it is a minus, and what follows. -/
def sign : List UInt8 → Bool × List UInt8
  | [] => (false, [])
  | c :: s =>
      if c = '-'.toUInt8 then (true, s) else if c = '+'.toUInt8 then (false, s) else (false, c :: s)

/-- An optional exponent, up to the end. -/
def exponent : List UInt8 → Option ℤ
  | [] => some 0
  | c :: s =>
      if c = 'e'.toUInt8 ∨ c = 'E'.toUInt8 then
        let (minus, digits) := sign s
        if digits ≠ [] ∧ digits.all isDigit then
          some (if minus then -(value digits : ℤ) else value digits)
        else none
      else none

/-- The digits after a point, and what follows; none without a point. -/
def fraction : List UInt8 → List UInt8 × List UInt8
  | [] => ([], [])
  | c :: s =>
      if c = '.'.toUInt8 then (s.takeWhile isDigit, s.dropWhile isDigit) else ([], c :: s)

variable {F : Type} [F64 F]

/-- `m * 10 ^ e`. -/
def scaled (m : ℕ) (e : ℤ) : F :=
  if 0 ≤ e then OfScientific.ofScientific m false e.toNat
  else OfScientific.ofScientific m true (-e).toNat

/-- `str::parse::<f64>`. -/
def parseF64 (s : List UInt8) : Option F := do
  let (minus, s) := sign s
  let whole := s.takeWhile isDigit
  let (frac, s) := fraction (s.dropWhile isDigit)
  let e ← exponent s
  if whole = [] ∧ frac = [] then none
  else
    let x : F := scaled (value (whole ++ frac)) (e - frac.length)
    some (if minus then -x else x)

end Decimal

/-! ## The reader -/

namespace MiniJson

/-- `(c as char).is_whitespace()`. -/
def isWhitespace (c : UInt8) : Bool :=
  (9 ≤ c && c ≤ 13) || c = 32 || c = 0x85 || c = 0xA0

/-- The bytes of a number. -/
def isNumByte (c : UInt8) : Bool :=
  Decimal.isDigit c || c = '-'.toUInt8 || c = '+'.toUInt8 || c = '.'.toUInt8 || c = 'e'.toUInt8
    || c = 'E'.toUInt8

/-- A byte after a backslash. -/
def escaped (c : UInt8) : Char :=
  if c = 'n'.toUInt8 then '\n' else if c = 't'.toUInt8 then '\t' else Char.ofUInt8 c

/-- The characters up to the closing quote, and how many bytes they take. -/
def scanStr : List UInt8 → List Char × ℕ
  | [] => ([], 0)
  | [c] => if c = '"'.toUInt8 then ([], 0) else ([Char.ofUInt8 c], 1)
  | c :: d :: s =>
      if c = '"'.toUInt8 then ([], 0)
      else if c = '\\'.toUInt8 then
        let r := scanStr s
        (escaped d :: r.1, r.2 + 2)
      else
        let r := scanStr (d :: s)
        (Char.ofUInt8 c :: r.1, r.2 + 1)

variable {F : Type} [F64 F] (b : List UInt8)

def skipWs (i : ℕ) : ℕ := i + ((b.drop i).takeWhile isWhitespace).length

def parseStr (i : ℕ) : Except ParseError (String × ℕ) :=
  let i := skipWs b i
  if b[i]? = some '"'.toUInt8 then
    let r := scanStr (b.drop (i + 1))
    .ok (String.ofList r.1, i + 1 + r.2 + 1)
  else .error (ParseError.error "expected string")

def parseBool (i : ℕ) : Except ParseError (Json F × ℕ) :=
  match b[i]? with
  | none => .error ParseError.panic
  | some c =>
      if c = 't'.toUInt8 then .ok (Json.bool true, i + 4) else .ok (Json.bool false, i + 5)

def parseNum (start : ℕ) : Except ParseError (Json F × ℕ) :=
  let i := start + ((b.drop start).takeWhile isNumByte).length
  -- the slice `b[start..i]`
  if start ≤ i ∧ i ≤ b.length then
    match Decimal.parseF64 ((b.drop start).take (i - start)) with
    | some x => .ok (Json.num x, i)
    | none => .error (ParseError.error "bad number")
  else .error ParseError.panic

/-- A comma is optional. -/
def skipComma (i : ℕ) : ℕ := if b[i]? = some ','.toUInt8 then i + 1 else i

section Loops

variable (parseValue : ℕ → Except ParseError (Json F × ℕ))

/-- The loop of `parse_obj`. -/
def parseMembers : ℕ → List (String × Json F) → ℕ → Except ParseError (Json F × ℕ)
  | 0, _, _ => .error ParseError.panic
  | bound + 1, m, i =>
      let i := skipWs b i
      if b[i]? = some '}'.toUInt8 then .ok (Json.obj m, i + 1)
      else do
        let (key, i) ← parseStr b i
        let i := skipWs b i
        if b[i]? = some ':'.toUInt8 then
          let (val, i) ← parseValue (i + 1)
          parseMembers bound (Json.insert m key val) (skipComma b (skipWs b i))
        else .error (ParseError.error "expected :")

/-- The loop of `parse_arr`. -/
def parseElements : ℕ → List (Json F) → ℕ → Except ParseError (Json F × ℕ)
  | 0, _, _ => .error ParseError.panic
  | bound + 1, a, i =>
      let i := skipWs b i
      if b[i]? = some ']'.toUInt8 then .ok (Json.arr a, i + 1)
      else do
        let (val, i) ← parseValue i
        parseElements bound (a ++ [val]) (skipComma b (skipWs b i))

def parseObj (i : ℕ) : Except ParseError (Json F × ℕ) :=
  parseMembers b parseValue (b.length + 1) [] (i + 1)

def parseArr (i : ℕ) : Except ParseError (Json F × ℕ) :=
  parseElements b parseValue (b.length + 1) [] (i + 1)

end Loops

def parseValue : ℕ → ℕ → Except ParseError (Json F × ℕ)
  | 0, _ => .error ParseError.panic
  | bound + 1, i =>
      let i := skipWs b i
      match b[i]? with
      | none => .error (ParseError.error "unexpected end")
      | some c =>
          if c = '{'.toUInt8 then parseObj b (parseValue bound) i
          else if c = '['.toUInt8 then parseArr b (parseValue bound) i
          else if c = '"'.toUInt8 then (parseStr b i).map fun r => (Json.str r.1, r.2)
          else if c = 't'.toUInt8 ∨ c = 'f'.toUInt8 then parseBool b i
          else if c = 'n'.toUInt8 then .ok (Json.null, i + 4)
          else parseNum b i

/-- `mini_json::parse`. -/
def parse (s : String) : Except ParseError (Json F) :=
  let b := s.toUTF8.data.toList
  (parseValue b (b.length + 1) 0).map Prod.fst

end MiniJson

/-! ## The graph -/

section Graph

variable {F : Type} [F64 F]

/-- A string member, or the empty string. -/
def Json.strD (v : Json F) (key : String) : String := ((v.get key).bind Json.asStr).getD ""

def GNode.ofJson (n : Json F) : GNode F :=
  let props := ((n.get "properties").bind Json.asObject).getD []
  { id := n.strD "id"
    ntype := n.strD "type"
    nums := ExtTreeMap.ofList (props.filterMap fun p => p.2.asF64.map fun f => (p.1, f))
    strs := ExtTreeMap.ofList (props.filterMap fun p => p.2.asStr.map fun s => (p.1, s)) }

/-- A connection with two endpoints. -/
def connectionOfJson (c : Json F) : Option (String × String) :=
  let src := c.strD "from"
  let dst := c.strD "to"
  if src ≠ "" ∧ dst ≠ "" then some (src, dst) else none

/-- `compiler::parse`. -/
def parse (json : String) : Except ParseError (GraphSpec F) := do
  let v ← MiniJson.parse json
  match v.get "canvas" with
  | none => .error (ParseError.error "missing canvas")
  | some canvas =>
      .ok {
        nodes := (((canvas.get "nodes").bind Json.asArray).getD []).map GNode.ofJson
        connections :=
          (((canvas.get "connections").bind Json.asArray).getD []).filterMap connectionOfJson }

end Graph

end HotpathIpc
