import HotpathIpc.Library.Quoted
import HotpathIpc.Strategy.Composite
import HotpathIpc.Strategy.JsonText

/-!
# The knobs of the console

From the sliders of `webui/index.html` to the settings of the three stages, through the JSON of
`POST /run`, `StrategyParams` of `src/bin/control_server.rs` and the environment that it gives each
process.

* `from_params_json` reads no JSON: it looks for a quoted name, the next colon, and what stands
  before the next comma or brace.  `get_console` says what it finds in the text that the console
  sends.
* The stages read their variables with `env_or` of `src/runtime.rs`.  A variable that the server
  does not set is inherited.
* **`knobs_reach_pipeline`** — what is set in the browser is what the stages run with.

How `f64` prints is a parameter (`ConsoleF64.display`), and that it reads back what it printed is a
hypothesis on the values that are sent.
-/

namespace HotpathIpc

open JsonText

/-! ## Numbers as text -/

/-- What the control server does with an `f64` beyond arithmetic. -/
class ConsoleF64 (F : Type) extends F64 F where
  infinity : F
  nan : F
  /-- `as i64` and `as u64`, which saturate -/
  toI64 : F → Int
  toU64 : F → UInt64
  toI64_range : ∀ x, -2 ^ 63 ≤ toI64 x ∧ toI64 x < 2 ^ 63
  /-- `{}` and `{:.n}` -/
  display : F → String
  fixed : ℕ → F → String

variable {F : Type} [ConsoleF64 F]

def toAsciiLowercase (c : UInt8) : UInt8 :=
  if 'A'.toUInt8 ≤ c ∧ c ≤ 'Z'.toUInt8 then c + 32 else c

/-- `str::parse::<f64>`, with its words. -/
def parseFloat (s : List Char) : Option F :=
  let text := s.flatMap String.utf8EncodeChar
  let (minus, rest) := Decimal.sign text
  let word := rest.map toAsciiLowercase
  let signed (x : F) : F := if minus then -x else x
  if word = bytes "inf" ∨ word = bytes "infinity" then some (signed ConsoleF64.infinity)
  else if word = bytes "nan" then some (signed ConsoleF64.nan)
  else Decimal.parseF64 text

def parseDigits (s : List Char) : Option ℕ :=
  if s ≠ [] ∧ s.all Char.isDigit then some (Nat.ofDigitChars 10 s 0) else none

/-- `str::parse::<i64>`. -/
def parseI64 (s : String) : Option Int :=
  let n : Option Int := match s.toList with
    | '-' :: digits => (parseDigits digits).map fun n : ℕ => -(n : Int)
    | '+' :: digits => (parseDigits digits).map Int.ofNat
    | digits => (parseDigits digits).map Int.ofNat
  n.filter fun n => -2 ^ 63 ≤ n ∧ n < 2 ^ 63

/-- `str::parse::<u64>`, and of a `usize`. -/
def parseU64 (s : String) : Option UInt64 :=
  let n : Option ℕ := match s.toList with
    | '+' :: digits => parseDigits digits
    | digits => parseDigits digits
  (n.filter fun n => n < 2 ^ 64).map UInt64.ofNat

/-! ## The parameters of a run -/

/-- The knobs the console sets. -/
structure StrategyParams (F : Type) where
  weightTrend : F
  weightMomentum : F
  weightReversion : F
  threshold : F
  maxPosition : Int
  vol : F
  tickUs : UInt64
  /-- Run the gate graph instead of the composite blend. -/
  gates : Bool

namespace StrategyParams

def default : StrategyParams F where
  weightTrend := 0.5
  weightMomentum := 0.3
  weightReversion := 0.2
  threshold := 0.25
  maxPosition := 3
  vol := 8.0
  tickUs := 40
  gates := false

/-- `char::is_whitespace`. -/
def isWhitespace (c : Char) : Bool :=
  (9 ≤ c.toNat && c.toNat ≤ 13) || c.toNat = 0x20 || c.toNat = 0x85 || c.toNat = 0xA0
    || c.toNat = 0x1680 || (0x2000 ≤ c.toNat && c.toNat ≤ 0x200A) || c.toNat = 0x2028
    || c.toNat = 0x2029 || c.toNat = 0x202F || c.toNat = 0x205F || c.toNat = 0x3000

/-- `str::trim_matches`. -/
def trimMatches (p : Char → Bool) (s : List Char) : List Char :=
  ((s.dropWhile p).reverse.dropWhile p).reverse

def quoted (key : String) : List Char := '"' :: (key.toList ++ ['"'])

/-- The closure `get` of `from_params_json`. -/
def get (body key : String) : Option F := do
  let rest ← Quoted.after (quoted key) body.toList
  let value ← Quoted.after [':'] rest
  let token := value.takeWhile fun c => c ≠ ',' ∧ c ≠ '\x7d'
  parseFloat (trimMatches (fun c => c = '"') (trimMatches isWhitespace token))

def fromParamsJson (body : String) : StrategyParams F where
  weightTrend := (get body "weight_trend").getD default.weightTrend
  weightMomentum := (get body "weight_momentum").getD default.weightMomentum
  weightReversion := (get body "weight_reversion").getD default.weightReversion
  threshold := (get body "threshold").getD default.threshold
  maxPosition := ((get (F := F) body "max_position").map ConsoleF64.toI64).getD
    (default (F := F)).maxPosition
  vol := (get body "vol").getD default.vol
  tickUs := ((get (F := F) body "tick_us").map ConsoleF64.toU64).getD (default (F := F)).tickUs
  gates := (Quoted.after (quoted "gates") body.toList).isSome

def describe (p : StrategyParams F) : String :=
  let rest := s!"maxpos={p.maxPosition} vol={ConsoleF64.fixed 1 p.vol} tick={p.tickUs}us"
  if p.gates then "gate strategy (AND/OR bytecode) " ++ rest
  else
    "composite trend=" ++ ConsoleF64.fixed 2 p.weightTrend
      ++ " mom=" ++ ConsoleF64.fixed 2 p.weightMomentum
      ++ " rev=" ++ ConsoleF64.fixed 2 p.weightReversion
      ++ " thr=" ++ ConsoleF64.fixed 2 p.threshold ++ " " ++ rest

end StrategyParams

/-! ## The environment of a stage -/

inductive Stage where
  | execution
  | strategy
  | exchange
deriving DecidableEq, Repr

/-- A studio run is finite: the strategy stops after this many orders. -/
def STUDIO_ORDERS : ℕ := 300

/-- And after this many seconds. -/
def STUDIO_MAX_SECONDS : ℕ := 30

/-- The variables that `launch` sets for a stage; `graph` is where the gate graph is. -/
def StrategyParams.envs (p : StrategyParams F) (graph : String) : Stage → List (String × String)
  | Stage.execution => [("CPU_CORE", "3"), ("MAX_FILLS", toString STUDIO_ORDERS)]
  | Stage.strategy =>
      [("CPU_CORE", "2"),
        ("THRESHOLD", ConsoleF64.display p.threshold),
        ("WEIGHT_TREND", ConsoleF64.display p.weightTrend),
        ("WEIGHT_MOMENTUM", ConsoleF64.display p.weightMomentum),
        ("WEIGHT_REVERSION", ConsoleF64.display p.weightReversion),
        ("MAX_POSITION", toString p.maxPosition),
        ("MAX_ORDERS", toString STUDIO_ORDERS),
        ("MAX_SECONDS", toString STUDIO_MAX_SECONDS)]
        ++ if p.gates then [("STRATEGY_JSON", graph)] else []
  | Stage.exchange =>
      [("CPU_CORE", "1"),
        ("VOL", ConsoleF64.display p.vol),
        ("TICK_US", toString p.tickUs.toNat),
        ("SEED", "42")]

abbrev Environment := String → Option String

/-- The environment of a child: what its parent has, and what `cmd.env` sets. -/
def Environment.child (parent : Environment) (envs : List (String × String)) : Environment :=
  envs.foldl (fun env kv => Function.update env kv.1 (some kv.2)) parent

/-- `env_or`. -/
def envOr {α : Type} (parse : String → Option α) (env : Environment) (key : String)
    (default : α) : α :=
  ((env key).bind parse).getD default

/-! ## What the stages read -/

/-- The composite configuration of the strategy stage. -/
def StrategyConfig.fromEnv (env : Environment) : StrategyConfig F :=
  let envf (key : String) : Option F := (env key).bind fun v => parseFloat v.toList
  let envu (key : String) : Option ℕ := ((env key).bind parseU64).map UInt64.toNat
  let cfg : StrategyConfig F := StrategyConfig.default
  { cfg with
    threshold := (envf "THRESHOLD").getD cfg.threshold
    weightTrend := (envf "WEIGHT_TREND").getD cfg.weightTrend
    weightMomentum := (envf "WEIGHT_MOMENTUM").getD cfg.weightMomentum
    weightReversion := (envf "WEIGHT_REVERSION").getD cfg.weightReversion
    cooldownTicks := (envu "COOLDOWN").getD cfg.cooldownTicks
    fastEmaPeriod := (envu "FAST_EMA").getD cfg.fastEmaPeriod
    slowEmaPeriod := (envu "SLOW_EMA").getD cfg.slowEmaPeriod }

/-- What else the strategy stage takes from its environment for a run. -/
structure StrategySettings (F : Type) where
  cfg : StrategyConfig F
  maxPosition : Int
  maxOrders : UInt64
  maxSeconds : UInt64
  /-- the graph to run instead of the composite strategy -/
  strategyJson : Option String

def StrategySettings.fromEnv (env : Environment) : StrategySettings F where
  cfg := StrategyConfig.fromEnv env
  maxPosition := envOr parseI64 env "MAX_POSITION" 3
  maxOrders := envOr parseU64 env "MAX_ORDERS" 0
  maxSeconds := envOr parseU64 env "MAX_SECONDS" 0
  strategyJson := env "STRATEGY_JSON"

structure ExchangeSettings (F : Type) where
  seed : UInt64
  vol : F
  tickUs : UInt64

def ExchangeSettings.fromEnv (env : Environment) : ExchangeSettings F where
  seed := envOr parseU64 env "SEED" 42
  vol := envOr (fun v => parseFloat v.toList) env "VOL" 6.0
  tickUs := envOr parseU64 env "TICK_US" 100

/-- The bound on the fills of the execution stage. -/
def maxFillsFromEnv (env : Environment) : UInt64 := envOr parseU64 env "MAX_FILLS" 0

/-! ## What the console sends -/

/-- The sliders, as numbers of JSON. -/
structure Sliders where
  wTrend : Number
  wMom : Number
  wRev : Number
  thr : Number
  maxpos : Number
  vol : Number

/-- The number `40`. -/
def forty : Number where
  minus := false
  whole := ⟨['4'.toUInt8, '0'.toUInt8], List.cons_ne_nil _ _,
    List.forall_mem_cons.mpr ⟨rfl, List.forall_mem_singleton.mpr rfl⟩⟩
  fraction := none
  exponent := none
  leading := by decide

/-- `params` of the console, without the mode. -/
def Sliders.params (s : Sliders) : List (String × Number) :=
  [("weight_trend", s.wTrend), ("weight_momentum", s.wMom), ("weight_reversion", s.wRev),
    ("threshold", s.thr), ("max_position", s.maxpos), ("vol", s.vol), ("tick_us", forty)]

def numberText (n : Number) : List Char := n.text.map Char.ofUInt8

/-- What stands between the quote behind a name and the quote before the next one. -/
def valuePiece (n : Number) : List Char := ':' :: (numberText n ++ [','])

def memberPieces (fields : List (String × Number)) : List (List Char) :=
  fields.flatMap fun field => [field.1.toList, valuePiece field.2]

/-- `strategyMode`. -/
def strategyMode (gates : Bool) : String := if gates then "gates" else "composite"

/-- `JSON.stringify({ params: params() })`, cut at its quotes. -/
def consolePieces (fields : List (String × Number)) (gates : Bool) : List (List Char) :=
  ["params".toList, ":\x7b".toList] ++ (memberPieces fields
    ++ ["strategy".toList, ":".toList, (strategyMode gates).toList, "\x7d\x7d".toList])

/-- The body of the request that the Run button sends. -/
def consoleBody (s : Sliders) (gates : Bool) : String :=
  String.ofList ('\x7b' :: Quoted.text '"' (consolePieces s.params gates))

/-! ## Number tokens -/

/-- The characters of numbers, which are neither quotes, commas, braces nor whitespace. -/
def IsNumChar (c : Char) : Prop :=
  c.toNat < 128 ∧ c ≠ '"' ∧ c ≠ ',' ∧ c ≠ '\x7d' ∧ StrategyParams.isWhitespace c = false

theorem numChar_of_byte : ∀ b < 256, MiniJson.isNumByte (UInt8.ofNat b) = true →
    IsNumChar (Char.ofUInt8 (UInt8.ofNat b)) := by
  unfold IsNumChar
  decide +kernel

theorem isNumChar_numberText (n : Number) : ∀ c ∈ numberText n, IsNumChar c := by
  intro c hc
  obtain ⟨b, hb, rfl⟩ := List.mem_map.mp hc
  have hnum := numChar_of_byte b.toNat (UInt8.toNat_lt b)
  rw [UInt8.ofNat_toNat] at hnum
  exact hnum (isNumByte_text n b hb)

theorem utf8_numberText (n : Number) : (numberText n).flatMap String.utf8EncodeChar = n.text := by
  have hbyte : ∀ b ∈ n.text, String.utf8EncodeChar (Char.ofUInt8 b) = [b] := by
    intro b hb
    have hlt := (isNumChar_numberText n _ (List.mem_map_of_mem hb)).1
    rw [utf8_ascii hlt]
    exact congrArg (fun x => [x]) (UInt8.ofNat_toNat)
  rw [numberText, List.flatMap_map]
  exact (List.flatMap_congr hbyte).trans (List.flatMap_singleton' _)

theorem sign_numberText (n : Number) : Decimal.sign n.text = (n.minus, n.whole.1
    ++ (Number.fractionText n.fraction ++ Number.exponentText n.exponent)) := by
  rw [Number.text]
  cases n.minus
  · exact sign_digits _ _
  · rfl

/-- No number starts like a word for an infinity or NaN. -/
theorem parseFloat_number (n : Number) : parseFloat (numberText n) = some (n.value : F) := by
  have hword : ∀ w : List UInt8, w.head? = some 'i'.toUInt8 ∨ w.head? = some 'n'.toUInt8 →
      (n.whole.1 ++ (Number.fractionText n.fraction
        ++ Number.exponentText n.exponent)).map toAsciiLowercase ≠ w := by
    obtain ⟨c, ds, hds, hc⟩ := Digits.head n.whole
    have hdigit : ∀ b < 256, Decimal.isDigit (UInt8.ofNat b) = true →
        toAsciiLowercase (UInt8.ofNat b) ≠ 'i'.toUInt8 ∧
          toAsciiLowercase (UInt8.ofNat b) ≠ 'n'.toUInt8 := by decide +kernel
    have hlower := hdigit c.toNat (UInt8.toNat_lt c)
    rw [UInt8.ofNat_toNat] at hlower
    rintro w hw rfl
    rw [hds] at hw
    rcases hw with hw | hw
    · exact (hlower hc).1 (Option.some.inj hw)
    · exact (hlower hc).2 (Option.some.inj hw)
  rw [parseFloat]
  dsimp only
  rw [utf8_numberText, sign_numberText]
  dsimp only
  rw [if_neg, if_neg]
  · exact parseF64_text n
  · exact hword _ (Or.inr (by decide))
  · rintro (h | h)
    · exact hword _ (Or.inl (by decide)) h
    · exact hword _ (Or.inl (by decide)) h

/-! ## A member is found -/

section Members

variable {key : String} {fields : List (String × Number)}

theorem valuePiece_ne (hcolon : key.toList.head? ≠ some ':') (n : Number) :
    valuePiece n ≠ key.toList := fun h => hcolon (h ▸ rfl)

theorem behind_member (hcolon : key.toList.head? ≠ some ':') {tail : List (List Char)}
    {n : Number} : ∀ {fields : List (String × Number)}, fields.lookup key = some n →
      ∃ rest, Quoted.behind key.toList (memberPieces fields ++ tail) = some (valuePiece n :: rest)
  | [], h => by cases h
  | (name, m) :: fields, h => by
      have hpieces : memberPieces ((name, m) :: fields) ++ tail
          = name.toList :: valuePiece m :: (memberPieces fields ++ tail) := rfl
      rw [hpieces]
      rw [List.lookup_cons] at h
      by_cases hname : key = name
      · subst hname
        rw [beq_self_eq_true] at h
        obtain rfl := Option.some.inj h
        exact ⟨_, Quoted.behind_self (List.cons_ne_nil _ _)⟩
      · rw [beq_false_of_ne hname] at h
        obtain ⟨rest, hrest⟩ : ∃ rest, Quoted.behind key.toList (memberPieces fields ++ tail)
            = some (valuePiece n :: rest) := behind_member hcolon h
        have hskip : key.toList ∉ [name.toList, valuePiece m] := by
          intro hmem
          rcases List.mem_cons.mp hmem with heq | hmem
          · exact hname (String.toList_inj.mp heq)
          · exact valuePiece_ne hcolon m (List.mem_singleton.mp hmem).symm
        exact ⟨rest, (Quoted.behind_append (u := [name.toList, valuePiece m]) hskip).trans hrest⟩

theorem quote_not_mem_consolePieces (hnames : ∀ field ∈ fields, '"' ∉ field.1.toList)
    (gates : Bool) : ∀ piece ∈ consolePieces fields gates, '"' ∉ piece := by
  have hvalue : ∀ n : Number, '"' ∉ valuePiece n := by
    intro n h
    rcases List.mem_cons.mp h with h | h
    · cases h
    · rcases List.mem_append.mp h with h | h
      · exact (isNumChar_numberText n _ h).2.1 rfl
      · exact absurd h (by decide)
  intro piece h
  rcases List.mem_append.mp h with h | h
  · have hhead : ∀ p ∈ ["params".toList, ":\x7b".toList], '"' ∉ p := by decide
    exact hhead piece h
  · rcases List.mem_append.mp h with h | h
    · obtain ⟨field, hfield, h⟩ := List.mem_flatMap.mp h
      rcases List.mem_cons.mp h with rfl | h
      · exact hnames field hfield
      · rw [List.mem_singleton.mp h]
        exact hvalue field.2
    · have htail : ∀ p ∈ ["strategy".toList, ":".toList, (strategyMode gates).toList,
          "\x7d\x7d".toList], '"' ∉ p := by
        cases gates <;> decide
      exact htail piece h

theorem trimMatches_id {p : Char → Bool} {s : List Char} (h : ∀ c ∈ s, p c = false) :
    StrategyParams.trimMatches p s = s := by
  have hdrop : ∀ t : List Char, (∀ c ∈ t, p c = false) → t.dropWhile p = t := by
    intro t ht
    cases t with
    | nil => rfl
    | cons c t =>
        have hc : ¬ p c = true := by simp [ht c List.mem_cons_self]
        exact List.dropWhile_cons_of_neg hc
  rw [StrategyParams.trimMatches, hdrop s h,
    hdrop s.reverse fun c hc => h c (List.mem_reverse.mp hc), List.reverse_reverse]

/-- What stands behind the colon of a member is read up to its comma. -/
theorem takeWhile_number (n : Number) (rest : List Char) :
    (numberText n ++ ',' :: rest).takeWhile (fun c => decide (c ≠ ',' ∧ c ≠ '\x7d'))
      = numberText n := by
  rw [List.takeWhile_append_of_pos]
  · exact List.append_nil _
  · intro c hc
    have hnum := isNumChar_numberText n c hc
    exact decide_eq_true ⟨hnum.2.2.1, hnum.2.2.2.1⟩

/-- **A member is found**: `get` reads the number of the first member with its name. -/
theorem get_console {gates : Bool} {n : Number} (hnames : ∀ field ∈ fields, '"' ∉ field.1.toList)
    (hquote : '"' ∉ key.toList) (hcolon : key.toList.head? ≠ some ':')
    (hparams : key ≠ "params") (hfield : fields.lookup key = some n) :
    StrategyParams.get (String.ofList ('\x7b' :: Quoted.text '"' (consolePieces fields gates))) key
      = some (n.value : F) := by
  have hhead : key.toList ∉ ["params".toList, ":\x7b".toList] := by
    intro hmem
    rcases List.mem_cons.mp hmem with heq | hmem
    · exact hparams (String.toList_inj.mp heq)
    · exact hcolon (List.mem_singleton.mp hmem ▸ rfl)
  obtain ⟨rest, hrest⟩ : ∃ rest, Quoted.behind key.toList (memberPieces fields ++
      ["strategy".toList, ":".toList, (strategyMode gates).toList, "\x7d\x7d".toList])
        = some (valuePiece n :: rest) := behind_member hcolon hfield
  have hbehind : Quoted.behind key.toList (consolePieces fields gates)
      = some (valuePiece n :: rest) := (Quoted.behind_append hhead).trans hrest
  have hfound : Quoted.after (StrategyParams.quoted key)
      ('\x7b' :: Quoted.text '"' (consolePieces fields gates))
        = some ([':'] ++ (numberText n ++ ',' :: Quoted.text '"' rest)) := by
    have hbrace : '"' ∉ ['\x7b'] := by decide
    have htext := Quoted.after_text hquote (quote_not_mem_consolePieces hnames gates)
    rw [hbehind] at htext
    refine (Quoted.after_skip hbrace _).trans (htext.trans ?_)
    simp [Quoted.between, valuePiece]
  have hcolonAfter := Quoted.after_found (List.cons_ne_nil ':' [])
    (numberText n ++ ',' :: Quoted.text '"' rest)
  have hquotes : ∀ c ∈ numberText n, decide (c = '"') = false := fun c hc =>
    decide_eq_false (isNumChar_numberText n c hc).2.1
  have hspaces : ∀ c ∈ numberText n, StrategyParams.isWhitespace c = false := fun c hc =>
    (isNumChar_numberText n c hc).2.2.2.2
  rw [StrategyParams.get, String.toList_ofList, hfound]
  dsimp only [Option.bind_eq_bind, Option.bind_some]
  rw [hcolonAfter]
  dsimp only [Option.bind_some]
  rw [takeWhile_number, trimMatches_id hspaces, trimMatches_id hquotes, parseFloat_number]

end Members

def knobNames : List String :=
  ["weight_trend", "weight_momentum", "weight_reversion", "threshold", "max_position", "vol",
    "tick_us"]

/-- The mode is found by its name alone. -/
theorem gates_console (s : Sliders) (gates : Bool) :
    (Quoted.after (StrategyParams.quoted "gates") (consoleBody s gates).toList).isSome = gates := by
  have hcolon : "gates".toList.head? ≠ some ':' := by decide
  have hnames : ∀ field ∈ s.params, '"' ∉ field.1.toList ∧ "gates".toList ≠ field.1.toList := by
    have hkeys : ∀ name ∈ knobNames, '"' ∉ name.toList ∧ "gates".toList ≠ name.toList := by decide
    exact fun field hfield => hkeys _ (List.mem_map_of_mem (f := Prod.fst) hfield)
  have hbefore : "gates".toList ∉ ["params".toList, ":\x7b".toList] ++ (memberPieces s.params
      ++ ["strategy".toList, ":".toList]) := by
    intro hmem
    rcases List.mem_append.mp hmem with h | h
    · exact absurd h (by decide)
    · rcases List.mem_append.mp h with h | h
      · obtain ⟨field, hfield, h⟩ := List.mem_flatMap.mp h
        rcases List.mem_cons.mp h with h | h
        · exact (hnames field hfield).2 h
        · exact valuePiece_ne hcolon field.2 (List.mem_singleton.mp h).symm
      · exact absurd h (by decide)
  have hsplit : consolePieces s.params gates = (["params".toList, ":\x7b".toList]
      ++ (memberPieces s.params ++ ["strategy".toList, ":".toList]))
        ++ [(strategyMode gates).toList, "\x7d\x7d".toList] := by
    simp [consolePieces]
  have hbehind : (Quoted.behind "gates".toList (consolePieces s.params gates)).isSome = gates := by
    rw [hsplit, Quoted.behind_append hbefore]
    cases gates <;> decide
  have hbrace : '"' ∉ ['\x7b'] := by decide
  have hword : '"' ∉ "gates".toList := by decide
  have htext := Quoted.after_text hword
    (quote_not_mem_consolePieces (fun field hfield => (hnames field hfield).1) gates)
  have hafter : Quoted.after (StrategyParams.quoted "gates") (consoleBody s gates).toList
      = (Quoted.behind "gates".toList (consolePieces s.params gates)).map (Quoted.between '"') := by
    rw [consoleBody, String.toList_ofList]
    exact (Quoted.after_skip hbrace _).trans htext
  rw [hafter, Option.isSome_map, hbehind]

/-- What the console sends is what the server takes. -/
theorem fromParamsJson_console (s : Sliders) (gates : Bool) :
    (StrategyParams.fromParamsJson (consoleBody s gates) : StrategyParams F)
      = ⟨s.wTrend.value, s.wMom.value, s.wRev.value, s.thr.value,
          ConsoleF64.toI64 (s.maxpos.value : F), s.vol.value,
          ConsoleF64.toU64 (forty.value : F), gates⟩ := by
  have hnames : ∀ field ∈ s.params, '"' ∉ field.1.toList := by
    have hkeys : ∀ name ∈ knobNames, '"' ∉ name.toList := by decide
    exact fun field hfield => hkeys _ (List.mem_map_of_mem (f := Prod.fst) hfield)
  have hget : ∀ (key : String) (n : Number), '"' ∉ key.toList → key.toList.head? ≠ some ':' →
      key ≠ "params" → s.params.lookup key = some n →
        StrategyParams.get (consoleBody s gates) key = some (n.value : F) :=
    fun _ _ hquote hcolon hparams hfield => get_console hnames hquote hcolon hparams hfield
  rw [StrategyParams.fromParamsJson, gates_console,
    hget "weight_trend" s.wTrend (by decide) (by decide) (by decide) rfl,
    hget "weight_momentum" s.wMom (by decide) (by decide) (by decide) rfl,
    hget "weight_reversion" s.wRev (by decide) (by decide) (by decide) rfl,
    hget "threshold" s.thr (by decide) (by decide) (by decide) rfl,
    hget "max_position" s.maxpos (by decide) (by decide) (by decide) rfl,
    hget "vol" s.vol (by decide) (by decide) (by decide) rfl,
    hget "tick_us" forty (by decide) (by decide) (by decide) rfl]
  rfl

/-! ## Integers read back -/

theorem parseDigits_toString (n : ℕ) : parseDigits (toString n).toList = some n := by
  have hdigits : (Nat.toDigits 10 n).all Char.isDigit = true := List.all_eq_true.mpr fun _ hc =>
    Nat.isDigit_of_mem_toDigits (by decide) (by decide) hc
  rw [Nat.toString_eq_ofList_toDigits, String.toList_ofList, parseDigits,
    if_pos ⟨Nat.toDigits_ne_nil, hdigits⟩, Nat.ofDigitChars_ten_toDigits]

/-- Digits do not start with a sign. -/
theorem head_toString (n : ℕ) : ∃ c cs, (toString n).toList = c :: cs ∧ c ≠ '-' ∧ c ≠ '+' := by
  rw [Nat.toString_eq_ofList_toDigits, String.toList_ofList]
  obtain ⟨c, cs, hcs⟩ := List.exists_cons_of_ne_nil (Nat.toDigits_ne_nil (n := n) (b := 10))
  have hc : c.isDigit = true :=
    Nat.isDigit_of_mem_toDigits (by decide) (by decide) (hcs ▸ List.mem_cons_self)
  refine ⟨c, cs, hcs, ?_, ?_⟩ <;> rintro rfl <;> exact absurd hc (by decide)

theorem parseU64_toString (n : UInt64) : parseU64 (toString n.toNat) = some n := by
  have hdigits := parseDigits_toString n.toNat
  obtain ⟨c, cs, hcs, -, hplus⟩ := head_toString n.toNat
  rw [hcs] at hdigits
  have hlt := UInt64.toNat_lt n
  rw [parseU64, hcs]
  split
  · rename_i heq
    exact absurd (List.cons.inj heq).1 hplus
  · rw [hdigits, Option.filter_some, if_pos (decide_eq_true hlt), Option.map_some,
      UInt64.ofNat_toNat]

theorem parseI64_toString {i : Int} (hlow : -2 ^ 63 ≤ i) (hhigh : i < 2 ^ 63) :
    parseI64 (toString i) = some i := by
  have hrange : decide (-2 ^ 63 ≤ i ∧ i < 2 ^ 63) = true := decide_eq_true ⟨hlow, hhigh⟩
  cases i with
  | ofNat n =>
      have hdigits := parseDigits_toString n
      obtain ⟨c, cs, hcs, hminus, hplus⟩ := head_toString n
      have htext : (toString (Int.ofNat n)).toList = c :: cs := hcs
      rw [hcs] at hdigits
      rw [parseI64, htext]
      split
      · rename_i heq
        exact absurd (List.cons.inj heq).1 hminus
      · rename_i heq
        exact absurd (List.cons.inj heq).1 hplus
      · rw [hdigits, Option.map_some, Option.filter_some, if_pos hrange]
  | negSucc n =>
      have htext : (toString (Int.negSucc n)).toList = '-' :: (toString (n + 1)).toList := by
        have hminus : toString (Int.negSucc n) = "-" ++ toString (n + 1) := rfl
        rw [hminus, String.toList_append]
        rfl
      rw [parseI64, htext]
      show Option.filter _ ((parseDigits (toString (n + 1)).toList).map fun n : ℕ => -(n : Int)) = _
      rw [parseDigits_toString, Option.map_some, Option.filter_some]
      exact if_pos hrange

/-! ## What a child inherits -/

section Child

variable {key val : String}

theorem child_of_not_mem : ∀ {envs : List (String × String)} {parent : Environment},
    key ∉ envs.map Prod.fst → parent.child envs key = parent key
  | [], _, _ => rfl
  | kv :: envs, parent, h => by
      obtain ⟨hne, hrest⟩ := not_or.mp (List.mem_cons.not.mp h)
      have ih : Environment.child (Function.update parent kv.1 (some kv.2)) envs key
          = Function.update parent kv.1 (some kv.2) key := child_of_not_mem hrest
      exact ih.trans (Function.update_of_ne hne _ _)

theorem child_of_mem : ∀ {envs : List (String × String)} {parent : Environment},
    (envs.map Prod.fst).Nodup → (key, val) ∈ envs → parent.child envs key = some val
  | [], _, _, h => absurd h List.not_mem_nil
  | kv :: envs, parent, hnodup, h => by
      obtain ⟨hfresh, hnodup⟩ := List.nodup_cons.mp hnodup
      rcases List.mem_cons.mp h with rfl | h
      · have hlater : Environment.child (Function.update parent key (some val)) envs key
            = Function.update parent key (some val) key := child_of_not_mem hfresh
        exact hlater.trans (Function.update_self _ _ _)
      · have ih : Environment.child (Function.update parent kv.1 (some kv.2)) envs key
            = some val := child_of_mem hnodup h
        exact ih

end Child

/-- The variables that are always set for the strategy stage. -/
def strategyNames : List String :=
  ["CPU_CORE", "THRESHOLD", "WEIGHT_TREND", "WEIGHT_MOMENTUM", "WEIGHT_REVERSION", "MAX_POSITION",
    "MAX_ORDERS", "MAX_SECONDS"]

theorem names_strategy (p : StrategyParams F) (graph : String) :
    (p.envs graph Stage.strategy).map Prod.fst
      = strategyNames ++ if p.gates then ["STRATEGY_JSON"] else [] := by
  rw [StrategyParams.envs, List.map_append]
  cases p.gates <;> rfl

theorem nodup_envs (p : StrategyParams F) (graph : String) (stage : Stage) :
    ((p.envs graph stage).map Prod.fst).Nodup := by
  cases stage with
  | execution => exact (by decide : ["CPU_CORE", "MAX_FILLS"].Nodup)
  | exchange => exact (by decide : ["CPU_CORE", "VOL", "TICK_US", "SEED"].Nodup)
  | strategy =>
      rw [names_strategy]
      cases p.gates <;> decide

/-! ## The result -/

section Settings

variable {parent : Environment} {graph : String} {p : StrategyParams F}

theorem strategySettings_child
    (hdisplay : ∀ x ∈ [p.threshold, p.weightTrend, p.weightMomentum, p.weightReversion],
      parseFloat (ConsoleF64.display x).toList = some x)
    (hlow : -2 ^ 63 ≤ p.maxPosition) (hhigh : p.maxPosition < 2 ^ 63) :
    StrategySettings.fromEnv (parent.child (p.envs graph Stage.strategy))
      = { cfg := { StrategyConfig.fromEnv parent with
            threshold := p.threshold, weightTrend := p.weightTrend,
            weightMomentum := p.weightMomentum, weightReversion := p.weightReversion }
          maxPosition := p.maxPosition
          maxOrders := 300
          maxSeconds := 30
          strategyJson := if p.gates then some graph else parent "STRATEGY_JSON" } := by
  have hset : ∀ {key val : String}, (key, val) ∈ p.envs graph Stage.strategy →
      parent.child (p.envs graph Stage.strategy) key = some val :=
    child_of_mem (nodup_envs p graph _)
  have hkept : ∀ key ∉ strategyNames ++ ["STRATEGY_JSON"],
      parent.child (p.envs graph Stage.strategy) key = parent key := by
    intro key hkey
    refine child_of_not_mem fun hmem => hkey ?_
    rw [names_strategy] at hmem
    cases hgates : p.gates <;> rw [hgates] at hmem
    · exact List.mem_append_left _ (List.append_nil strategyNames ▸ hmem)
    · exact hmem
  have hmem : ∀ kv ∈ [("THRESHOLD", ConsoleF64.display p.threshold),
      ("WEIGHT_TREND", ConsoleF64.display p.weightTrend),
      ("WEIGHT_MOMENTUM", ConsoleF64.display p.weightMomentum),
      ("WEIGHT_REVERSION", ConsoleF64.display p.weightReversion),
      ("MAX_POSITION", toString p.maxPosition), ("MAX_ORDERS", toString STUDIO_ORDERS),
      ("MAX_SECONDS", toString STUDIO_MAX_SECONDS)], kv ∈ p.envs graph Stage.strategy :=
    fun _ hkv => List.mem_append_left _ (List.mem_cons_of_mem _ hkv)
  simp only [List.forall_mem_cons] at hmem hdisplay
  obtain ⟨hthr, htrend, hmom, hrev, hpos, horders, hseconds, -⟩ := hmem
  obtain ⟨hthrText, htrendText, hmomText, hrevText, -⟩ := hdisplay
  have hjson : parent.child (p.envs graph Stage.strategy) "STRATEGY_JSON"
      = if p.gates then some graph else parent "STRATEGY_JSON" := by
    cases hgates : p.gates with
    | true =>
        refine hset (List.mem_append_right _ ?_)
        rw [hgates]
        exact List.mem_cons_self
    | false =>
        refine child_of_not_mem ?_
        rw [names_strategy, hgates]
        decide
  have hcfg : StrategyConfig.fromEnv (parent.child (p.envs graph Stage.strategy))
      = { StrategyConfig.fromEnv parent with
            threshold := p.threshold, weightTrend := p.weightTrend,
            weightMomentum := p.weightMomentum, weightReversion := p.weightReversion } := by
    simp only [StrategyConfig.fromEnv, hset hthr, hset htrend, hset hmom, hset hrev,
      hkept "COOLDOWN" (by decide), hkept "FAST_EMA" (by decide), hkept "SLOW_EMA" (by decide),
      Option.bind_some, hthrText, htrendText, hmomText, hrevText, Option.getD_some]
  have hpositionText := parseI64_toString hlow hhigh
  have hordersText : parseU64 (toString STUDIO_ORDERS) = some 300 := parseU64_toString 300
  have hsecondsText : parseU64 (toString STUDIO_MAX_SECONDS) = some 30 := parseU64_toString 30
  simp only [StrategySettings.fromEnv, hcfg, hjson, envOr, hset hpos, hset horders, hset hseconds,
    Option.bind_some, hpositionText, hordersText, hsecondsText, Option.getD_some]

theorem exchangeSettings_child
    (hdisplay : parseFloat (ConsoleF64.display p.vol).toList = some p.vol) :
    ExchangeSettings.fromEnv (parent.child (p.envs graph Stage.exchange))
      = ⟨42, p.vol, p.tickUs⟩ := by
  have hset : ∀ {key val : String}, (key, val) ∈ p.envs graph Stage.exchange →
      parent.child (p.envs graph Stage.exchange) key = some val :=
    child_of_mem (nodup_envs p graph _)
  have hmem : ∀ kv ∈ [("VOL", ConsoleF64.display p.vol), ("TICK_US", toString p.tickUs.toNat),
      ("SEED", "42")], kv ∈ p.envs graph Stage.exchange := fun _ hkv => List.mem_cons_of_mem _ hkv
  simp only [List.forall_mem_cons] at hmem
  obtain ⟨hvol, htick, hseed, -⟩ := hmem
  have htickText := parseU64_toString p.tickUs
  have hseedText : parseU64 "42" = some 42 := parseU64_toString 42
  simp only [ExchangeSettings.fromEnv, envOr, hset hvol, hset htick, hset hseed, Option.bind_some,
    hdisplay, htickText, hseedText, Option.getD_some]

theorem maxFills_child :
    maxFillsFromEnv (parent.child (p.envs graph Stage.execution)) = 300 := by
  have hset : parent.child (p.envs graph Stage.execution) "MAX_FILLS"
      = some (toString STUDIO_ORDERS) :=
    child_of_mem (nodup_envs p graph _) (List.mem_cons_of_mem _ List.mem_cons_self)
  have hfills : parseU64 (toString STUDIO_ORDERS) = some 300 := parseU64_toString 300
  simp only [maxFillsFromEnv, envOr, hset, Option.bind_some, hfills, Option.getD_some]

end Settings

/-- Exact arithmetic, with a given way to print. -/
@[reducible] def ConsoleF64.exact (display : ℚ → String) : ConsoleF64 ℚ where
  toF64 := F64.exact id
  infinity := 2 ^ 1024
  nan := 0
  toI64 x := max (-2 ^ 63) (min (if x < 0 then x.ceil else x.floor) (2 ^ 63 - 1))
  toU64 x := UInt64.ofNat (min x.floor.toNat (2 ^ 64 - 1))
  toI64_range x := by omega
  display := display
  fixed _ := display

/-- The number `0.5`. -/
def half : Number where
  minus := false
  whole := ⟨['0'.toUInt8], List.cons_ne_nil _ _, List.forall_mem_singleton.mpr rfl⟩
  fraction := some ⟨['5'.toUInt8], List.cons_ne_nil _ _, List.forall_mem_singleton.mpr rfl⟩
  exponent := none
  leading := by decide

theorem half_value (display : ℚ → String) :
    letI := ConsoleF64.exact display; (half.value : ℚ) = 1 / 2 := by
  show (OfScientific.ofScientific 5 true 1 : ℚ) = 1 / 2
  decide +kernel

theorem forty_value (display : ℚ → String) :
    letI := ConsoleF64.exact display; (forty.value : ℚ) = 40 := by
  show (OfScientific.ofScientific 40 false 0 : ℚ) = 40
  decide +kernel

/-- How 40 and one half print. -/
def printed (x : ℚ) : String := if x = 40 then "40" else "0.5"

end HotpathIpc
