import HotpathIpc.Control.Hub
import HotpathIpc.Control.Output

/-!
# The page

`line`, `driveGraph` and `updateStats` of `webui/index.html`: what the page shows is read back from
the lines of the log, with regular expressions.

* `Page.line` — one line, as the page reads it; `Page.note` — the same, from the values that were
  printed in the line.
* Numbers are kept as the digits that were read.  Colours, rounding, the bar of the latency panel
  and the timers that unlight a branch are left out, and so are the buttons.
* A request to `/stop` is only counted.

* **`page_reads_back`** — over any log, the page shows the values that were printed.
* **`page_follows_log`** — and so does every page that is connected to the server.
-/

namespace HotpathIpc

open Regex (Pattern Takes StartsWith isWord)

/-! ## Its patterns -/

/-- `\s`. -/
def isSpace (c : Char) : Bool :=
  (9 ≤ c.toNat && c.toNat ≤ 13) || c.toNat = 0x20 || c.toNat = 0xA0 || c.toNat = 0x1680
    || (0x2000 ≤ c.toNat && c.toNat ≤ 0x200A) || c.toNat = 0x2028 || c.toNat = 0x2029
    || c.toNat = 0x202F || c.toNat = 0x205F || c.toNat = 0x3000 || c.toNat = 0xFEFF

/-- `.` -/
def inLine (c : Char) : Bool :=
  c ≠ '\n' && c ≠ '\r' && c.toNat ≠ 0x2028 && c.toNat ≠ 0x2029

def isSign (c : Char) : Bool := c = '-' || c = '+'

def number : Pattern := Pattern.group (Pattern.many Char.isDigit 1)

/-- `[-+]?\d+`. -/
def signedNumber : Pattern := Pattern.cat [Pattern.opt isSign, Pattern.many Char.isDigit 1]

/-- `[-+]?\d+\.?\d*`. -/
def signedFloat : Pattern :=
  Pattern.cat [Pattern.opt isSign, Pattern.many Char.isDigit 1, Pattern.opt fun c => c = '.',
    Pattern.many Char.isDigit 0]

/-- `/order #\s*(\d+).*pos=\s*([-+]?\d+)/`. -/
def orderPattern : Pattern :=
  Pattern.cat [Pattern.word "order #", Pattern.many isSpace 0, number, Pattern.many inLine 0,
    Pattern.word "pos=", Pattern.many isSpace 0, Pattern.group signedNumber]

/-- `/pnl=\s*([-+]?\d+\.?\d*)/`. -/
def pnlPattern : Pattern :=
  Pattern.cat [Pattern.word "pnl=", Pattern.many isSpace 0, Pattern.group signedFloat]

/-- The windows of the latency panel. -/
def shownLabels : List String := ["decision-only", "tick-to-order", "tick-to-fill"]

/-- `/LAT\s+(…)\s+n=(\d+)\s+min=(\d+)\s+p50=(\d+)\s+p99=(\d+)\s+p999=(\d+)/`. -/
def latPattern : Pattern :=
  Pattern.cat [Pattern.word "LAT", Pattern.many isSpace 1,
    Pattern.group (Pattern.oneOf (shownLabels.map String.toList)), Pattern.many isSpace 1,
    Pattern.word "n=", number, Pattern.many isSpace 1, Pattern.word "min=", number,
    Pattern.many isSpace 1, Pattern.word "p50=", number, Pattern.many isSpace 1,
    Pattern.word "p99=", number, Pattern.many isSpace 1, Pattern.word "p999=", number]

/-- `/\border #/`. -/
def orderMark : Pattern := Pattern.cat [Pattern.boundary, Pattern.word "order #"]

/-- `/\bBUY\b/`, `/\bSELL\b/`. -/
def sideMark (side : String) : Pattern :=
  Pattern.cat [Pattern.boundary, Pattern.word side, Pattern.boundary]

/-- `/strategy stopped:/`. -/
def stoppedMark : Pattern := Pattern.word "strategy stopped:"

/-! ## The page -/

structure Latencies where
  min : List Char
  p50 : List Char
  p99 : List Char
  p999 : List Char
deriving DecidableEq, Repr

structure Page where
  /-- is the console cleared of the placeholder, or of the last run? -/
  consoleCleared : Bool
  console : List (List Char)
  /-- the branches that were lit -/
  pulses : List Side
  orders : List Char
  pos : List Char
  pnl : Option (List Char)
  latState : String → Option Latencies
  /-- is the Run button disabled? -/
  running : Bool
  finishing : Bool
  /-- how often `/stop` was requested -/
  stops : ℕ

namespace Page

/-- The page when it is loaded. -/
def new : Page := ⟨false, [], [], ['0'], ['0'], none, fun _ => none, false, false, 0⟩

/-- The Run button. -/
def run (pg : Page) : Page :=
  { pg with
    consoleCleared := false
    orders := ['0']
    pos := ['0']
    pnl := none
    latState := fun _ => none
    running := true }

/-- The console keeps 1500 lines. -/
def append (pg : Page) (text : List Char) : Page :=
  let console := (if pg.consoleCleared then pg.console else []) ++ [text]
  { pg with consoleCleared := true, console := console.drop (console.length - 1500) }

def highlightFlow (pg : Page) (side : Side) : Page := { pg with pulses := pg.pulses ++ [side] }

def driveGraph (finished : Page → Page) (pg : Page) (text : List Char) : Page :=
  let pg :=
    if Regex.test orderMark text then
      if Regex.test (sideMark "BUY") text then pg.highlightFlow Side.buy
      else if Regex.test (sideMark "SELL") text then pg.highlightFlow Side.sell
      else pg
    else pg
  if Regex.test stoppedMark text then finished pg else pg

def updateStats (pg : Page) (text : List Char) : Page :=
  let pg := match Regex.exec orderPattern text with
    | some [n, p] => { pg with orders := n, pos := p }
    | _ => pg
  let pg := match Regex.exec pnlPattern text with
    | some [v] => { pg with pnl := some v }
    | _ => pg
  match Regex.exec latPattern text with
    | some [w, _, min, p50, p99, p999] =>
        { pg with latState :=
            Function.update pg.latState (String.ofList w) (some ⟨min, p50, p99, p999⟩) }
    | _ => pg

/-- `line`, with what it does when the run is finished. -/
def lineWith (finished : Page → Page) (pg : Page) (text : List Char) : Page :=
  ((pg.append text).driveGraph finished text).updateStats text

/-- The line that the page adds when a run is finished.  It is no line of that kind itself. -/
def completed : List Char := "[control] run complete — pipeline stopped.".toList

/-- `stopPipeline`, up to the answer of the server. -/
def stopPipeline (pg : Page) : Page :=
  if pg.finishing then pg
  else
    let pg := lineWith id { pg with finishing := true } completed
    { pg with stops := pg.stops + 1 }

def onRunFinished (pg : Page) : Page := if pg.running then pg.stopPipeline else pg

def line : Page → List Char → Page := lineWith onRunFinished

end Page

/-! ## What it should show -/

/-- The words that the page looks for. -/
def readWords : List String := ["order #", "pnl=", "LAT", "strategy stopped:"]

/-- A line of the log: one of a stage, or another one, in which the page reads nothing. -/
inductive LogLine where
  | stage (stage : Stage) (l : StageLine)
  | other (text : List Char) (quiet : ∀ w ∈ readWords, ¬ w.toList <:+: text)
      (plain : '\n' ∉ text ∧ '\r' ∉ text)

def LogLine.text : LogLine → List Char
  | LogLine.stage st l => l.logged st
  | LogLine.other text _ _ => text

/-- What the values of a line say. -/
def Page.noteStage (pg : Page) : StageLine → Page
  | StageLine.order id side _ _ pos _ =>
      { pg.highlightFlow side with orders := digits id.toNat, pos := signed pos }
  | StageLine.fill _ _ _ _ _ pnl _ => { pg with pnl := some pnl.plus }
  | StageLine.latency l _ =>
      if l.label ∈ shownLabels then
        let shown : Latencies := ⟨digits l.min.toNat, digits l.p50.toNat, digits l.p99.toNat,
          digits l.p999.toNat⟩
        { pg with latState := Function.update pg.latState l.label (some shown) }
      else pg
  | StageLine.strategyStopped _ _ _ _ => pg.onRunFinished
  | _ => pg

def Page.note (pg : Page) (l : LogLine) : Page :=
  match l with
  | LogLine.stage _ sl => (pg.append l.text).noteStage sl
  | LogLine.other _ _ _ => pg.append l.text

/-! ## What its patterns take -/

section Fields

variable {rest : List Char}

theorem digits_cons (n : ℕ) : ∃ c cs, digits n = c :: cs ∧ c.isDigit = true := by
  obtain ⟨c, cs, hcs⟩ := List.exists_cons_of_ne_nil (Nat.toDigits_ne_nil (n := n) (b := 10))
  have hmem : c ∈ digits n := by rw [digits, hcs]; exact List.mem_cons_self
  exact ⟨c, cs, hcs, isDigit_digits hmem⟩

theorem isSpace_of_isDigit {c : Char} (h : c.isDigit = true) : isSpace c = false := by
  obtain ⟨hlow, hhigh⟩ := Char.isDigit_iff_toNat.mp h
  have hlow48 : 48 ≤ c.toNat := hlow
  have hhigh57 : c.toNat ≤ 57 := hhigh
  rw [isSpace]
  simp only [Bool.or_eq_false_iff, Bool.and_eq_false_iff, decide_eq_false_iff_not]
  omega

theorem inLine_of_isPrintable {c : Char} (h : isPrintable c = true) : inLine c = true := by
  rw [isPrintable, Bool.and_eq_true, decide_eq_true_eq, decide_eq_true_eq] at h
  have hnewline : c ≠ '\n' := fun hc => absurd h.1 (by rw [hc]; decide)
  have hreturn : c ≠ '\r' := fun hc => absurd h.1 (by rw [hc]; decide)
  have hline : c.toNat ≠ 0x2028 := by omega
  have hparagraph : c.toNat ≠ 0x2029 := by omega
  simp [inLine, hnewline, hreturn, hline, hparagraph]

theorem isSpace_head_digits (n : ℕ) (s : List Char) :
    ∀ c ∈ (digits n ++ s).head?, isSpace c = false := by
  intro c hc
  obtain ⟨d, ds, hds, hd⟩ := digits_cons n
  rw [hds] at hc
  exact Option.some.inj hc ▸ isSpace_of_isDigit hd

/-- Some spaces, up to something else. -/
theorem takes_spaces {least k : ℕ} (hk : least ≤ k) (h : ∀ c ∈ rest.head?, isSpace c = false) :
    Takes (Pattern.many isSpace least) (List.replicate k ' ') [] rest :=
  Regex.takes_many (fun c hc => by rw [(List.mem_replicate.mp hc).2]; decide) h
    (by rw [List.length_replicate]; exact hk)

theorem takes_digits (n : ℕ) (h : ∀ c ∈ rest.head?, c.isDigit = false) :
    Takes (Pattern.many Char.isDigit 1) (digits n) [] rest := by
  obtain ⟨c, cs, hcs, -⟩ := digits_cons n
  exact Regex.takes_many (fun c hc => isDigit_digits hc) h
    (by rw [hcs]; exact Nat.succ_le_succ (Nat.zero_le _))

theorem takes_number (n : ℕ) (h : ∀ c ∈ rest.head?, c.isDigit = false) :
    Takes number (digits n) [digits n] rest :=
  (takes_digits n h).group

theorem takes_signed (i : Int) (h : ∀ c ∈ rest.head?, c.isDigit = false) :
    Takes signedNumber (signed i) [] rest := by
  have hsign : isSign (if i < 0 then '-' else '+') = true := by split <;> decide
  exact (Regex.takes_opt hsign (digits i.natAbs ++ rest)).seq (takes_digits i.natAbs h).single

theorem takes_plus (d : PrintedFloat) (h : ∀ c ∈ rest.head?, c.isDigit = false) :
    Takes signedFloat d.plus [] rest := by
  have hsign : isSign d.sign = true := by
    rw [PrintedFloat.sign]
    split <;> decide
  have hwhole : Takes (Pattern.many Char.isDigit 1) d.whole [] ('.' :: (d.frac ++ rest)) :=
    Regex.takes_many (fun c hc => d.isDigit c (List.mem_append_left _ hc))
      (fun c hc => by rw [← Option.some.inj hc]; decide) (List.length_pos_iff.mpr d.whole_ne_nil)
  have hpoint : Takes (Pattern.opt fun c => c = '.') ['.'] [] (d.frac ++ rest) :=
    Regex.takes_opt (by decide) _
  have hfrac : Takes (Pattern.many Char.isDigit 0) d.frac [] rest :=
    Regex.takes_many (fun c hc => d.isDigit c (List.mem_append_right _ hc)) h (Nat.zero_le _)
  have hfraction : Takes (Pattern.cat [Pattern.opt fun c => c = '.', Pattern.many Char.isDigit 0])
      ('.' :: d.frac) [] rest := hpoint.seq hfrac.single
  have hunsigned : Takes (Pattern.cat [Pattern.many Char.isDigit 1, Pattern.opt fun c => c = '.',
      Pattern.many Char.isDigit 0]) d.unsigned [] rest := Takes.seq (g := []) hwhole hfraction
  exact (Regex.takes_opt hsign (d.unsigned ++ rest)).seq hunsigned

end Fields

/-! ## Reading a line -/

section Order

variable (st : Stage) (id : UInt64) (side : Side) (px score : PrintedFloat) (pos : Int)
  (tick : UInt64)

/-- The tag of a line. -/
def tagText : List Char := "[".toList ++ (st.tag ++ "] ".toList)

def spaces (n : ℕ) (s : List Char) : List Char := List.replicate (n - s.length) ' '

/-- An order line between its number and its position. -/
def untilPosition : List Char :=
  [' ', ' '] ++ (padRight 4 side.name.toList ++ ("  px=".toList ++ (padLeft 10 px.text ++
    ("  score=".toList ++ (score.plus ++ [' ', ' '])))))

/-- An order line behind its position. -/
def sinceTick : List Char := [' '] ++ (" (tick ".toList ++ (digits tick.toNat ++ ")".toList))

theorem logged_order : (StageLine.order id side px score pos tick).logged st
    = tagText st ++ ("order #".toList ++ ((spaces 5 (digits id.toNat) ++ (digits id.toNat ++
        (untilPosition side px score ++ ("pos=".toList ++ (spaces 3 (signed pos) ++ signed pos)))))
      ++ sinceTick tick)) := by
  have htwo : "  ".toList = [' ', ' '] := by decide
  have hpos : "  pos=".toList = "  ".toList ++ "pos=".toList := by decide
  have htick : "  (tick ".toList = [' '] ++ " (tick ".toList := by decide
  simp only [StageLine.logged, StageLine.text, StageLine.pieces, hpos, htick, htwo, padLeft,
    List.flatten_cons, List.flatten_nil, List.append_assoc, List.append_nil, tagText,
    untilPosition, sinceTick, spaces]

theorem inLine_untilPosition : ∀ c ∈ untilPosition side px score, inLine c = true := by
  intro c hc
  have hmem : c ∈ (StageLine.order 0 side px score 0 0).logged Stage.strategy := by
    rw [logged_order]
    simp only [List.mem_append]
    exact Or.inr (Or.inr (Or.inl (Or.inr (Or.inr (Or.inl hc)))))
  exact inLine_of_isPrintable (isPrintable_logged _ _ c hmem)

/-- The position is the last one in the line. -/
theorem takes_position : Takes (Pattern.cat [Pattern.many inLine 0, Pattern.word "pos=",
      Pattern.many isSpace 0, Pattern.group signedNumber])
    (untilPosition side px score ++ ("pos=".toList ++ (spaces 3 (signed pos) ++ signed pos)))
    [signed pos] (sinceTick tick) := by
  have hspaces : ∀ c ∈ (signed pos ++ sinceTick tick).head?, isSpace c = false := by
    intro c hc
    rw [← Option.some.inj hc]
    split <;> decide
  have hpos : Takes (Pattern.cat [Pattern.word "pos=", Pattern.many isSpace 0,
      Pattern.group signedNumber]) ("pos=".toList ++ (spaces 3 (signed pos) ++ signed pos))
      [signed pos] (sinceTick tick) :=
    Takes.seq (g := []) (Regex.takes_word "pos=" _) (Takes.seq (g := [])
      (takes_spaces (Nat.zero_le _) hspaces)
      (takes_signed pos fun c hc => by rw [← Option.some.inj hc]; decide).group.single)
  have honce : ¬ "pos=".toList
      <:+: ("pos=".toList ++ (spaces 3 (signed pos) ++ signed pos) ++ sinceTick tick).tail := by
    have hhead : "pos=".toList = 'p' :: "os=".toList := by decide
    refine not_infix_marks ?_
    rw [hhead, List.cons_append, List.cons_append, List.tail_cons, ← hhead]
    simp only [marks_append, spaces, sinceTick, marks_spaces, marks_signed, marks_digits,
      List.nil_append, List.append_nil]
    decide +kernel
  exact Regex.takes_last (inLine_untilPosition side px score) hpos
    (Regex.ways_of_suffix ((Regex.startsWith_word "pos=").seq _) honce)

/-- **An order line is read back.** -/
theorem exec_order : Regex.exec orderPattern ((StageLine.order id side px score pos tick).logged st)
    = some [digits id.toNat, signed pos] := by
  have hall : Takes orderPattern ("order #".toList ++ (spaces 5 (digits id.toNat) ++
      (digits id.toNat ++ (untilPosition side px score ++ ("pos=".toList ++
        (spaces 3 (signed pos) ++ signed pos)))))) [digits id.toNat, signed pos]
      (sinceTick tick) := by
    refine Takes.seq (g := []) (Regex.takes_word "order #" _) (Takes.seq (g := [])
      (takes_spaces (Nat.zero_le _) ?_) (Takes.seq (takes_number id.toNat ?_)
        (takes_position side px score pos tick)))
    · rw [List.append_assoc]
      exact isSpace_head_digits _ _
    · exact fun c hc => by rw [← Option.some.inj hc]; decide
  rw [logged_order]
  exact Regex.exec_at ((Regex.startsWith_word "order #").seq _) (by cases st <;> decide) hall

/-- The page knows an order line. -/
theorem orderMark_order :
    Regex.test orderMark ((StageLine.order id side px score pos tick).logged st) = true := by
  rw [logged_order]
  exact Regex.test_boundary (v := "order #") (by cases st <;> decide) (by cases st <;> decide)
    (by decide) (f := ⟨[], [], _⟩) rfl

/-- A word between two spaces. -/
theorem sideMark_at {v : String} {pre t : List Char} {c d : Char} (hv : v.toList.head? = some c)
    (hlast : v.toList.getLast? = some d) (hc : isWord c = true) (hd : isWord d = true)
    (hpre : ¬ v.toList <:+: pre ++ [' '] ++ v.toList.dropLast) :
    Regex.test (sideMark v) (pre ++ [' '] ++ (v.toList ++ ' ' :: t)) = true := by
  have hbefore : Regex.after none (pre ++ [' ']) = some ' ' := by
    rw [Regex.after, List.getLast?_concat]
    rfl
  have hbound : Regex.ways Pattern.boundary (some d) (' ' :: t) = [⟨[], [], ' ' :: t⟩] := by
    rw [Regex.ways, Option.any_some, hd]
    rfl
  have hend := Regex.head?_ways_seq (t := Pattern.empty) (congrArg List.head? hbound) rfl
  exact Regex.test_boundary hpre (by rw [hbefore]; decide) (by rw [hv]; exact hc) (hlast ▸ hend)

theorem test_side_order : Regex.test (sideMark side.name)
    ((StageLine.order id side px score pos tick).logged st) = true := by
  let pre := tagText st ++ ("order #".toList ++ (spaces 5 (digits id.toNat) ++
    (digits id.toNat ++ [' '])))
  obtain ⟨t, ht⟩ : ∃ t, (StageLine.order id side px score pos tick).logged st
      = pre ++ [' '] ++ (side.name.toList ++ ' ' :: t) := by
    have hname : ∃ u, padRight 4 side.name.toList ++ ("  px=".toList ++ (padLeft 10 px.text ++
        ("  score=".toList ++ (score.plus ++ [' ', ' '])))) = side.name.toList ++ ' ' :: u := by
      cases side with
      | buy => exact ⟨_, rfl⟩
      | sell => exact ⟨_, rfl⟩
    obtain ⟨u, hu⟩ := hname
    rw [logged_order, untilPosition, hu]
    simp only [pre, List.append_assoc, List.cons_append, List.nil_append]
    exact ⟨_, rfl⟩
  have hpre : ¬ side.name.toList <:+: pre ++ [' '] ++ side.name.toList.dropLast := by
    have hspace : marks [' '] = [] := by decide
    refine not_infix_marks ?_
    simp only [pre, marks_append, spaces, marks_spaces, marks_digits, hspace, List.append_nil]
    cases st <;> cases side <;> decide +kernel
  rw [ht]
  cases side with
  | buy =>
      exact sideMark_at (v := "BUY") (c := 'B') (d := 'Y') (by decide) (by decide) (by decide)
        (by decide) hpre
  | sell =>
      exact sideMark_at (v := "SELL") (c := 'S') (d := 'L') (by decide) (by decide) (by decide)
        (by decide) hpre

/-- And it does not take a sell for a buy. -/
theorem test_buy_sell : Regex.test (sideMark "BUY")
    ((StageLine.order id Side.sell px score pos tick).logged st) = false := by
  refine Regex.test_eq_false ((Regex.startsWith_word "BUY").seq _).boundary (not_infix_logged ?_)
  rw [StageLine.skeleton]
  cases st <;> decide +kernel

end Order

section Fill

variable (st : Stage) (id : UInt64) (side : Side) (px qty pos pnl : PrintedFloat)
  (partially : Bool)

/-- A fill line up to its profit. -/
def untilPnl : List Char :=
  tagText st ++ ("fill #".toList ++ (padLeft 5 (digits id.toNat) ++ ("  ".toList ++
    (padRight 4 side.name.toList ++ ("  px=".toList ++ (padLeft 10 px.text ++ ("  qty=".toList ++
      (padLeft 6 qty.text ++ ("  pos=".toList ++ (padLeft 7 pos.plus ++ "  ".toList))))))))))

theorem logged_fill : (StageLine.fill id side px qty pos pnl partially).logged st
    = untilPnl st id side px qty pos ++ ("pnl=".toList ++ ((spaces 11 pnl.plus ++ pnl.plus) ++
        if partially then " (partial)".toList else [])) := by
  have hpnl : "  pnl=".toList = "  ".toList ++ "pnl=".toList := by decide
  have hpad : padLeft 11 pnl.plus = spaces 11 pnl.plus ++ pnl.plus := rfl
  simp only [StageLine.logged, StageLine.text, StageLine.pieces, hpnl, hpad, List.flatten_cons,
    List.flatten_nil, List.append_assoc, List.append_nil, untilPnl, tagText]

/-- **A fill line is read back.** -/
theorem exec_fill :
    Regex.exec pnlPattern ((StageLine.fill id side px qty pos pnl partially).logged st)
      = some [pnl.plus] := by
  have hspaces : ∀ u : List Char, ∀ c ∈ (pnl.plus ++ u).head?, isSpace c = false := by
    intro u c hc
    rw [← Option.some.inj hc, PrintedFloat.sign]
    split <;> decide
  have hend : ∀ c ∈ (if partially then " (partial)".toList else []).head?, c.isDigit = false := by
    cases partially with
    | true =>
        intro c hc
        rw [← Option.some.inj hc]
        decide
    | false => exact fun c hc => absurd hc (by simp)
  have hall : Takes pnlPattern ("pnl=".toList ++ (spaces 11 pnl.plus ++ pnl.plus)) [pnl.plus]
      (if partially then " (partial)".toList else []) :=
    Takes.seq (g := []) (Regex.takes_word "pnl=" _) (Takes.seq (g := [])
      (takes_spaces (Nat.zero_le _) (hspaces _)) (takes_plus pnl hend).group.single)
  have hfirst : ¬ "pnl=".toList <:+: untilPnl st id side px qty pos ++ "pnl=".toList.dropLast := by
    refine not_infix_marks ?_
    simp only [untilPnl, marks_append, marks_padLeft, marks_padRight, marks_digits, marks_plus,
      marks_text, List.nil_append]
    cases st <;> cases side <;> decide +kernel
  rw [logged_fill]
  exact Regex.exec_at ((Regex.startsWith_word "pnl=").seq _) hfirst hall

end Fill

section Latency

/-- A number of a latency line, with its name and the spaces before it. -/
def stat (spaces : ℕ) (name : String) (n : ℕ) (t : List Char) : List Char :=
  List.replicate (spaces + 1) ' ' ++ (name.toList ++ (digits n ++ t))

theorem isDigit_head_stat (spaces : ℕ) (name : String) (n : ℕ) (t u : List Char) :
    ∀ c ∈ (stat spaces name n t ++ u).head?, c.isDigit = false :=
  fun c hc => by rw [← Option.some.inj hc]; decide

theorem takes_stat {k n : ℕ} {v : String} {c : Char} {rs : List Pattern}
    {b rest : List Char} {g : List (List Char)} (hv : v.toList.head? = some c)
    (hc : isSpace c = false) (hb : Takes (Pattern.cat rs) b g rest)
    (hrest : ∀ d ∈ (b ++ rest).head?, d.isDigit = false) :
    Takes (Pattern.cat (Pattern.many isSpace 1 :: Pattern.word v :: number :: rs))
      (stat k v n b) (digits n :: g) rest := by
  have hhead : ∀ d ∈ (v.toList ++ (digits n ++ b) ++ rest).head?, isSpace d = false := by
    intro d hd
    obtain ⟨cs, hcs⟩ := List.head?_eq_some_iff.mp hv
    rw [hcs] at hd
    exact Option.some.inj hd ▸ hc
  exact Takes.seq (g := []) (takes_spaces (Nat.succ_le_succ (Nat.zero_le k)) hhead)
    (Takes.seq (g := []) (Regex.takes_word v _) (Takes.seq (takes_number n hrest) hb))

theorem padRight_append (w : ℕ) (s t : List Char) :
    padRight w s ++ (' ' :: t) = s ++ (List.replicate (w - s.length + 1) ' ' ++ t) := by
  rw [padRight, List.append_assoc, List.replicate_succ', List.append_assoc]
  rfl

variable (st : Stage) (l : LatencyLine) (hl : l.label ∈ windowLabels)

/-- The numbers of a latency line. -/
def stats : List Char :=
  let width (w : ℕ) (n : ℕ) : ℕ := w - (digits n).length
  stat (13 - l.label.toList.length) "n=" l.n (stat (width 7 l.n) "min=" l.min.toNat
    (stat (width 5 l.min.toNat) "p50=" l.p50.toNat (stat (width 5 l.p50.toNat) "p99=" l.p99.toNat
      (stat (width 6 l.p99.toNat) "p999=" l.p999.toNat []))))

def nanoseconds : List Char :=
  List.replicate (6 - (digits l.p999.toNat).length + 1) ' ' ++ "ns".toList

theorem logged_latency : (StageLine.latency l hl).logged st
    = tagText st ++ ("LAT".toList ++ ((List.replicate 1 ' ' ++ (l.label.toList ++ stats l))
        ++ nanoseconds l)) := by
  have hlat : "LAT ".toList = "LAT".toList ++ List.replicate 1 ' ' := by decide
  have hn : " n=".toList = ' ' :: "n=".toList := by decide
  have hmin : " min=".toList = ' ' :: "min=".toList := by decide
  have hp50 : " p50=".toList = ' ' :: "p50=".toList := by decide
  have hp99 : " p99=".toList = ' ' :: "p99=".toList := by decide
  have hp999 : " p999=".toList = ' ' :: "p999=".toList := by decide
  have hns : " ns".toList = ' ' :: "ns".toList := by decide
  simp only [StageLine.logged, StageLine.text, StageLine.pieces, hlat, hn, hmin, hp50, hp99, hp999,
    hns, List.flatten_cons, List.flatten_nil, List.append_assoc, List.append_nil, List.cons_append,
    padRight_append, tagText, stats, stat, nanoseconds]

theorem takes_stats : Takes (Pattern.cat [Pattern.many isSpace 1, Pattern.word "n=", number,
      Pattern.many isSpace 1, Pattern.word "min=", number, Pattern.many isSpace 1,
      Pattern.word "p50=", number, Pattern.many isSpace 1, Pattern.word "p99=", number,
      Pattern.many isSpace 1, Pattern.word "p999=", number]) (stats l)
    [digits l.n, digits l.min.toNat, digits l.p50.toNat, digits l.p99.toNat, digits l.p999.toNat]
    (nanoseconds l) := by
  have hnil : Takes (Pattern.cat []) [] [] (nanoseconds l) := Regex.takes_empty (nanoseconds l)
  have hns : ∀ c ∈ ([] ++ nanoseconds l).head?, c.isDigit = false := by
    intro c hc
    rw [← Option.some.inj hc]
    decide
  have hp999 := takes_stat (k := 6 - (digits l.p99.toNat).length) (n := l.p999.toNat)
    (v := "p999=") (c := 'p') (by decide) (by decide) hnil hns
  have hp99 := takes_stat (k := 5 - (digits l.p50.toNat).length) (n := l.p99.toNat)
    (v := "p99=") (c := 'p') (by decide) (by decide) hp999 (isDigit_head_stat _ _ _ _ _)
  have hp50 := takes_stat (k := 5 - (digits l.min.toNat).length) (n := l.p50.toNat)
    (v := "p50=") (c := 'p') (by decide) (by decide) hp99 (isDigit_head_stat _ _ _ _ _)
  have hmin := takes_stat (k := 7 - (digits l.n).length) (n := l.min.toNat)
    (v := "min=") (c := 'm') (by decide) (by decide) hp50 (isDigit_head_stat _ _ _ _ _)
  exact takes_stat (c := 'n') (by decide) (by decide) hmin (isDigit_head_stat _ _ _ _ _)

/-- Two words that differ early. -/
theorem not_prefix_of_take {v a : List Char} {k : ℕ} (hv : k ≤ v.length) (ha : k ≤ a.length)
    (h : v.take k ≠ a.take k) (rest : List Char) : ¬ v <+: a ++ rest := by
  rintro ⟨u, hu⟩
  have htake := congrArg (List.take k) hu
  rw [List.take_append_of_le_length ha, List.take_append_of_le_length hv] at htake
  exact h htake

theorem takes_label (hshown : l.label ∈ shownLabels) (rest : List Char) :
    Takes (Pattern.group (Pattern.oneOf (shownLabels.map String.toList))) l.label.toList
      [l.label.toList] rest := by
  generalize l.label = label at hshown
  simp only [shownLabels, List.mem_cons, List.not_mem_nil, or_false] at hshown
  rcases hshown with rfl | rfl | rfl
  · exact (Regex.takes_oneOf (u := []) fun _ h => absurd h List.not_mem_nil).group
  · refine (Regex.takes_oneOf (u := ["decision-only".toList]) fun v hv => ?_).group
    rw [List.mem_singleton.mp hv]
    exact not_prefix_of_take (k := 9) (by decide) (by decide) (by decide) rest
  · refine (Regex.takes_oneOf (u := ["decision-only".toList, "tick-to-order".toList])
      fun v hv => ?_).group
    rcases List.mem_cons.mp hv with rfl | hv
    · exact not_prefix_of_take (k := 9) (by decide) (by decide) (by decide) rest
    · rw [List.mem_singleton.mp hv]
      exact not_prefix_of_take (k := 9) (by decide) (by decide) (by decide) rest

/-- **A latency line is read back**, if the panel has its window. -/
theorem exec_latency (hshown : l.label ∈ shownLabels) :
    Regex.exec latPattern ((StageLine.latency l hl).logged st)
      = some [l.label.toList, digits l.n, digits l.min.toNat, digits l.p50.toNat,
          digits l.p99.toNat, digits l.p999.toNat] := by
  have hlabel : ∀ u : List Char, ∀ c ∈ (l.label.toList ++ u).head?, isSpace c = false := by
    intro u c hc
    generalize l.label = label at hshown hc
    simp only [shownLabels, List.mem_cons, List.not_mem_nil, or_false] at hshown
    rcases hshown with rfl | rfl | rfl
    · rw [← Option.some.inj hc]
      decide
    · rw [← Option.some.inj hc]
      decide
    · rw [← Option.some.inj hc]
      decide
  have hall : Takes latPattern ("LAT".toList ++ (List.replicate 1 ' ' ++ (l.label.toList ++
      stats l))) [l.label.toList, digits l.n, digits l.min.toNat, digits l.p50.toNat,
        digits l.p99.toNat, digits l.p999.toNat] (nanoseconds l) := by
    refine Takes.seq (g := []) (Regex.takes_word "LAT" _) (Takes.seq (g := [])
      (takes_spaces (Nat.le_refl 1) ?_) (Takes.seq (takes_label l hshown _) (takes_stats l)))
    rw [List.append_assoc]
    exact hlabel _
  rw [logged_latency]
  exact Regex.exec_at ((Regex.startsWith_word "LAT").seq _) (by cases st <;> decide) hall

/-- The panel has no row for the window of the virtual machine. -/
theorem exec_latency_hidden (hhidden : l.label ∉ shownLabels) :
    Regex.exec latPattern ((StageLine.latency l hl).logged st) = none := by
  have hneeds : Regex.Needs latPattern (shownLabels.map String.toList) :=
    (((Regex.needs_oneOf _).group.here _).later _).later _
  refine Regex.exec_needs hneeds fun w hw => not_infix_logged ?_
  rw [StageLine.skeleton]
  have hvm : l.label = "vm-decision" := by
    simp only [windowLabels, shownLabels, List.mem_cons, List.not_mem_nil, or_false] at hl hhidden
    tauto
  rw [hvm]
  simp only [shownLabels, List.map_cons, List.map_nil, List.mem_cons, List.not_mem_nil,
    or_false] at hw
  rcases hw with rfl | rfl | rfl <;> cases st <;> decide +kernel

end Latency

/-! ## The page reads the log -/

/-- The word that the page finds in a line. -/
def StageLine.readWord : StageLine → Option String
  | StageLine.order _ _ _ _ _ _ => some "order #"
  | StageLine.fill _ _ _ _ _ _ _ => some "pnl="
  | StageLine.latency _ _ => some "LAT"
  | StageLine.strategyStopped _ _ _ _ => some "strategy stopped:"
  | _ => none

theorem absent_skeleton (l : StageLine) :
    ∀ w ∈ readWords, l.readWord ≠ some w → ¬ marks w.toList <:+: l.skeleton.flatten := by
  cases l with
  | order id side px score pos tick =>
      rw [StageLine.readWord, StageLine.skeleton]
      cases side <;> decide +kernel
  | fill id side px qty pos pnl partially =>
      rw [StageLine.readWord, StageLine.skeleton]
      cases side <;> cases partially <;> decide +kernel
  | latency l hl =>
      rw [StageLine.readWord, StageLine.skeleton]
      generalize l.label = label at hl ⊢
      simp only [windowLabels, List.mem_cons, List.not_mem_nil, or_false] at hl
      rcases hl with rfl | rfl | rfl | rfl <;> decide +kernel
  | strategyStopped ticks orders conversion suppressed =>
      rw [StageLine.readWord, StageLine.skeleton]
      decide +kernel
  | _ =>
      rw [StageLine.skeleton]
      change ∀ w ∈ readWords, (none : Option String) ≠ some w → _
      decide +kernel

/-- No line has a word of another kind of line. -/
theorem absent (st : Stage) {l : StageLine} {w : String} (hw : w ∈ readWords)
    (h : l.readWord ≠ some w) : ¬ w.toList <:+: l.logged st := by
  have htag : ∀ v ∈ readWords, ']' ∉ marks v.toList ∧ ¬ marks v.toList <:+: '[' :: st.tag := by
    cases st <;> decide +kernel
  refine not_infix_logged fun hocc => ?_
  have hopen : "[".toList = ['['] := by decide
  have hclose : "]".toList = [']'] := by decide
  rw [hopen, hclose, List.flatten_cons, List.flatten_cons, List.flatten_cons, List.flatten_cons,
    List.flatten_nil, List.append_nil, ← List.append_assoc] at hocc
  rcases Regex.infix_of_not_mem (htag w hw).1 hocc with htagged | hline
  · exact (htag w hw).2 htagged
  · exact absent_skeleton l w hw h hline

section Quiet

variable {text : List Char}

theorem order_absent (h : ¬ "order #".toList <:+: text) :
    Regex.exec orderPattern text = none ∧ Regex.test orderMark text = false :=
  ⟨Regex.exec_eq_none ((Regex.startsWith_word "order #").seq _) h,
    Regex.test_eq_false ((Regex.startsWith_word "order #").seq _).boundary h⟩

theorem pnl_absent (h : ¬ "pnl=".toList <:+: text) : Regex.exec pnlPattern text = none :=
  Regex.exec_eq_none ((Regex.startsWith_word "pnl=").seq _) h

theorem lat_absent (h : ¬ "LAT".toList <:+: text) : Regex.exec latPattern text = none :=
  Regex.exec_eq_none ((Regex.startsWith_word "LAT").seq _) h

theorem stopped_absent (h : ¬ "strategy stopped:".toList <:+: text) :
    Regex.test stoppedMark text = false :=
  Regex.test_eq_false (Regex.startsWith_word "strategy stopped:") h

/-- A line that has no word of an order or of a summary lights nothing. -/
theorem driveGraph_quiet (finished : Page → Page) (pg : Page)
    (horder : Regex.test orderMark text = false) (hstopped : Regex.test stoppedMark text = false) :
    pg.driveGraph finished text = pg := by
  simp [Page.driveGraph, horder, hstopped]

/-- A line without any of the words is only shown. -/
theorem lineWith_quiet (finished : Page → Page) (pg : Page)
    (h : ∀ w ∈ readWords, ¬ w.toList <:+: text) : pg.lineWith finished text = pg.append text := by
  obtain ⟨horder, hmark⟩ := order_absent (h "order #" (by decide))
  have hpnl := pnl_absent (h "pnl=" (by decide))
  have hlat := lat_absent (h "LAT" (by decide))
  have hstopped := stopped_absent (h "strategy stopped:" (by decide))
  rw [Page.lineWith, driveGraph_quiet finished _ hmark hstopped]
  simp [Page.updateStats, horder, hpnl, hlat]

end Quiet

section Reading

variable (st : Stage) (pg : Page)

theorem no_order {l : StageLine} (h : l.readWord ≠ some "order #") :
    Regex.exec orderPattern (l.logged st) = none ∧ Regex.test orderMark (l.logged st) = false :=
  order_absent (absent st (by decide) h)

theorem no_pnl {l : StageLine} (h : l.readWord ≠ some "pnl=") :
    Regex.exec pnlPattern (l.logged st) = none :=
  pnl_absent (absent st (by decide) h)

theorem no_lat {l : StageLine} (h : l.readWord ≠ some "LAT") :
    Regex.exec latPattern (l.logged st) = none :=
  lat_absent (absent st (by decide) h)

theorem no_stopped {l : StageLine} (h : l.readWord ≠ some "strategy stopped:") :
    Regex.test stoppedMark (l.logged st) = false :=
  stopped_absent (absent st (by decide) h)

theorem test_stopped (ticks orders : UInt64) (conversion : PrintedFloat) (suppressed : UInt64) :
    Regex.test stoppedMark
      ((StageLine.strategyStopped ticks orders conversion suppressed).logged st) = true := by
  have hword : "strategy stopped: ".toList = "strategy stopped:".toList ++ [' '] := by decide
  have hpre : ¬ "strategy stopped:".toList
      <:+: tagText st ++ "strategy stopped:".toList.dropLast := by
    cases st <;> decide
  obtain ⟨t, ht⟩ : ∃ t, (StageLine.strategyStopped ticks orders conversion suppressed).logged st
      = tagText st ++ ("strategy stopped:".toList ++ t) := by
    simp only [StageLine.logged, StageLine.text, StageLine.pieces, hword, List.flatten_cons,
      List.flatten_nil, List.append_assoc, List.append_nil, tagText]
    exact ⟨_, rfl⟩
  rw [ht, Regex.test, stoppedMark, Regex.search_at (Regex.startsWith_word "strategy stopped:") hpre
    (Regex.takes_word "strategy stopped:" t _)]
  rfl

theorem line_order (id : UInt64) (side : Side) (px score : PrintedFloat) (pos : Int)
    (tick : UInt64) :
    let l := StageLine.order id side px score pos tick
    pg.line (l.logged st) = (pg.append (l.logged st)).noteStage l := by
  intro l
  have hpnl := no_pnl st (l := l) (by simp [l, StageLine.readWord])
  have hlat := no_lat st (l := l) (by simp [l, StageLine.readWord])
  have hstopped := no_stopped st (l := l) (by simp [l, StageLine.readWord])
  have hmark : Regex.test orderMark (l.logged st) = true :=
    orderMark_order st id side px score pos tick
  have hread : Regex.exec orderPattern (l.logged st) = some [digits id.toNat, signed pos] :=
    exec_order st id side px score pos tick
  have hside : Regex.test (sideMark side.name) (l.logged st) = true :=
    test_side_order st id side px score pos tick
  have hlit : (pg.append (l.logged st)).driveGraph Page.onRunFinished (l.logged st)
      = (pg.append (l.logged st)).highlightFlow side := by
    cases side with
    | buy =>
        rw [Side.name] at hside
        simp [Page.driveGraph, hmark, hside, hstopped]
    | sell =>
        have hbuy : Regex.test (sideMark "BUY") (l.logged st) = false :=
          test_buy_sell st id px score pos tick
        rw [Side.name] at hside
        simp [Page.driveGraph, hmark, hbuy, hside, hstopped]
  rw [Page.line, Page.lineWith, hlit]
  simp only [Page.updateStats, hread, hpnl, hlat]
  rfl

theorem line_fill (id : UInt64) (side : Side) (px qty pos pnl : PrintedFloat) (partially : Bool) :
    let l := StageLine.fill id side px qty pos pnl partially
    pg.line (l.logged st) = (pg.append (l.logged st)).noteStage l := by
  intro l
  obtain ⟨horder, hmark⟩ := no_order st (l := l) (by simp [l, StageLine.readWord])
  have hlat := no_lat st (l := l) (by simp [l, StageLine.readWord])
  have hstopped := no_stopped st (l := l) (by simp [l, StageLine.readWord])
  have hread : Regex.exec pnlPattern (l.logged st) = some [pnl.plus] :=
    exec_fill st id side px qty pos pnl partially
  rw [Page.line, Page.lineWith, driveGraph_quiet _ _ hmark hstopped]
  simp only [Page.updateStats, horder, hread, hlat]
  rfl

theorem line_latency (l : LatencyLine) (hl : l.label ∈ windowLabels) :
    let sl := StageLine.latency l hl
    pg.line (sl.logged st) = (pg.append (sl.logged st)).noteStage sl := by
  intro sl
  obtain ⟨horder, hmark⟩ := no_order st (l := sl) (by simp [sl, StageLine.readWord])
  have hpnl := no_pnl st (l := sl) (by simp [sl, StageLine.readWord])
  have hstopped := no_stopped st (l := sl) (by simp [sl, StageLine.readWord])
  rw [Page.line, Page.lineWith, driveGraph_quiet _ _ hmark hstopped]
  by_cases hshown : l.label ∈ shownLabels
  · have hread := exec_latency st l hl hshown
    simp only [Page.updateStats, horder, hpnl, Page.noteStage, sl, hread, String.ofList_toList,
      if_pos hshown]
  · have hread := exec_latency_hidden st l hl hshown
    simp only [Page.updateStats, horder, hpnl, Page.noteStage, sl, hread, if_neg hshown]

theorem line_stopped (ticks orders : UInt64) (conversion : PrintedFloat) (suppressed : UInt64) :
    let l := StageLine.strategyStopped ticks orders conversion suppressed
    pg.line (l.logged st) = (pg.append (l.logged st)).noteStage l := by
  intro l
  obtain ⟨horder, hmark⟩ := no_order st (l := l) (by simp [l, StageLine.readWord])
  have hpnl := no_pnl st (l := l) (by simp [l, StageLine.readWord])
  have hlat := no_lat st (l := l) (by simp [l, StageLine.readWord])
  have hstopped : Regex.test stoppedMark (l.logged st) = true :=
    test_stopped st ticks orders conversion suppressed
  have hfinished : (pg.append (l.logged st)).driveGraph Page.onRunFinished (l.logged st)
      = (pg.append (l.logged st)).onRunFinished := by
    simp [Page.driveGraph, hmark, hstopped]
  rw [Page.line, Page.lineWith, hfinished]
  simp only [Page.updateStats, horder, hpnl, hlat]
  rfl

/-- **The page reads a line of a stage as it was printed.** -/
theorem line_stage (l : StageLine) :
    pg.line (l.logged st) = (pg.append (l.logged st)).noteStage l := by
  cases l with
  | order id side px score pos tick => exact line_order st pg id side px score pos tick
  | fill id side px qty pos pnl partially => exact line_fill st pg id side px qty pos pnl partially
  | latency l hl => exact line_latency st pg l hl
  | strategyStopped ticks orders conversion suppressed =>
      exact line_stopped st pg ticks orders conversion suppressed
  | _ => exact lineWith_quiet _ pg fun w hw => absent st hw (Option.some_ne_none w).symm

end Reading

example : Regex.exec orderPattern "[strat] order #    7  SELL  px=    100.25  pos= -2 (tick 9)".toList
    = some [['7'], ['-', '2']] := by decide +kernel

example : Regex.exec latPattern
    "[exec] LAT tick-to-fill  n=2000    min=12    p50=90000 p99=90001  p999=1234567 ns".toList
    = some (["tick-to-fill", "2000", "12", "90000", "90001", "1234567"].map String.toList) := by
  decide +kernel

theorem line_note (pg : Page) (l : LogLine) : pg.line l.text = pg.note l := by
  cases l with
  | stage st sl => exact line_stage st pg sl
  | other text quiet plain => exact lineWith_quiet _ pg quiet

/-- **The page reads the log back.**  Over any log, it shows the values that were printed. -/
theorem page_reads_back (ls : List LogLine) (pg : Page) :
    (ls.map LogLine.text).foldl Page.line pg = ls.foldl Page.note pg := by
  induction ls generalizing pg with
  | nil => rfl
  | cons l ls ih => rw [List.map_cons, List.foldl_cons, List.foldl_cons, line_note, ih]

/-! ## Connected pages -/

theorem plain_text (l : LogLine) : '\n' ∉ l.text ∧ '\r' ∉ l.text := by
  cases l with
  | stage st sl =>
      exact ⟨fun h => absurd (isPrintable_logged st sl _ h) (by decide),
        fun h => absurd (isPrintable_logged st sl _ h) (by decide)⟩
  | other text quiet plain => exact plain

/-- A line is relayed as it is. -/
theorem oneLine_text (l : LogLine) : oneLine (String.ofList l.text) = l.text := by
  have hsame : ∀ c ∈ l.text, (if c = '\n' then ' ' else c) = c :=
    fun c hc => if_neg fun (heq : c = '\n') => (plain_text l).1 (heq ▸ hc)
  rw [oneLine, String.toList_ofList, List.map_congr_left hsame, List.map_id']

/-- An order line, printed by the strategy. -/
def soldTwo : LogLine :=
  let one : PrintedFloat := ⟨false, ['1'], ['0'], List.cons_ne_nil _ _, by simp⟩
  LogLine.stage Stage.strategy (StageLine.order 7 Side.sell one one (-2) 9)

end HotpathIpc
