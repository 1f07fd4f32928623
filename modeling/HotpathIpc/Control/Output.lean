import HotpathIpc.Library.Regex
import HotpathIpc.OrderBook.Book
import HotpathIpc.Control.Params
import HotpathIpc.Timing.Percentiles

/-!
# What the stages print

The lines that the three stages print while they run (`println!` in `src/bin/strategy.rs`,
`src/bin/execution.rs`, `src/bin/exchange.rs` and `src/latency_window.rs`), and how the control
server tags them.  The banners of their start are left out.

* A float that is printed with a number of decimals is a `PrintedFloat`: infinities and NaN are left out.
* `StageLine.text` — a line; `StageLine.logged` — what is logged of it.
* `marks` — the characters of a line that no value has.  A word that has some is looked for among
  them, whatever the values are: **`not_infix_marks`**.
-/

namespace HotpathIpc

/-! ## Formatting -/

/-- `{:>n}`. -/
def padLeft (n : ℕ) (s : List Char) : List Char := List.replicate (n - s.length) ' ' ++ s

/-- `{:<n}`. -/
def padRight (n : ℕ) (s : List Char) : List Char := s ++ List.replicate (n - s.length) ' '

/-- `{}` of an unsigned integer. -/
def digits (n : ℕ) : List Char := Nat.toDigits 10 n

/-- `{:+}` of an integer. -/
def signed (i : Int) : List Char := (if i < 0 then '-' else '+') :: digits i.natAbs

/-- What is printed of a float. -/
structure PrintedFloat where
  negative : Bool
  whole : List Char
  frac : List Char
  whole_ne_nil : whole ≠ []
  isDigit : ∀ c ∈ whole ++ frac, c.isDigit = true

namespace PrintedFloat

def sign (d : PrintedFloat) : Char := if d.negative then '-' else '+'

def unsigned (d : PrintedFloat) : List Char := d.whole ++ '.' :: d.frac

/-- `{:.k}`. -/
def text (d : PrintedFloat) : List Char := (if d.negative then ['-'] else []) ++ d.unsigned

/-- `{:+.k}`. -/
def plus (d : PrintedFloat) : List Char := d.sign :: d.unsigned

end PrintedFloat

/-! ## The lines -/

/-- The labels of the latency windows. -/
def windowLabels : List String := ["decision-only", "tick-to-order", "vm-decision", "tick-to-fill"]

inductive StageLine where
  | order (id : UInt64) (side : Side) (px score : PrintedFloat) (pos : Int) (tick : UInt64)
  | heartbeat (ticks : UInt64) (px trend mom rev : PrintedFloat) (orders : UInt64)
  | timeCap (maxSeconds : UInt64)
  | strategyStopped (ticks orders : UInt64) (conversion : PrintedFloat) (suppressed : UInt64)
  | fill (id : UInt64) (side : Side) (px qty pos pnl : PrintedFloat) (partially : Bool)
  | rule
  | executionStopped (fills : UInt64) (position equity : PrintedFloat)
  | updates (seq : UInt64) (bid ask : PrintedFloat)
  | exchangeStopped (seq : UInt64)
  | latency (l : LatencyLine) (hl : l.label ∈ windowLabels)

def Side.name : Side → String
  | Side.buy => "BUY"
  | Side.sell => "SELL"

namespace StageLine

/-- The texts and the values of a line. -/
def pieces : StageLine → List (List Char)
  | order id side px score pos tick =>
      ["order #".toList, padLeft 5 (digits id.toNat), "  ".toList, padRight 4 side.name.toList,
        "  px=".toList, padLeft 10 px.text, "  score=".toList, score.plus,
        "  pos=".toList, padLeft 3 (signed pos), "  (tick ".toList, digits tick.toNat,
        ")".toList]
  | heartbeat ticks px trend mom rev orders =>
      ["  .. ".toList, digits ticks.toNat, " ticks, px=".toList, px.text,
        "  signals[trend=".toList, trend.plus, " mom=".toList, mom.plus, " rev=".toList, rev.plus,
        "]  orders=".toList, digits orders.toNat]
  | timeCap maxSeconds =>
      ["  .. reached the ".toList, digits maxSeconds.toNat, "s time cap; stopping.".toList]
  | strategyStopped ticks orders conversion suppressed =>
      ["strategy stopped: ".toList, digits ticks.toNat, " ticks in, ".toList, digits orders.toNat,
        " orders out (".toList, conversion.text, "% conversion), ".toList,
        digits suppressed.toNat, " suppressed by position limit".toList]
  | fill id side px qty pos pnl partially =>
      ["fill #".toList, padLeft 5 (digits id.toNat), "  ".toList, padRight 4 side.name.toList,
        "  px=".toList, padLeft 10 px.text, "  qty=".toList, padLeft 6 qty.text,
        "  pos=".toList, padLeft 7 pos.plus, "  pnl=".toList, padLeft 11 pnl.plus,
        if partially then " (partial)".toList else []]
  | rule => ["---------------------------------------------------------------".toList]
  | executionStopped fills position equity =>
      ["execution stopped: ".toList, digits fills.toNat, " fills | final position ".toList,
        position.plus, " | mark-to-market P&L ".toList, equity.plus]
  | updates seq bid ask =>
      ["exchange: ".toList, digits seq.toNat, " book updates, bid=".toList, bid.text,
        " ask=".toList, ask.text]
  | exchangeStopped seq =>
      ["exchange stopped after ".toList, digits seq.toNat, " book updates".toList]
  | latency l _ =>
      ["LAT ".toList, padRight 13 l.label.toList, " n=".toList, padRight 7 (digits l.n),
        " min=".toList, padRight 5 (digits l.min.toNat), " p50=".toList,
        padRight 5 (digits l.p50.toNat), " p99=".toList, padRight 6 (digits l.p99.toNat),
        " p999=".toList, padRight 6 (digits l.p999.toNat), " ns".toList]

def text (l : StageLine) : List Char := l.pieces.flatten

end StageLine

/-- The tag of a stage's lines. -/
def Stage.tag : Stage → List Char
  | Stage.execution => "exec".toList
  | Stage.strategy => "strat".toList
  | Stage.exchange => "exch".toList

/-- What is logged of a line: `format!("[\x7btag\x7d] \x7bline\x7d")`. -/
def StageLine.logged (stage : Stage) (l : StageLine) : List Char :=
  ["[".toList, stage.tag, "] ".toList, l.text].flatten

/-! ## The characters of values -/

section Fields

/-- A character that can be in a printed value, or pads it. -/
def isField (c : Char) : Bool := c.isDigit || c = ' ' || c = '+' || c = '-' || c = '.'

/-- The other characters. -/
def marks (s : List Char) : List Char := s.filter fun c => !isField c

theorem marks_append (s t : List Char) : marks (s ++ t) = marks s ++ marks t :=
  List.filter_append s t

theorem marks_field {s : List Char} (h : ∀ c ∈ s, isField c = true) : marks s = [] :=
  List.filter_eq_nil_iff.mpr fun c hc => by rw [h c hc]; decide

theorem marks_flatten (ss : List (List Char)) : marks ss.flatten = (ss.map marks).flatten :=
  List.filter_flatten

theorem isDigit_digits {n : ℕ} {c : Char} (h : c ∈ digits n) : c.isDigit = true :=
  Nat.isDigit_of_mem_toDigits (by decide) (by decide) h

theorem isField_of_isDigit {c : Char} (h : c.isDigit = true) : isField c = true := by
  rw [isField, h]
  rfl

theorem marks_spaces (n : ℕ) : marks (List.replicate n ' ') = [] :=
  marks_field fun c hc => by rw [(List.mem_replicate.mp hc).2]; decide

theorem marks_padLeft (n : ℕ) (s : List Char) : marks (padLeft n s) = marks s := by
  rw [padLeft, marks_append, marks_spaces, List.nil_append]

theorem marks_padRight (n : ℕ) (s : List Char) : marks (padRight n s) = marks s := by
  rw [padRight, marks_append, marks_spaces, List.append_nil]

theorem marks_digits (n : ℕ) : marks (digits n) = [] :=
  marks_field fun _ hc => isField_of_isDigit (isDigit_digits hc)

theorem isField_signed (i : Int) : ∀ c ∈ signed i, isField c = true := by
  intro c hc
  rcases List.mem_cons.mp hc with rfl | hc
  · split <;> decide
  · exact isField_of_isDigit (isDigit_digits hc)

theorem isField_unsigned (d : PrintedFloat) : ∀ c ∈ d.unsigned, isField c = true := by
  intro c hc
  rcases List.mem_append.mp hc with hc | hc
  · exact isField_of_isDigit (d.isDigit c (List.mem_append_left _ hc))
  · rcases List.mem_cons.mp hc with rfl | hc
    · decide
    · exact isField_of_isDigit (d.isDigit c (List.mem_append_right _ hc))

theorem isField_plus (d : PrintedFloat) : ∀ c ∈ d.plus, isField c = true := by
  intro c hc
  rcases List.mem_cons.mp hc with rfl | hc
  · rw [PrintedFloat.sign]
    split <;> decide
  · exact isField_unsigned d c hc

theorem isField_text (d : PrintedFloat) : ∀ c ∈ d.text, isField c = true := by
  intro c hc
  rcases List.mem_append.mp hc with hc | hc
  · cases hneg : d.negative with
    | true =>
        rw [hneg, if_pos rfl] at hc
        rw [List.mem_singleton.mp hc]
        decide
    | false =>
        rw [hneg, if_neg Bool.false_ne_true] at hc
        exact absurd hc List.not_mem_nil
  · exact isField_unsigned d c hc

theorem marks_signed (i : Int) : marks (signed i) = [] := marks_field (isField_signed i)

theorem marks_plus (d : PrintedFloat) : marks d.plus = [] := marks_field (isField_plus d)

theorem marks_text (d : PrintedFloat) : marks d.text = [] := marks_field (isField_text d)

/-- **A word is looked for among the marks of a text.** -/
theorem not_infix_marks {w s : List Char} (h : ¬ marks w <:+: marks s) : ¬ w <:+: s :=
  Regex.not_infix_of_filter _ h

/-- The marks of a line. -/
def StageLine.skeleton : StageLine → List (List Char)
  | order _ side _ _ _ _ => ["order#".toList, side.name.toList, "px=score=pos=(tick)".toList]
  | heartbeat _ _ _ _ _ _ => ["ticks,px=signals[trend=mom=rev=]orders=".toList]
  | timeCap _ => ["reachedthestimecap;stopping".toList]
  | strategyStopped _ _ _ _ =>
      ["strategystopped:ticksin,ordersout(%conversion),suppressedbypositionlimit".toList]
  | fill _ side _ _ _ _ partially =>
      ["fill#".toList, side.name.toList, "px=qty=pos=pnl=".toList,
        if partially then "(partial)".toList else []]
  | rule => []
  | executionStopped _ _ _ => ["executionstopped:fills|finalposition|marktomarketP&L".toList]
  | updates _ _ _ => ["exchange:bookupdates,bid=ask=".toList]
  | exchangeStopped _ => ["exchangestoppedafterbookupdates".toList]
  | latency l _ => ["LAT".toList, marks l.label.toList, "n=min=p=p=p=ns".toList]

theorem marks_name (side : Side) : marks side.name.toList = side.name.toList := by
  cases side with
  | buy => decide
  | sell => decide

theorem marks_line (l : StageLine) : marks l.text = l.skeleton.flatten := by
  rw [StageLine.text, marks_flatten]
  cases l with
  | order id side px score pos tick =>
      simp only [StageLine.pieces, StageLine.skeleton, List.map_cons, List.map_nil, marks_padLeft,
        marks_padRight, marks_digits, marks_signed, marks_plus, marks_text, marks_name]
      cases side with
      | buy => decide +kernel
      | sell => decide +kernel
  | fill id side px qty pos pnl partially =>
      simp only [StageLine.pieces, StageLine.skeleton, List.map_cons, List.map_nil, marks_padLeft,
        marks_padRight, marks_digits, marks_plus, marks_text, marks_name]
      cases side with
      | buy => cases partially <;> decide +kernel
      | sell => cases partially <;> decide +kernel
  | latency l hl =>
      simp only [StageLine.pieces, StageLine.skeleton, List.map_cons, List.map_nil, marks_padRight,
        marks_digits]
      generalize l.label = label at hl ⊢
      simp only [windowLabels, List.mem_cons, List.not_mem_nil, or_false] at hl
      rcases hl with rfl | rfl | rfl | rfl <;> decide +kernel
  | _ =>
      simp only [StageLine.pieces, StageLine.skeleton, List.map_cons, List.map_nil, marks_digits,
        marks_plus, marks_text]
      decide +kernel

theorem marks_logged (st : Stage) (l : StageLine) :
    marks (l.logged st) = ["[".toList, st.tag, "]".toList, l.skeleton.flatten].flatten := by
  have hstage : marks st.tag = st.tag := by cases st <;> decide
  have hclose : marks "] ".toList = "]".toList := by decide
  have hopen : marks "[".toList = "[".toList := by decide
  rw [StageLine.logged, marks_flatten, List.map_cons, List.map_cons, List.map_cons, List.map_cons,
    List.map_nil, marks_line, hstage, hclose, hopen]

/-- **A word is looked for among the marks of a line.** -/
theorem not_infix_logged {w : List Char} {st : Stage} {l : StageLine}
    (h : ¬ marks w <:+: ["[".toList, st.tag, "]".toList, l.skeleton.flatten].flatten) :
    ¬ w <:+: l.logged st :=
  not_infix_marks (marks_logged st l ▸ h)

/-- A printable character. -/
def isPrintable (c : Char) : Bool := 0x20 ≤ c.toNat && c.toNat ≤ 0x7E

theorem isPrintable_of_isField {c : Char} (h : isField c = true) : isPrintable c = true := by
  rw [isField, Bool.or_eq_true, Bool.or_eq_true, Bool.or_eq_true, Bool.or_eq_true,
    decide_eq_true_eq, decide_eq_true_eq, decide_eq_true_eq, decide_eq_true_eq] at h
  rcases h with (((hdigit | rfl) | rfl) | rfl) | rfl
  · obtain ⟨hlow, hhigh⟩ := Char.isDigit_iff_toNat.mp hdigit
    rw [isPrintable, Bool.and_eq_true, decide_eq_true_eq, decide_eq_true_eq]
    exact ⟨le_trans (by decide) hlow, le_trans hhigh (by decide)⟩
  · decide
  · decide
  · decide
  · decide

theorem isPrintable_skeleton (l : StageLine) :
    ∀ c ∈ l.skeleton.flatten, isPrintable c = true := by
  rw [← List.all_eq_true]
  cases l with
  | order id side px score pos tick =>
      rw [StageLine.skeleton]
      cases side <;> decide +kernel
  | fill id side px qty pos pnl partially =>
      rw [StageLine.skeleton]
      cases side <;> cases partially <;> decide +kernel
  | latency l hl =>
      rw [StageLine.skeleton]
      generalize l.label = label at hl ⊢
      simp only [windowLabels, List.mem_cons, List.not_mem_nil, or_false] at hl
      rcases hl with rfl | rfl | rfl | rfl <;> decide +kernel
  | _ =>
      rw [StageLine.skeleton]
      decide +kernel

theorem isPrintable_tag (st : Stage) : st.tag.all isPrintable = true := by
  cases st <;> decide

/-- Every character of a line is printable. -/
theorem isPrintable_logged (st : Stage) (l : StageLine) :
    ∀ c ∈ l.logged st, isPrintable c = true := by
  intro c hc
  cases hfield : isField c with
  | true => exact isPrintable_of_isField hfield
  | false =>
      have hmark : c ∈ marks (l.logged st) := List.mem_filter.mpr ⟨hc, by rw [hfield]; rfl⟩
      rw [marks_logged, List.flatten_cons, List.flatten_cons, List.flatten_cons, List.flatten_cons,
        List.flatten_nil, List.append_nil] at hmark
      rcases List.mem_append.mp hmark with h | h
      · exact List.all_eq_true.mp (by decide : "[".toList.all isPrintable = true) c h
      · rcases List.mem_append.mp h with h | h
        · exact List.all_eq_true.mp (isPrintable_tag st) c h
        · rcases List.mem_append.mp h with h | h
          · exact List.all_eq_true.mp (by decide : "]".toList.all isPrintable = true) c h
          · exact isPrintable_skeleton l c h

end Fields

end HotpathIpc
