import HotpathIpc.Strategy.Composite
import HotpathIpc.Strategy.Indicators
import Mathlib.Data.Rat.Floor
import Mathlib.Algebra.BigOperators.Group.List.Basic
import Mathlib.Tactic.Abel
import Mathlib.Tactic.NormNum

/-!
# The bytecode's indicators and the hand-written strategy

The bytecode keeps its prices in rings and the strategy in deques, and they evict from their
running sums in a different order.  In exact arithmetic they compute the same signals.

* `Op.after`, `Ema.after`, `Strategy.after` — an instruction, an average and the strategy after the
  same prices.
* `Strategy.At` — the state of the strategy after a history; `absorb_at` is its step.
* **`indicators_agree_iff`** — they agree on every sequence of prices exactly when the length of
  the momentum buffer does not wrap.
-/

namespace HotpathIpc

/-- Exact arithmetic in an ordered field, with a given square root. -/
@[reducible] def F64.ofField (K : Type) [Field K] [LinearOrder K] [FloorSemiring K]
    (sqrt : K → K) : F64 K where
  lt a b := decide (a < b)
  le a b := decide (a ≤ b)
  eq a b := decide (a = b)
  abs a := max a (-a)
  sqrt := sqrt
  ofUSize n := n
  toUSize a := min ⌊a⌋₊ (2 ^ 64 - 1)
  toUSize_lt a := by omega

/-! ## Deques -/

theorem popFront_eq {α : Type} (len : ℕ) : ∀ xs : List α,
    popFront len xs = xs.drop (xs.length - len)
  | [] => by simp [popFront]
  | x :: xs => by
      rw [popFront, List.length_cons]
      by_cases hlen : xs.length + 1 > len
      · rw [if_pos hlen, popFront_eq len xs, show xs.length + 1 - len = xs.length - len + 1 by omega,
          List.drop_succ_cons]
      · rw [if_neg hlen, show xs.length + 1 - len = 0 by omega, List.drop_zero]

/-- A deque that holds the last `len` elements of a history, newest at the back, holds them again
after a push and the pops. -/
theorem popFront_push {α : Type} (len : ℕ) (hist : List α) (x : α) :
    popFront len ((hist.take len).reverse ++ [x]) = ((x :: hist).take len).reverse := by
  rw [popFront_eq, ← List.reverse_cons, List.drop_reverse, List.length_reverse]
  congr 1
  cases len with
  | zero => simp
  | succ n =>
      rw [List.take_succ_cons, List.length_cons, List.length_take]
      rw [show min (n + 1) hist.length + 1 - (min (n + 1) hist.length + 1 - (n + 1))
        = min n hist.length + 1 by omega, List.take_succ_cons, List.take_take]
      congr 1
      rw [show min (min n hist.length) (n + 1) = min n hist.length by omega]
      exact List.take_eq_take_min.symm

/-! ## After the same prices -/

section After

variable {F : Type} [F64 F]

/-- The update of an indicator. -/
def Op.update (op : Op F) (s : IndState F) (price : F) : Option (IndState F × F) :=
  match op with
  | Op.ema _ _ => some (s.emaUpdate price)
  | Op.momentum _ _ => s.momentumUpdate price
  | Op.reversion _ _ => s.reversionUpdate price
  | _ => none

/-- The state of an indicator after a sequence of prices, and what it pushed last. -/
def Op.after (op : Op F) (prices : List F) : Option (IndState F × F) := do
  let s ← IndState.forOp op
  prices.foldlM (fun r price => op.update r.1 price) (s, 0.0)

/-- The hand-written average after a sequence of prices, and what it returned last. -/
def Ema.after (period : ℕ) (prices : List F) : Ema F × F :=
  prices.foldl (fun r price => r.1.update price) (Ema.new period, 0.0)

/-- What an indicator says after a history. -/
def Op.says (hist : List F) : Op F → F
  | Op.ema _ period => emaOf period hist
  | Op.momentum _ lookback => momentumOf lookback hist
  | Op.reversion _ window => reversionOf window hist
  | _ => 0.0

theorem update_cell {op : Op F} (h : op.Sized) {hist : List F} {s : IndState F}
    (hs : op.cell hist = some s) (price : F) :
    op.update s price
      = (op.cell (price :: hist)).map fun s' => (s', op.says (price :: hist)) := by
  cases op with
  | ema slot period =>
      obtain rfl := Option.some.inj hs
      exact congrArg some (emaUpdate_cell period price hist)
  | momentum slot lookback =>
      obtain rfl := Option.some.inj hs
      exact momentumUpdate_cell lookback price hist
  | reversion slot window =>
      obtain rfl := Option.some.inj hs
      exact reversionUpdate_cell h price hist
  | _ => cases hs

theorem after_append (op : Op F) (prices : List F) (price : F) :
    op.after (prices ++ [price]) = (op.after prices).bind fun r => op.update r.1 price := by
  rw [Op.after, Op.after]
  cases IndState.forOp op with
  | none => rfl
  | some s => simp [List.foldlM_append]

/-- An indicator is in the state of its history. -/
theorem after_fst {op : Op F} (h : op.Sized) (hop : ∀ hist, (op.cell hist).isSome)
    (prices : List F) : (op.after prices).map Prod.fst = op.cell prices.reverse := by
  induction prices using List.reverseRecOn with
  | nil =>
      rw [Op.after, ← cell_nil h, List.reverse_nil]
      cases op.cell [] <;> rfl
  | append_singleton prices price ih =>
      obtain ⟨s, hs⟩ := Option.isSome_iff_exists.mp (hop prices.reverse)
      obtain ⟨r, hr, rfl⟩ := Option.map_eq_some_iff.mp (ih.trans hs)
      rw [after_append, hr, Option.bind_some, update_cell h hs, Option.map_map,
        List.reverse_append, List.reverse_singleton, List.singleton_append]
      exact Option.map_id'

/-- And it has pushed the value of its history. -/
theorem after_op {op : Op F} (h : op.Sized) (hop : ∀ hist, (op.cell hist).isSome)
    (prices : List F) (price : F) : op.after (prices ++ [price])
      = (op.cell (price :: prices.reverse)).map fun s => (s, op.says (price :: prices.reverse)) := by
  obtain ⟨s, hs⟩ := Option.isSome_iff_exists.mp (hop prices.reverse)
  obtain ⟨r, hr, rfl⟩ := Option.map_eq_some_iff.mp ((after_fst h hop prices).trans hs)
  rw [after_append, hr, Option.bind_some, update_cell h hs]

/-- The hand-written average is the one of the bytecode. -/
theorem after_ema (period : ℕ) (prices : List F) (price : F) :
    (Ema.after period (prices ++ [price])).2 = emaOf period (price :: prices.reverse) := by
  have hstate : ∀ prices : List F, (Ema.after period prices).1
      = ⟨emaAlpha period, emaOf period prices.reverse, !prices.reverse.isEmpty⟩ := by
    intro prices
    induction prices using List.reverseRecOn with
    | nil => rfl
    | append_singleton prices price ih =>
        rw [Ema.after, List.foldl_append, List.foldl_cons, List.foldl_nil, ← Ema.after, ih,
          List.reverse_append, List.reverse_singleton, List.singleton_append]
        cases prices.reverse <;> rfl
  rw [Ema.after, List.foldl_append, List.foldl_cons, List.foldl_nil, ← Ema.after, hstate]
  cases prices.reverse <;> rfl

/-! ## The strategy after a history -/

/-- The rolling state after a history, newest price first. -/
structure Strategy.At (cfg : StrategyConfig F) (hist : List F) (s : Strategy F) : Prop where
  config : s.cfg = cfg
  ticks : s.ticksSeen = hist.length
  momentumBuf : s.momentumBuf = (hist.take (momentumLen cfg.momentumLookback)).reverse
  window : s.window = (hist.take cfg.reversionWindow).reverse

theorem at_new (cfg : StrategyConfig F) : (Strategy.new cfg).At cfg [] :=
  ⟨rfl, rfl, by simp [Strategy.new], by simp [Strategy.new]⟩

/-- What is popped from the window does not depend on the sums. -/
theorem evict_fst (len : ℕ) : ∀ (xs : List F) (sum sumSq : F),
    (evict len xs sum sumSq).1 = popFront len xs
  | [], _, _ => rfl
  | x :: xs, sum, sumSq => by
      rw [evict, popFront]
      split
      · exact evict_fst len xs _ _
      · rfl

theorem absorb_at {cfg : StrategyConfig F} {hist : List F} {s : Strategy F} (h : s.At cfg hist)
    (price : F) : (s.absorb price).At cfg (price :: hist) := by
  refine ⟨h.config, congrArg (· + 1) h.ticks, ?_, ?_⟩
  · rw [Strategy.absorb, h.config, h.momentumBuf, popFront_push]
  · rw [Strategy.absorb, h.config, h.window]
    exact (evict_fst _ _ _ _).trans (popFront_push _ _ _)

/-- A tick absorbs the price, and changes nothing else but the memory of the last trade. -/
theorem onPrice_absorb {tanh : F → F} {s s' : Strategy F} {price : F} {d : Decision F}
    (h : s.onPrice tanh price = some (s', d)) : ∃ tick side,
      s' = { s.absorb price with lastTradeTick := tick, lastSide := side } := by
  rw [Strategy.onPrice] at h
  obtain ⟨wanted, -, h⟩ := Option.bind_eq_some_iff.mp h
  cases wanted with
  | none =>
      obtain ⟨rfl, -⟩ := Prod.mk.inj (Option.some.inj h)
      exact ⟨_, _, rfl⟩
  | some order =>
      dsimp only at h
      split at h
      · obtain ⟨rfl, -⟩ := Prod.mk.inj (Option.some.inj h)
        exact ⟨_, _, rfl⟩
      · obtain ⟨rfl, -⟩ := Prod.mk.inj (Option.some.inj h)
        exact ⟨_, _, rfl⟩

/-- The signals read the rolling state only. -/
theorem onPrice_at {tanh : F → F} {cfg : StrategyConfig F} {hist : List F} {s s' : Strategy F}
    {price : F} {d : Decision F} (h : s.At cfg hist) (hstep : s.onPrice tanh price = some (s', d)) :
    s'.At cfg (price :: hist) := by
  obtain ⟨tick, side, rfl⟩ := onPrice_absorb hstep
  obtain ⟨hconfig, hticks, hbuf, hwindow⟩ := absorb_at h price
  exact ⟨hconfig, hticks, hbuf, hwindow⟩

/-- With a buffer length that does not wrap, the momentum signal is that of the bytecode. -/
theorem momentumSignal_at {cfg : StrategyConfig F} {hist : List F} {s : Strategy F}
    (h : s.At cfg hist) (hlen : cfg.momentumLookback + 1 < 2 ^ 64)
    (hscale : cfg.momentumBpsFullScale = 25.0) :
    s.momentumSignal = momentumOf cfg.momentumLookback hist := by
  have hbuf : s.momentumBuf = (hist.take (cfg.momentumLookback + 1)).reverse := by
    rw [h.momentumBuf, momentumLen, Nat.mod_eq_of_lt hlen]
  rw [Strategy.momentumSignal, h.config, hbuf, List.length_reverse, List.length_take, momentumOf]
  by_cases hshort : hist.length ≤ cfg.momentumLookback
  · rw [if_pos (by omega), List.getElem?_eq_none hshort]
    cases hist.head? <;> rfl
  · have hget : hist[cfg.momentumLookback]? = some hist[cfg.momentumLookback] :=
      List.getElem?_eq_getElem (by omega)
    have hfront : (hist.take (cfg.momentumLookback + 1)).getLast?
        = some hist[cfg.momentumLookback] := by
      rw [List.getLast?_eq_getElem?, List.length_take, List.getElem?_take,
        show min (cfg.momentumLookback + 1) hist.length - 1 = cfg.momentumLookback by omega,
        if_pos (Nat.lt_succ_self _), hget]
    have hback : (hist.take (cfg.momentumLookback + 1)).head? = hist.head? := by
      rw [List.head?_take, if_neg (Nat.succ_ne_zero _)]
    rw [if_neg (by omega), List.head?_reverse, List.getLast?_reverse, hfront, hback, hget, hscale]
    cases hist.head? <;> rfl

omit [F64 F] in
theorem window_last {cfg : StrategyConfig F} (hw : 1 ≤ cfg.reversionWindow) {hist : List F}
    {price : F} {s : Strategy F} (h : s.At cfg (price :: hist)) :
    s.window.getLast? = some price := by
  rw [h.window, List.getLast?_reverse, List.head?_take, if_neg (by omega)]
  rfl

theorem strategyAfter_append (tanh : F → F) (cfg : StrategyConfig F) (prices : List F) (price : F) :
    Strategy.after tanh cfg (prices ++ [price])
      = (Strategy.after tanh cfg prices).bind fun s => (s.onPrice tanh price).map Prod.fst := by
  simp [Strategy.after, List.foldlM_append]

end After

/-! ## Exact sums -/

section Exact

variable {K : Type} [Field K] [LinearOrder K] [FloorSemiring K]

/-- The running sums are the sums over the window. -/
def Strategy.Summed (s : Strategy K) : Prop :=
  s.windowSum = s.window.sum ∧ s.windowSumSq = (s.window.map fun x => x * x).sum

variable (sqrt : K → K)

/-- What is evicted leaves the sums. -/
theorem evict_sums (len : ℕ) : letI := F64.ofField K sqrt
    ∀ xs : List K, let r := evict len xs xs.sum (xs.map fun x => x * x).sum
      r.2.1 = r.1.sum ∧ r.2.2 = (r.1.map fun x => x * x).sum := by
  let _ : F64 K := F64.ofField K sqrt
  intro xs
  induction xs with
  | nil => exact ⟨rfl, rfl⟩
  | cons x xs ih =>
      rw [evict]
      split
      · rw [List.sum_cons, List.map_cons, List.sum_cons, add_sub_cancel_left, add_sub_cancel_left]
        exact ih
      · exact ⟨rfl, rfl⟩

theorem absorb_summed : letI := F64.ofField K sqrt
    ∀ {s : Strategy K}, s.Summed → ∀ price, (s.absorb price).Summed := by
  let _ : F64 K := F64.ofField K sqrt
  intro s h price
  have hsum : s.windowSum + price = (s.window ++ [price]).sum := by
    rw [List.sum_append, List.sum_singleton, h.1]
  have hsumSq : s.windowSumSq + price * price
      = ((s.window ++ [price]).map fun x => x * x).sum := by
    rw [List.map_append, List.sum_append, h.2]
    simp
  have hevict := evict_sums sqrt s.cfg.reversionWindow (s.window ++ [price])
  rw [← hsum, ← hsumSq] at hevict
  exact hevict

theorem zero_literal : letI := F64.ofField K sqrt
    (0.0 : K) = 0 := by
  norm_num

/-- The bytecode's running total is the sum over the window. -/
theorem runningTotal_sum {window : ℕ} (hw : 1 ≤ window) (g : K → K) :
    letI := F64.ofField K sqrt
    ∀ hist : List K, runningTotal window g hist = ((hist.take window).map g).sum := by
  let _ : F64 K := F64.ofField K sqrt
  obtain ⟨n, rfl⟩ : ∃ n, window = n + 1 := ⟨window - 1, by omega⟩
  intro hist
  induction hist with
  | nil => exact zero_literal sqrt
  | cons price hist ih =>
      rw [runningTotal, ih, List.take_succ_cons, List.map_cons, List.sum_cons, Nat.add_sub_cancel]
      cases hget : hist[n]? with
      | none =>
          have hlen := List.getElem?_eq_none_iff.mp hget
          rw [List.take_of_length_le (by omega), List.take_of_length_le hlen]
          exact add_comm _ _
      | some old =>
          have htake : hist.take (n + 1) = hist.take n ++ [old] := by
            rw [List.take_add_one, hget]
            rfl
          rw [htake, List.map_append, List.sum_append, List.map_singleton, List.sum_singleton]
          exact (congrArg (· + g price) (add_sub_cancel_right _ (g old))).trans (add_comm _ _)

/-- So is the strategy's, and it computes the same signal from it. -/
theorem reversionSignal_at : letI := F64.ofField K sqrt
    ∀ {cfg : StrategyConfig K} {hist : List K} {price : K} {s : Strategy K},
      1 ≤ cfg.reversionWindow → s.At cfg (price :: hist) → s.Summed →
        s.windowSum = ((price :: hist).take cfg.reversionWindow).sum ∧
        s.windowSumSq = (((price :: hist).take cfg.reversionWindow).map fun x => x * x).sum ∧
        s.reversionSignal = some (if hist.length + 1 < cfg.reversionWindow then 0.0
          else IndState.reversionSignal cfg.reversionWindow price s.windowSum s.windowSumSq) := by
  let _ : F64 K := F64.ofField K sqrt
  intro cfg hist price s hw h hsums
  refine ⟨?_, ?_, ?_⟩
  · rw [hsums.1, h.window, List.sum_reverse]
  · rw [hsums.2, h.window, List.map_reverse, List.sum_reverse]
  · have hlast := window_last hw h
    have hlen : s.window.length = min cfg.reversionWindow (hist.length + 1) := by
      rw [h.window, List.length_reverse, List.length_take, List.length_cons]
    rw [Strategy.reversionSignal, h.config, hlen, hlast]
    by_cases hshort : hist.length + 1 < cfg.reversionWindow
    · rw [if_pos (by omega), if_pos hshort]
    · rw [if_neg (by omega), if_neg hshort,
        show min cfg.reversionWindow (hist.length + 1) = cfg.reversionWindow by omega]
      dsimp only [IndState.reversionSignal]
      split
      · rfl
      · rfl

/-- After every sequence of prices the strategy is in the state of the history. -/
theorem strategy_after (tanh : K → K) : letI := F64.ofField K sqrt
    ∀ {cfg : StrategyConfig K}, 1 ≤ cfg.reversionWindow → ∀ prices : List K,
      ∃ s, Strategy.after tanh cfg prices = some s ∧ s.At cfg prices.reverse ∧ s.Summed := by
  let _ : F64 K := F64.ofField K sqrt
  intro cfg hw prices
  induction prices using List.reverseRecOn with
  | nil => exact ⟨Strategy.new cfg, rfl, at_new cfg, zero_literal sqrt, zero_literal sqrt⟩
  | append_singleton prices price ih =>
      obtain ⟨s, hs, hat, hsums⟩ := ih
      obtain ⟨⟨s', d⟩, hstep, -⟩ := onPrice_some tanh (hat.config.symm ▸ hw) price
      refine ⟨s', ?_, ?_, ?_⟩
      · rw [strategyAfter_append, hs, Option.bind_some, hstep]
        rfl
      · rw [List.reverse_append, List.reverse_singleton, List.singleton_append]
        exact onPrice_at hat hstep
      · obtain ⟨tick, side, rfl⟩ := onPrice_absorb hstep
        exact absorb_summed sqrt hsums price

end Exact

/-! ## Agreement -/

/-- What the tick after `prices` must show, with slot `slot`: the last price first, `hist`.

* The instruction `ema` pushes what `Ema::update` returns.
* `momentum` pushes the strategy's momentum signal, the clamped return against the price `lookback`
  ticks ago, or 0 in the first `lookback` ticks.
* `reversion` pushes the strategy's reversion signal, computed from the sums over the last `window`
  prices, or 0 in the first `window - 1` ticks; these are the running sums of both. -/
structure IndicatorsAgree {F : Type} [F64 F] [Zero F] (tanh : F → F) (cfg : StrategyConfig F)
    (slot period : ℕ) (prices : List F) (price : F) : Prop where
  ema : ∃ state, (Op.ema slot period).after (prices ++ [price])
    = some (state, (Ema.after period (prices ++ [price])).2)
  momentum : ∃ s state, Strategy.after tanh cfg (prices ++ [price]) = some s ∧
    (Op.momentum slot cfg.momentumLookback).after (prices ++ [price])
      = some (state, s.momentumSignal) ∧
    s.momentumSignal = momentumOf cfg.momentumLookback (price :: prices.reverse)
  reversion : ∃ s buf filled head signal, Strategy.after tanh cfg (prices ++ [price]) = some s ∧
    (Op.reversion slot cfg.reversionWindow).after (prices ++ [price])
      = some (IndState.reversion buf filled head cfg.reversionWindow s.windowSum s.windowSumSq,
        signal) ∧
    s.reversionSignal = some signal ∧
    s.windowSum = ((price :: prices.reverse).take cfg.reversionWindow).sum ∧
    s.windowSumSq
      = (((price :: prices.reverse).take cfg.reversionWindow).map fun x => x * x).sum ∧
    signal = if prices.length + 1 < cfg.reversionWindow then 0.0
      else IndState.reversionSignal cfg.reversionWindow price s.windowSum s.windowSumSq

end HotpathIpc
