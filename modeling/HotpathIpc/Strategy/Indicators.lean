import HotpathIpc.Library.Ring
import HotpathIpc.Strategy.Bytecode

/-!
# What the indicators compute

An indicator is a function of the prices it has seen and of its parameter: `emaOf`, `momentumOf`,
`reversionOf`, on histories with the newest price first.  `Op.cell` is the state that an
indicator has after a history.  A tick takes it to the state after the longer history, and gives
the value of that history: **`emaUpdate_cell`**, **`momentumUpdate_cell`**,
**`reversionUpdate_cell`**.

Momentum needs a buffer length that does not wrap, reversion a window that is not empty
(`Op.Sized`).
-/

namespace HotpathIpc

variable {F : Type} [F64 F]

/-! ## On histories -/

/-- The exponential moving average, started at the first price. -/
def emaOf (period : ℕ) : List F → F
  | [] => 0.0
  | [price] => price
  | price :: prev :: hist =>
      let value := emaOf period (prev :: hist)
      value + emaAlpha period * (price - value)

/-- The return against the price `lookback` ticks ago, nothing before there is one. -/
def momentumOf (lookback : ℕ) (hist : List F) : F :=
  match hist.head?, hist[lookback]? with
  | some now, some oldest => IndState.momentumSignal now oldest
  | _, _ => 0.0

/-- The running total of `g` over the last `window` prices: each price is added when it comes and
subtracted when it leaves. -/
def runningTotal (window : ℕ) (g : F → F) : List F → F
  | [] => 0.0
  | price :: hist =>
      let total := runningTotal window g hist
      match hist[window - 1]? with
      | some old => total - g old + g price
      | none => total + g price

/-- The mean reversion signal of a full window, nothing before it is full. -/
def reversionOf (window : ℕ) (hist : List F) : F :=
  match hist.head? with
  | none => 0.0
  | some price =>
      if hist.length < window then 0.0
      else IndState.reversionSignal window price (runningTotal window (fun x => x) hist)
        (runningTotal window (fun x => x * x) hist)

/-! ## The state after a history -/

/-- The parameters give the buffers a size. -/
def Op.Sized : Op F → Prop
  | Op.momentum _ lookback => lookback + 1 < 2 ^ 64
  | Op.reversion _ window => 1 ≤ window
  | _ => True

instance : ∀ op : Op F, Decidable op.Sized
  | Op.momentum _ lookback => inferInstanceAs (Decidable (lookback + 1 < 2 ^ 64))
  | Op.reversion _ window => inferInstanceAs (Decidable (1 ≤ window))
  | Op.pushPrice | Op.pushConst _ | Op.ema _ _ | Op.gt | Op.lt | Op.ge | Op.le | Op.eq
  | Op.and | Op.or | Op.not | Op.buy | Op.sell => isTrue trivial

/-- The state of an indicator after a history. -/
def Op.cell (hist : List F) : Op F → Option (IndState F)
  | Op.ema _ period =>
      some (IndState.ema (emaAlpha period) (emaOf period hist) !hist.isEmpty)
  | Op.momentum _ lookback =>
      some (IndState.momentum (Ring.fill (lookback + 1) 0.0 hist)
        (min hist.length (lookback + 1)) (hist.length % (lookback + 1)) lookback)
  | Op.reversion _ window =>
      some (IndState.reversion (Ring.fill window 0.0 hist) (min hist.length window)
        (hist.length % window) window (runningTotal window (fun x => x) hist)
        (runningTotal window (fun x => x * x) hist))
  | _ => none

/-- Nothing seen yet: the state the machine starts with. -/
theorem cell_nil {op : Op F} (h : op.Sized) : op.cell [] = IndState.forOp op := by
  cases op with
  | momentum slot lookback =>
      have hlen : momentumLen lookback = lookback + 1 := Nat.mod_eq_of_lt h
      simp [Op.cell, IndState.forOp, Ring.fill, hlen]
  | reversion slot window => simp [Op.cell, IndState.forOp, Ring.fill, runningTotal]
  | ema slot period => simp [Op.cell, IndState.forOp, emaOf]
  | _ => rfl

theorem emaUpdate_cell (period : ℕ) (price : F) (hist : List F) :
    (IndState.ema (emaAlpha period) (emaOf period hist) !hist.isEmpty).emaUpdate price
      = (IndState.ema (emaAlpha period) (emaOf period (price :: hist)) true,
          emaOf period (price :: hist)) := by
  cases hist with
  | nil => rfl
  | cons prev hist => rfl

/-- The counter of a ring that fills up. -/
theorem min_succ (len n : ℕ) :
    (if min len n < n then min len n + 1 else min len n) = min (len + 1) n := by
  split <;> omega

theorem momentumUpdate_cell (lookback : ℕ) (price : F) (hist : List F) :
    (IndState.momentum (Ring.fill (lookback + 1) 0.0 hist) (min hist.length (lookback + 1))
        (hist.length % (lookback + 1)) lookback).momentumUpdate price
      = some (IndState.momentum (Ring.fill (lookback + 1) 0.0 (price :: hist))
          (min (price :: hist).length (lookback + 1))
          ((price :: hist).length % (lookback + 1)) lookback,
        momentumOf lookback (price :: hist)) := by
  have hlt : hist.length % (lookback + 1) < lookback + 1 := Nat.mod_lt _ (Nat.succ_pos _)
  have hset : (Ring.fill (lookback + 1) 0.0 hist).set (hist.length % (lookback + 1)) price
      = Ring.fill (lookback + 1) 0.0 (price :: hist) := rfl
  have hhead : (hist.length % (lookback + 1) + 1) % (lookback + 1)
      = (price :: hist).length % (lookback + 1) := Nat.mod_add_mod _ _ _
  have hfilled := min_succ hist.length (lookback + 1)
  simp only [IndState.momentumUpdate, Ring.length_fill, hlt, if_true, hset, hhead, hfilled]
  by_cases hshort : min (hist.length + 1) (lookback + 1) ≤ lookback
  · -- the ring is not full: there is no price that long ago
    have hnone : (price :: hist)[lookback]? = none :=
      List.getElem?_eq_none (by rw [List.length_cons]; omega)
    rw [if_pos hshort, momentumOf, hnone]
    rfl
  · have hlen : lookback + 1 ≤ (price :: hist).length := by
      rw [List.length_cons]
      omega
    have hold := Ring.oldest_fill (0.0 : F) (Nat.succ_pos lookback) hlen
    rw [if_neg hshort, hold, Nat.succ_sub_one, momentumOf,
      List.getElem?_eq_getElem (show lookback < (price :: hist).length by omega)]
    rfl

theorem reversionUpdate_cell {window : ℕ} (hw : 1 ≤ window) (price : F) (hist : List F) :
    (IndState.reversion (Ring.fill window 0.0 hist) (min hist.length window)
        (hist.length % window) window (runningTotal window (fun x => x) hist)
        (runningTotal window (fun x => x * x) hist)).reversionUpdate price
      = some (IndState.reversion (Ring.fill window 0.0 (price :: hist))
          (min (price :: hist).length window) ((price :: hist).length % window) window
          (runningTotal window (fun x => x) (price :: hist))
          (runningTotal window (fun x => x * x) (price :: hist)),
        reversionOf window (price :: hist)) := by
  have hlt : hist.length % window < window := Nat.mod_lt _ hw
  have hset : (Ring.fill window 0.0 hist).set (hist.length % window) price
      = Ring.fill window 0.0 (price :: hist) := rfl
  have hhead : (hist.length % window + 1) % window = (price :: hist).length % window :=
    Nat.mod_add_mod _ _ _
  have hguard : hist.length % window < window ∧ window ≠ 0 := ⟨hlt, by omega⟩
  by_cases hfull : window ≤ hist.length
  · -- the window is full: the oldest price leaves the totals
    have hmin : min hist.length window = window := by omega
    have hold := Ring.oldest_fill (0.0 : F) hw hfull
    obtain ⟨old, hget⟩ : ∃ old, hist[window - 1]? = some old :=
      ⟨_, List.getElem?_eq_getElem (show window - 1 < hist.length by omega)⟩
    rw [hget] at hold
    simp only [IndState.reversionUpdate, hmin, if_true, hold, Option.bind_eq_bind,
      Option.bind_some, Ring.length_fill, hguard, hset, hhead]
    simp [reversionOf, runningTotal, hget]
    exact ⟨by omega, by omega, fun hshort => absurd hshort (by omega)⟩
  · have hmin : min hist.length window = hist.length := by omega
    have hne : hist.length ≠ window := by omega
    have hget : hist[window - 1]? = none := List.getElem?_eq_none (by omega)
    have hcount : (if hist.length < window then hist.length + 1 else hist.length)
        = hist.length + 1 := if_pos (by omega)
    have hmin' : min (hist.length + 1) window = hist.length + 1 := by omega
    simp only [IndState.reversionUpdate, hmin, hne, if_false, Option.bind_eq_bind,
      Option.bind_some, Ring.length_fill, hguard, hset, hhead]
    simp [reversionOf, runningTotal, hget, hcount, hmin']
    refine ⟨by omega, ?_⟩
    split <;> rfl

end HotpathIpc
