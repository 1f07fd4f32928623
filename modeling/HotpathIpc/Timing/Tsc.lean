import HotpathIpc.Library.Rescale
import HotpathIpc.Library.Saturating
import Mathlib.Data.Rat.Floor
import Mathlib.Tactic.Linarith

/-!
# Cycle counts as Unix time

The conversions of `src/tsc_calibration.rs`.

* The two rates are rational numbers and products with them are exact.  A float cast to `u64`
  truncates and saturates.
* The time of the last calibration and the CPU frequency have no part in a conversion and are left
  out.

* `ClockLine` — a rate and an epoch on two clocks; the conversions between TSC and Unix time are its
  `convert`, and `trueReading` is the conversion with no wrap and no rounding.
* `toNat_convert` — the conversion is a `Rescale`; `floor_trueReading` is what it gives from the
  epoch on.
* `ordered_reading_iff`, **`ordered_time_iff`** — which readings are converted in order.
-/

namespace HotpathIpc

/-- One clock on another: units of the second for each unit of the first, and a common epoch. -/
structure ClockLine where
  rate : ℚ
  epoch : UInt64
  origin : UInt64

/-- A number of units of one clock in units of another. -/
def scaled (rate : ℚ) (units : UInt64) : UInt64 := Saturating.u64 (units.toNat * rate)

/-- Cycles to nanoseconds using the cached frequency. -/
def fastCyclesToNs (cyclesPerNs : ℚ) (cycles : UInt64) : UInt64 := scaled (1 / cyclesPerNs) cycles

namespace ClockLine

variable (l : ClockLine)

/-- Convert a reading through what has elapsed since the epoch. -/
def convert (reading : UInt64) : UInt64 :=
  let elapsed := reading - l.epoch
  l.origin + scaled l.rate elapsed

/-- The point of the line at a reading. -/
def trueReading (reading : UInt64) : ℚ :=
  l.origin.toNat + ((reading.toNat : ℚ) - l.epoch.toNat) * l.rate

/-- That point is one a `u64` holds. -/
structure Fits (reading : UInt64) : Prop where
  nonneg : 0 ≤ l.trueReading reading
  lt : l.trueReading reading < 2 ^ 64

end ClockLine

/-- Calibration data mapping cycles to nanoseconds and TSC to Unix time. -/
structure TscCalibration where
  cyclesPerNs : ℚ
  nsPerCycle : ℚ
  epochTsc : UInt64
  epochUnixNs : UInt64

namespace TscCalibration

variable (cal : TscCalibration)

def cyclesToNs (cycles : UInt64) : UInt64 := scaled cal.nsPerCycle cycles

def nsToCycles (ns : UInt64) : UInt64 := scaled cal.cyclesPerNs ns

def tscToUnixNs (tsc : UInt64) : UInt64 :=
  let elapsedCycles := tsc - cal.epochTsc
  let elapsedNs := cal.cyclesToNs elapsedCycles
  cal.epochUnixNs + elapsedNs

def unixNsToTsc (unixNs : UInt64) : UInt64 :=
  let elapsedNs := unixNs - cal.epochUnixNs
  let elapsedCycles := cal.nsToCycles elapsedNs
  cal.epochTsc + elapsedCycles

/-- The line on which the TSC becomes Unix time. -/
def toUnix : ClockLine := ⟨cal.nsPerCycle, cal.epochTsc, cal.epochUnixNs⟩

def toTsc : ClockLine := ⟨cal.cyclesPerNs, cal.epochUnixNs, cal.epochTsc⟩

end TscCalibration

theorem tscToUnixNs_eq (cal : TscCalibration) (tsc : UInt64) :
    cal.tscToUnixNs tsc = cal.toUnix.convert tsc := rfl

theorem unixNsToTsc_eq (cal : TscCalibration) (unixNs : UInt64) :
    cal.unixNsToTsc unixNs = cal.toTsc.convert unixNs := rfl

/-! ## Conversions as rescalings -/

section Order

variable {l : ClockLine} {a b reading : UInt64}

/-- The line, with a rate that does not turn time around. -/
def ClockLine.rescale (l : ClockLine) (hrate : 0 < l.rate) : Rescale (2 ^ 64) where
  epoch := l.epoch.toFin
  origin := l.origin.toFin
  scale n := (Saturating.u64 (n * l.rate)).toFin
  mono := fun _ _ hmn => Saturating.u64_mono
    (mul_le_mul_of_nonneg_right (Nat.cast_le.mpr hmn) hrate.le)

theorem toNat_convert (hrate : 0 < l.rate) (reading : UInt64) :
    (l.convert reading).toNat = (l.rescale hrate).convert reading.toNat := by
  rw [ClockLine.convert, scaled, UInt64.toNat_add, UInt64.toNat_sub]
  rfl

theorem trueReading_after (hle : l.epoch.toNat ≤ reading.toNat) : l.trueReading reading
    = l.origin.toNat + ((reading.toNat - l.epoch.toNat : ℕ) : ℚ) * l.rate := by
  rw [ClockLine.trueReading, Nat.cast_sub hle]

theorem trueReading_before (hle : reading.toNat ≤ l.epoch.toNat) : l.trueReading reading
    = l.origin.toNat - ((l.epoch.toNat - reading.toNat : ℕ) : ℚ) * l.rate := by
  rw [ClockLine.trueReading, Nat.cast_sub hle]
  ring

/-- From the epoch on, a reading that fits does not make the sum wrap. -/
theorem fits_after (hrate : 0 < l.rate) (hle : l.epoch.toNat ≤ reading.toNat)
    (hf : l.Fits reading) :
    l.origin.toNat + ⌊((reading.toNat - l.epoch.toNat : ℕ) : ℚ) * l.rate⌋₊ < 2 ^ 64 := by
  have hlt := hf.lt
  rw [trueReading_after hle] at hlt
  have hfloor : (⌊((reading.toNat - l.epoch.toNat : ℕ) : ℚ) * l.rate⌋₊ : ℚ) ≤ _ :=
    Nat.floor_le (by positivity)
  exact_mod_cast lt_of_le_of_lt (add_le_add_right hfloor _) hlt

/-- Nor does it saturate the cast. -/
theorem scale_after (hrate : 0 < l.rate) (hle : l.epoch.toNat ≤ reading.toNat)
    (hf : l.Fits reading) :
    ((l.rescale hrate).scale (reading.toNat - l.epoch.toNat) : ℕ)
      = ⌊((reading.toNat - l.epoch.toNat : ℕ) : ℚ) * l.rate⌋₊ := by
  have hfit := fits_after hrate hle hf
  refine (Saturating.toNat_u64 _).trans (min_eq_left ?_)
  omega

/-- **From the epoch on** the conversion is the point of the line, rounded down. -/
theorem floor_trueReading (hrate : 0 < l.rate) (hle : l.epoch.toNat ≤ reading.toNat)
    (hf : l.Fits reading) : (l.convert reading).toNat = ⌊l.trueReading reading⌋₊ := by
  have hfit := fits_after hrate hle hf
  have hscale := scale_after hrate hle hf
  rw [← hscale] at hfit
  have hconvert : (l.convert reading).toNat = l.origin.toNat
      + ⌊((reading.toNat - l.epoch.toNat : ℕ) : ℚ) * l.rate⌋₊ :=
    ((toNat_convert hrate reading).trans (Rescale.convert_after hle reading.toNat_lt hfit)).trans
      (congrArg (l.origin.toNat + ·) hscale)
  rw [hconvert, trueReading_after hle, add_comm (l.origin.toNat : ℚ),
    Nat.floor_add_natCast (by positivity), Nat.add_comm]

/-- Before the epoch, the sum wraps only if the point of the line is late enough. -/
theorem carries_iff (hrate : 0 < l.rate) (hlt : reading.toNat < l.epoch.toNat)
    (hf : l.Fits reading) : (l.rescale hrate).Carries reading.toNat
      ↔ 2 ^ 64 * (1 - l.rate) ≤ l.trueReading reading := by
  have he := l.epoch.toNat_lt
  have hu := l.origin.toNat_lt
  have hnonneg := hf.nonneg
  rw [trueReading_before hlt.le] at hnonneg ⊢
  -- something that fits lies before the origin, so the origin is not 0
  have hgap : (0 : ℚ) < ((l.epoch.toNat - reading.toNat : ℕ) : ℚ) * l.rate :=
    mul_pos (Nat.cast_pos.mpr (by omega)) hrate
  have horigin : (0 : ℚ) < l.origin.toNat := by linarith
  have hpos : 0 < l.origin.toNat := Nat.cast_pos.mp horigin
  have hcarry : (l.rescale hrate).Carries reading.toNat ↔ 2 ^ 64 - l.origin.toNat
      ≤ (Saturating.u64
        (((2 ^ 64 - (l.epoch.toNat - reading.toNat) : ℕ) : ℚ) * l.rate)).toNat :=
    tsub_le_iff_left.symm
  rw [hcarry, Saturating.le_toNat_u64_iff (by positivity) (by omega),
    Nat.cast_sub hu.le, Nat.cast_sub (show l.epoch.toNat - reading.toNat ≤ 2 ^ 64 by omega)]
  push_cast
  constructor
  · intro h
    linarith
  · intro h
    linarith

/-- **Which readings are converted in order**, on either clock. -/
theorem ordered_reading_iff (hrate : 0 < l.rate) (hab : a ≤ b) (ha : l.Fits a) (hb : l.Fits b) :
    (l.convert a ≤ l.convert b ∧ (a < l.epoch → l.convert a < l.origin))
      ↔ l.epoch ≤ a ∨ 2 ^ 64 * (1 - l.rate) ≤ l.trueReading a := by
  have hfit : l.epoch.toNat ≤ b.toNat →
      l.origin.toNat + ((l.rescale hrate).scale (b.toNat - l.epoch.toNat) : ℕ) < 2 ^ 64 := by
    intro hle
    rw [scale_after hrate hle hb]
    exact fits_after hrate hle hb
  have hordered := Rescale.ordered_iff (c := l.rescale hrate)
    (UInt64.le_iff_toNat_le.mp hab) b.toNat_lt hfit
  rw [← toNat_convert, ← toNat_convert] at hordered
  simp only [UInt64.le_iff_toNat_le, UInt64.lt_iff_toNat_lt]
  refine hordered.trans ?_
  rcases Nat.lt_or_ge a.toNat l.epoch.toNat with hlt | hle
  · exact or_congr Iff.rfl (carries_iff hrate hlt ha)
  · exact iff_of_true (Or.inl hle) (Or.inl hle)

/-- Onto a clock that is not slower every reading is converted in order. -/
theorem ordered_of_one_le (hrate : 1 ≤ l.rate) (hab : a ≤ b) (ha : l.Fits a) (hb : l.Fits b) :
    l.convert a ≤ l.convert b ∧ (a < l.epoch → l.convert a < l.origin) := by
  refine (ordered_reading_iff (by linarith) hab ha hb).mpr (Or.inr ?_)
  have hnonneg := ha.nonneg
  linarith

end Order

/-- From Unix time to a counter of 1 GHz or more everything is converted in order. -/
theorem ordered_tsc (cal : TscCalibration) (a b : UInt64) (hrate : 1 ≤ cal.cyclesPerNs)
    (hab : a ≤ b) (ha : cal.toTsc.Fits a) (hb : cal.toTsc.Fits b) :
    cal.unixNsToTsc a ≤ cal.unixNsToTsc b ∧
      (a < cal.epochUnixNs → cal.unixNsToTsc a < cal.epochTsc) := by
  rw [unixNsToTsc_eq, unixNsToTsc_eq]
  exact ordered_of_one_le (l := cal.toTsc) hrate hab ha hb

/-- **Which timestamps are converted to Unix times in order.**  Of two timestamps whose true times
fit, the earlier is converted to an earlier time, and to one before the epoch if it is before the
epoch, exactly when it is not before the epoch or its true time is late enough for the sum to
wrap. -/
theorem ordered_time_iff (cal : TscCalibration) (a b : UInt64) (hrate : 0 < cal.nsPerCycle)
    (hab : a ≤ b) (ha : cal.toUnix.Fits a) (hb : cal.toUnix.Fits b) :
    (cal.tscToUnixNs a ≤ cal.tscToUnixNs b ∧
        (a < cal.epochTsc → cal.tscToUnixNs a < cal.epochUnixNs))
      ↔ cal.epochTsc ≤ a ∨ 2 ^ 64 * (1 - cal.nsPerCycle) ≤ cal.toUnix.trueReading a := by
  rw [tscToUnixNs_eq, tscToUnixNs_eq]
  exact ordered_reading_iff (l := cal.toUnix) hrate hab ha hb

/-- A 3 GHz counter. -/
def threeGhz : TscCalibration := ⟨3, 1 / 3, 1000000000000000, 1700000000000000000⟩

/-- Two timestamps after the epoch, a microsecond apart. -/
theorem ordered_time_threeGhz :
    threeGhz.tscToUnixNs 1000000000000300 ≤ threeGhz.tscToUnixNs 1000000000003300 :=
  ((ordered_time_iff threeGhz 1000000000000300 1000000000003300 (by decide +kernel)
    (by decide) ⟨by decide +kernel, by decide +kernel⟩ ⟨by decide +kernel, by decide +kernel⟩).mpr
    (Or.inl (by decide))).1

/-- A microsecond before the epoch is converted to a time 194 years after it. -/
theorem early_timestamp_jumps :
    let early : UInt64 := threeGhz.epochTsc - 3000
    (threeGhz.toUnix.Fits early ∧ threeGhz.toUnix.Fits threeGhz.epochTsc) ∧
      early < threeGhz.epochTsc ∧
      threeGhz.tscToUnixNs threeGhz.epochTsc = threeGhz.epochUnixNs ∧
      threeGhz.tscToUnixNs early = threeGhz.epochUnixNs + 6148914691236516205 ∧
      ¬ threeGhz.tscToUnixNs early ≤ threeGhz.tscToUnixNs threeGhz.epochTsc := by
  refine ⟨⟨⟨?_, ?_⟩, ?_, ?_⟩, ?_, ?_, ?_, ?_⟩ <;> decide +kernel

end HotpathIpc
