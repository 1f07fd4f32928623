import HotpathIpc.Library.Batching

/-!
# Latency windows

The recorder of `src/latency_window.rs`: a window drops its first samples as a warm-up, buffers the
others and hands them in batches to the reporter.

* The clock is only asked whether the flush interval has expired; the answer comes with the sample.
* The reporter's channel delivers every batch in order.  What the reporter prints of a batch is left
  out.
* A window has no `Drop`: what is in its buffer goes with it.

* `LatencyWindow.push`, `flush`; `handed` — what a window handed over by the time it is gone.
* `samples_handed` — these are the batches of a buffer that sees what is left after the warm-up.
* **`reported_iff`** — when that is every sample from the 201st on.
-/

namespace HotpathIpc

/-- Samples to consume before recording begins. -/
def WARMUP_SAMPLES : UInt64 := 200

/-- Emit a report once a window reaches this many samples. -/
def FLUSH_SAMPLES : ℕ := 2000

/-- One flushed window handed to the reporter thread. -/
structure Batch where
  label : String
  samples : List UInt64
deriving DecidableEq, Repr

/-- A single named latency window. -/
structure LatencyWindow where
  label : String
  buf : List UInt64
  seen : UInt64
deriving DecidableEq, Repr

/-- One sample, and whether the flush interval had expired when it was pushed. -/
structure Sample where
  ns : UInt64
  expired : Bool
deriving DecidableEq, Repr

def Sample.item (s : Sample) : UInt64 × Bool := (s.ns, s.expired)

namespace LatencyWindow

/-- A window as the reporter creates it. -/
def new (label : String) : LatencyWindow := ⟨label, [], 0⟩

def flush (w : LatencyWindow) : LatencyWindow × Option Batch :=
  if w.buf.isEmpty then (w, none)
  else ({ w with buf := [] }, some ⟨w.label, w.buf⟩)

/-- Record one sample. -/
def push (w : LatencyWindow) (s : Sample) : LatencyWindow × Option Batch :=
  let w := { w with seen := w.seen + 1 }
  if w.seen ≤ WARMUP_SAMPLES then (w, none)
  else
    let w := { w with buf := w.buf ++ [s.ns] }
    if FLUSH_SAMPLES ≤ w.buf.length ∨ s.expired = true then w.flush else (w, none)

/-- Drop the window. -/
def drop (_ : LatencyWindow) : Option Batch := none

end LatencyWindow

/-- What a window hands to the reporter, from its creation until it is dropped. -/
def handed (label : String) (ss : List Sample) : List Batch :=
  (Mealy.outs LatencyWindow.push (LatencyWindow.new label) ss).filterMap id
    ++ (Mealy.exec LatencyWindow.push (LatencyWindow.new label) ss).drop.toList

/-- The samples that are recorded, from a count of samples on. -/
def recorded : UInt64 → List Sample → List (UInt64 × Bool)
  | _, [] => []
  | seen, s :: ss =>
      (if seen + 1 ≤ WARMUP_SAMPLES then [] else [s.item]) ++ recorded (seen + 1) ss

/-! ## Windows as batching buffers -/

theorem push_warmup {w : LatencyWindow} (h : w.seen + 1 ≤ WARMUP_SAMPLES) (s : Sample) :
    w.push s = ({ w with seen := w.seen + 1 }, none) :=
  if_pos h

/-- After the warm-up a push is a step of the buffer. -/
theorem push_recorded {w : LatencyWindow} (h : ¬ w.seen + 1 ≤ WARMUP_SAMPLES) (s : Sample) :
    w.push s = (⟨w.label, (Batching.next FLUSH_SAMPLES w.buf s.item).1, w.seen + 1⟩,
      (Batching.next FLUSH_SAMPLES w.buf s.item).2.map (Batch.mk w.label)) := by
  have hne : (w.buf ++ [s.ns]).isEmpty = false := by simp
  rw [LatencyWindow.push]
  dsimp only
  rw [if_neg h, LatencyWindow.flush, hne]
  by_cases hcut : FLUSH_SAMPLES ≤ (w.buf ++ [s.ns]).length ∨ s.expired = true
  · have hnext : Batching.next FLUSH_SAMPLES w.buf s.item = ([], some (w.buf ++ [s.ns])) :=
      if_pos hcut
    rw [if_pos hcut, hnext]
    rfl
  · have hnext : Batching.next FLUSH_SAMPLES w.buf s.item = (w.buf ++ [s.ns], none) :=
      if_neg hcut
    rw [if_neg hcut, hnext]
    rfl

theorem samples_pushed : ∀ (ss : List Sample) (w : LatencyWindow),
    ((Mealy.outs LatencyWindow.push w ss).filterMap id).map Batch.samples
      = (Mealy.outs (Batching.next FLUSH_SAMPLES) w.buf (recorded w.seen ss)).filterMap id
  | [], _ => rfl
  | s :: ss, w => by
      rw [Mealy.outs_cons, recorded]
      by_cases h : w.seen + 1 ≤ WARMUP_SAMPLES
      · rw [push_warmup h, if_pos h]
        exact samples_pushed ss _
      · rw [push_recorded h, if_neg h, List.singleton_append, Mealy.outs_cons]
        have ih := samples_pushed ss
          ⟨w.label, (Batching.next FLUSH_SAMPLES w.buf s.item).1, w.seen + 1⟩
        cases (Batching.next FLUSH_SAMPLES w.buf s.item).2 with
        | none => exact ih
        | some b => exact congrArg (b :: ·) ih

/-- **What is handed over** are the batches of what is recorded. -/
theorem samples_handed (label : String) (ss : List Sample) :
    (handed label ss).map Batch.samples = Batching.batches FLUSH_SAMPLES (recorded 0 ss) := by
  rw [handed, LatencyWindow.drop, Option.toList, List.append_nil]
  exact samples_pushed ss (LatencyWindow.new label)

/-! ## What is recorded -/

/-- As long as the counter does not wrap, what is recorded is what is left after the warm-up. -/
theorem recorded_eq : ∀ (ss : List Sample) (seen : UInt64), seen.toNat + ss.length < 2 ^ 64 →
    recorded seen ss = (ss.drop (200 - seen.toNat)).map Sample.item
  | [], _, _ => by simp [recorded]
  | s :: ss, seen, h => by
      rw [List.length_cons] at h
      have hnext : (seen + 1).toNat = seen.toNat + 1 := by
        rw [UInt64.toNat_add, UInt64.toNat_one, Nat.mod_eq_of_lt (by omega)]
      have hwarm : seen + 1 ≤ WARMUP_SAMPLES ↔ seen.toNat + 1 ≤ 200 := by
        rw [UInt64.le_iff_toNat_le, hnext]
        rfl
      rw [recorded, recorded_eq ss (seen + 1) (by omega), hnext]
      by_cases hle : seen.toNat + 1 ≤ 200
      · rw [if_pos (hwarm.mpr hle), List.nil_append,
          show 200 - seen.toNat = 200 - (seen.toNat + 1) + 1 by omega, List.drop_succ_cons]
      · rw [if_neg (hwarm.not.mpr hle), show 200 - seen.toNat = 0 by omega,
          show 200 - (seen.toNat + 1) = 0 by omega]
        rfl

theorem recorded_append : ∀ (ss ss' : List Sample) (seen : UInt64), recorded seen (ss ++ ss')
    = recorded seen ss ++ recorded (seen + UInt64.ofNat ss.length) ss'
  | [], ss', seen => by simp [recorded]
  | s :: ss, ss', seen => by
      have hcount : seen + 1 + UInt64.ofNat ss.length = seen + UInt64.ofNat (ss.length + 1) := by
        rw [UInt64.ofNat_add, UInt64.add_assoc, UInt64.add_comm (UInt64.ofNat ss.length)]
        rfl
      rw [List.cons_append, recorded, recorded_append ss ss', recorded, List.append_assoc, hcount]
      rfl

theorem length_recorded_le : ∀ (ss : List Sample) (seen : UInt64),
    (recorded seen ss).length ≤ ss.length
  | [], _ => Nat.le_refl 0
  | s :: ss, seen => by
      have ih := length_recorded_le ss (seen + 1)
      rw [recorded, List.length_append, List.length_cons]
      split
      · rw [List.length_nil]
        omega
      · rw [List.length_singleton]
        omega

/-- When the counter wraps, the warm-up starts again. -/
theorem length_recorded_lt {ss : List Sample} (h : 2 ^ 64 ≤ ss.length) :
    (recorded 0 ss).length < ss.length - 200 := by
  have hsplit := List.take_append_drop (2 ^ 64 - 1) ss
  have htake : (ss.take (2 ^ 64 - 1)).length = 2 ^ 64 - 1 := by
    rw [List.length_take]
    omega
  have hdrop : (ss.drop (2 ^ 64 - 1)).length = ss.length - (2 ^ 64 - 1) := List.length_drop
  cases hlast : ss.drop (2 ^ 64 - 1) with
  | nil =>
      rw [hlast, List.length_nil] at hdrop
      omega
  | cons s rest =>
      rw [hlast, List.length_cons] at hdrop
      have hwrap : (0 : UInt64) + UInt64.ofNat (2 ^ 64 - 1) + 1 = 0 := by decide
      have hrecorded : recorded 0 ss
          = ((ss.take (2 ^ 64 - 1)).drop 200).map Sample.item ++ recorded 0 rest :=
        calc recorded 0 ss = recorded 0 (ss.take (2 ^ 64 - 1) ++ s :: rest) := by
              rw [← hlast, hsplit]
          _ = _ := by
              rw [recorded_append, htake, recorded_eq _ 0 (by rw [htake]; decide), recorded, hwrap,
                if_pos (by decide)]
              rfl
      have hle := length_recorded_le rest 0
      rw [hrecorded, List.length_append, List.length_map, List.length_drop, htake]
      omega

/-- **When every sample is reported.** -/
theorem reported_iff (label : String) (ss : List Sample) :
    ((handed label ss).flatMap Batch.samples = (ss.drop 200).map Sample.ns ∧
        ∀ b ∈ handed label ss, b.samples ≠ [] ∧ b.samples.length ≤ 2000)
      ↔ ss.length < 2 ^ 64 ∧ Batching.sinceCut ((ss.drop 200).map Sample.item) % 2000 = 0 := by
  have hflat : (handed label ss).flatMap Batch.samples
      = (Batching.batches FLUSH_SAMPLES (recorded 0 ss)).flatten := by
    rw [List.flatMap_def, samples_handed]
  have hsize : ∀ b ∈ handed label ss, b.samples ≠ [] ∧ b.samples.length ≤ 2000 := by
    intro b hb
    have hcap : 0 < FLUSH_SAMPLES := by decide
    refine Batching.size_of_mem_batches hcap (recorded 0 ss) _ ?_
    rw [← samples_handed label]
    exact List.mem_map_of_mem hb
  rw [and_iff_left hsize, hflat]
  rcases Nat.lt_or_ge ss.length (2 ^ 64) with hlt | hge
  · have hrecorded : recorded 0 ss = (ss.drop 200).map Sample.item :=
      recorded_eq ss 0 (by rw [UInt64.toNat_zero, Nat.zero_add]; exact hlt)
    have hns : (ss.drop 200).map Sample.ns = (recorded 0 ss).map Prod.fst := by
      rw [hrecorded, List.map_map]
      rfl
    rw [and_iff_right hlt, ← hrecorded, hns]
    exact Batching.complete_iff (by decide) (recorded 0 ss)
  · refine iff_of_false (fun heq => ?_) fun h => absurd h.1 (Nat.not_lt.mpr hge)
    have hlost := length_recorded_lt hge
    have hbatches := congrArg List.length (Batching.flatten_batches FLUSH_SAMPLES (recorded 0 ss))
    rw [heq, List.length_append, List.length_map, List.length_map, List.length_drop] at hbatches
    omega

/-- The first recorded sample is still in the buffer when the window is dropped. -/
theorem last_sample_lost :
    let ss := List.replicate 201 (Sample.mk 65 false)
    handed "tick-to-fill" ss = [] ∧ (ss.drop 200).map Sample.ns = [65] := by
  decide +kernel

end HotpathIpc
