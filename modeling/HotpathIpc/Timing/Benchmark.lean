import HotpathIpc.Library.Gaps
import HotpathIpc.Library.Overflow
import HotpathIpc.Exchange.Venue
import HotpathIpc.Timing.Tsc

/-!
# The transport benchmark

`src/bin/bench-publisher.rs` publishes numbered commands as fast as it can into a queue that drops
its oldest, and `src/bin/bench-subscriber.rs` receives what is left of them, after a warm-up that it
throws away, in windows that each come with a count of the messages lost.

* The publisher and the subscriber take turns in any order.  The queue has any capacity, and the
  messages published before the subscriber attached are not in it.
* The lengths of the warm-up and of a window are 10 000 and 100 000 in the source, and arbitrary
  here.
* The publisher's own timing, the reporter thread and what either process prints are left out.

* `Bench.step` — one publish or one poll; `streamOf` — what left the queue, and how.
* `Counts` — the subscriber against the numbers it has measured; `counts_receive` is its step.
* **`losses_counted`** — the losses that the windows count are the messages that the queue dropped.
-/

namespace HotpathIpc

open Overflow (kept spilled)

/-- A command with the time stamp it is published with. -/
structure Stamped where
  timestampNs : UInt64
  cmd : OrderCommand
deriving DecidableEq, Repr

/-- The command that the publisher numbers `seq`. -/
def benchCommand (seq : UInt64) : OrderCommand where
  orderId := seq
  priceTicks := 5000000 + (seq % 1000).toNat
  quantity := 100 + seq % 50
  originTs := 0
  side := (seq % 2).toUInt8
  orderType := 1
  action := 0

/-- One window of latencies plus its loss accounting, handed to the reporter. -/
structure Window where
  latencies : List UInt64
  received : UInt64
  lost : UInt64
deriving DecidableEq, Repr

structure BenchSubscriber where
  /-- samples received in the warm-up -/
  warmed : UInt64
  latencies : List UInt64
  expectedId : UInt64
  havePrev : Bool
  lostInWindow : UInt64
  receivedInWindow : UInt64
deriving DecidableEq, Repr

namespace BenchSubscriber

def new : BenchSubscriber := ⟨0, [], 0, false, 0, 0⟩

/-- The losses counted once the message with id `id` has been received. -/
def lossAt (s : BenchSubscriber) (id : UInt64) : UInt64 :=
  if s.havePrev && decide (id > s.expectedId) then s.lostInWindow + (id - s.expectedId)
  else s.lostInWindow

/-- Measure one message, received when the clock reads `now`. -/
def measure (interval : ℕ) (cyclesPerNs : ℚ) (s : BenchSubscriber) (now : UInt64) (msg : Stamped) :
    BenchSubscriber × Option Window :=
  let latencyNs := fastCyclesToNs cyclesPerNs (Saturating.sub now msg.timestampNs)
  let latencies := s.latencies ++ [latencyNs]
  let received := s.receivedInWindow + 1
  let lost := s.lossAt msg.cmd.orderId
  let expectedId := msg.cmd.orderId + 1
  if interval ≤ latencies.length then
    (⟨s.warmed, [], expectedId, true, 0, 0⟩, some ⟨latencies, received, lost⟩)
  else (⟨s.warmed, latencies, expectedId, true, lost, received⟩, none)

/-- Receive one message: in the warm-up it only counts. -/
def receive (warmup : UInt64) (interval : ℕ) (cyclesPerNs : ℚ) (s : BenchSubscriber)
    (now : UInt64) (msg : Stamped) : BenchSubscriber × Option Window :=
  if s.warmed < warmup then ({ s with warmed := s.warmed + 1 }, none)
  else s.measure interval cyclesPerNs now msg

end BenchSubscriber

/-- The publisher, the queue and the subscriber. -/
structure Bench where
  seq : UInt64
  queue : List Stamped
  subscriber : BenchSubscriber

inductive BenchAction where
  /-- the publisher publishes, its clock reading `rdtsc` -/
  | publish (rdtsc : UInt64)
  /-- the subscriber polls, its clock reading `now` -/
  | poll (now : UInt64)
deriving DecidableEq, Repr

/-- What a turn did. -/
structure BenchSeen where
  published : List Stamped
  /-- what left the queue, and whether it was received -/
  exits : List (Stamped × Bool)
  window : Option Window
deriving DecidableEq, Repr

namespace Bench

/-- The subscriber attaches after `seq` messages. -/
def attached (seq : UInt64) : Bench := ⟨seq, [], BenchSubscriber.new⟩

/-- One turn of the publisher or of the subscriber. -/
def step (warmup : UInt64) (interval : ℕ) (cyclesPerNs : ℚ) (cap : ℕ) (b : Bench) :
    BenchAction → Bench × BenchSeen
  | BenchAction.publish rdtsc =>
      let seq := b.seq + 1
      let msg := Stamped.mk rdtsc (benchCommand seq)
      let queue := b.queue ++ [msg]
      ({ b with seq := seq, queue := kept cap queue },
        ⟨[msg], (spilled cap queue).map (·, false), none⟩)
  | BenchAction.poll now =>
      match b.queue with
      | [] => (b, ⟨[], [], none⟩)
      | msg :: rest =>
          let r := b.subscriber.receive warmup interval cyclesPerNs now msg
          ({ b with queue := rest, subscriber := r.1 }, ⟨[], [(msg, true)], r.2⟩)

end Bench

/-- The number of a message. -/
def Stamped.number (m : Stamped) : ℕ := m.cmd.orderId.toNat

abbrev BenchMove := Mealy.Entry Bench BenchAction BenchSeen

section Totals

variable (tr : List BenchMove)

/-- All messages that were published. -/
abbrev benchPublished : List Stamped := tr.flatMap fun e => e.out.published

/-- All messages that left the queue, and whether they were received. -/
abbrev exitsOf : List (Stamped × Bool) := tr.flatMap fun e => e.out.exits

/-- Their numbers. -/
abbrev streamOf : List (ℕ × Bool) := (exitsOf tr).map fun x => (x.1.number, x.2)

/-- All windows that were handed to the reporter. -/
abbrev windowsOf : List Window := tr.filterMap fun e => e.out.window

end Totals

/-- The numbers the subscriber measures: what it receives after the warm-up. -/
def measured (warmup : UInt64) (tr : List BenchMove) : List ℕ :=
  (Gaps.arrived (streamOf tr)).drop warmup.toNat

/-! ## The subscriber -/

/-- The subscriber and its windows, once it has measured messages with these numbers. -/
structure Counts (interval : ℕ) (ids : List ℕ) (windows : List Window) (s : BenchSubscriber) :
    Prop where
  latencies : (windows.map fun w => w.latencies.length).sum + s.latencies.length = ids.length
  pending : s.receivedInWindow.toNat = s.latencies.length ∧ s.latencies.length < interval
  full : ∀ w ∈ windows, w.received.toNat = interval ∧ w.latencies.length = interval
  lost : (windows.map fun w => w.lost.toNat).sum + s.lostInWindow.toNat = Gaps.gaps ids
  havePrev : s.havePrev = !ids.isEmpty
  expected : ∀ a, ids.getLast? = some a → s.expectedId.toNat = a + 1

theorem counts_new {interval : ℕ} (h : 0 < interval) (warmed : UInt64) :
    Counts interval [] [] { BenchSubscriber.new with warmed := warmed } where
  latencies := rfl
  pending := ⟨rfl, h⟩
  full := nofun
  lost := rfl
  havePrev := rfl
  expected := nofun

/-- The losses counted with one more message. -/
theorem toNat_lossAt {interval : ℕ} {ids : List ℕ} {windows : List Window} {s : BenchSubscriber}
    (h : Counts interval ids windows s) {id : UInt64}
    (hsorted : (ids ++ [id.toNat]).Pairwise (· < ·)) :
    (windows.map fun w => w.lost.toNat).sum + (s.lossAt id).toNat
      = Gaps.gaps (ids ++ [id.toNat]) := by
  have hlost := h.lost
  rw [BenchSubscriber.lossAt, h.havePrev]
  cases hids : ids.getLast? with
  | none =>
      -- the first message measured: nothing to compare with
      obtain rfl := List.getLast?_eq_none_iff.mp hids
      simp only [List.isEmpty_nil, Bool.not_true, Bool.false_and, Bool.false_eq_true, if_false]
      rw [hlost]
      rfl
  | some a =>
      have hlt : a < id.toNat := (List.pairwise_append.mp hsorted).2.2 a
        (List.mem_of_getLast? hids) _ List.mem_cons_self
      have hne : ids ≠ [] := by
        rintro rfl
        cases hids
      have hexp := h.expected a hids
      have hgaps := Gaps.gaps_concat (b := id.toNat) hids
      -- the gaps are too few to make the counter wrap
      obtain ⟨b, l, hcons⟩ : ∃ b l, ids ++ [id.toNat] = b :: l :=
        List.exists_cons_of_ne_nil (List.append_ne_nil_of_right_ne_nil _ (List.cons_ne_nil _ _))
      have hlast : (b :: l).getLast? = some id.toNat := by rw [← hcons, List.getLast?_concat]
      have hspan := (Gaps.gaps_add_length (hcons ▸ hsorted) hlast).1
      have hid := id.toNat_lt
      rw [← hcons, List.length_append, List.length_singleton] at hspan
      have hempty : ids.isEmpty = false := by simpa using hne
      rw [hempty, Bool.not_false, Bool.true_and]
      by_cases hgap : id > s.expectedId
      · have hle := UInt64.lt_iff_toNat_lt.mp hgap
        rw [if_pos (by simpa using hgap), UInt64.toNat_add,
          UInt64.toNat_sub_of_le _ _ (UInt64.le_of_lt hgap), Nat.mod_eq_of_lt (by omega)]
        omega
      · have hle := mt UInt64.lt_iff_toNat_lt.mpr hgap
        rw [if_neg (by simpa using hgap)]
        omega

/-- **Measuring one more message** keeps the counts. -/
theorem counts_receive {interval : ℕ} (cyclesPerNs : ℚ) {ids : List ℕ} {windows : List Window}
    {s : BenchSubscriber} (h : Counts interval ids windows s) (now : UInt64) {msg : Stamped}
    (hsorted : (ids ++ [msg.number]).Pairwise (· < ·)) (hfits : msg.number + 1 < 2 ^ 64)
    (hmany : ids.length + 1 < 2 ^ 64) :
    let r := s.measure interval cyclesPerNs now msg
    Counts interval (ids ++ [msg.number]) (windows ++ r.2.toList) r.1 := by
  have hlost := toNat_lossAt h hsorted
  have hlat := h.latencies
  obtain ⟨hreceived, hshort⟩ := h.pending
  have hone : (s.receivedInWindow + 1).toNat = s.latencies.length + 1 := by
    rw [UInt64.toNat_add, UInt64.toNat_one, hreceived, Nat.mod_eq_of_lt (by omega)]
  have hexp : ∀ a, (ids ++ [msg.number]).getLast? = some a →
      (msg.cmd.orderId + 1).toNat = a + 1 := by
    intro a ha
    rw [List.getLast?_concat] at ha
    obtain rfl := Option.some.inj ha
    rw [UInt64.toNat_add, UInt64.toNat_one]
    exact Nat.mod_eq_of_lt hfits
  have hprev : true = !(ids ++ [msg.number]).isEmpty := by simp
  rw [BenchSubscriber.measure]
  dsimp only
  rw [List.length_append, List.length_singleton]
  by_cases hfull : interval ≤ s.latencies.length + 1
  · -- the window is full and a fresh one begins
    rw [if_pos hfull]
    refine ⟨?_, ⟨rfl, ?_⟩, fun w hw => ?_, ?_, hprev, hexp⟩
    · simp only [Option.toList_some, List.map_append, List.map_cons, List.map_nil, List.sum_append,
        List.sum_cons, List.sum_nil, List.length_append, List.length_cons, List.length_nil]
      omega
    · exact Nat.zero_lt_of_lt hshort
    · rcases List.mem_append.mp hw with hw | hw
      · exact h.full w hw
      · obtain rfl := List.mem_singleton.mp hw
        refine ⟨hone.trans (by omega), ?_⟩
        rw [List.length_append, List.length_singleton]
        omega
    · simp only [Option.toList_some, List.map_append, List.map_cons, List.map_nil, List.sum_append,
        List.sum_cons, List.sum_nil, UInt64.toNat_zero, Nat.add_zero]
      exact hlost
  · rw [if_neg hfull]
    refine ⟨?_, ⟨?_, ?_⟩, fun w hw => ?_, ?_, hprev, hexp⟩
    · simp only [Option.toList_none, List.append_nil, List.length_append, List.length_cons,
        List.length_nil]
      omega
    · rw [hone, List.length_append, List.length_singleton]
    · rw [List.length_append, List.length_singleton]
      omega
    · rw [Option.toList_none, List.append_nil] at hw
      exact h.full w hw
    · rw [Option.toList_none, List.append_nil]
      exact hlost

/-! ## Runs -/

def BenchAction.isPublish : BenchAction → Bool
  | BenchAction.publish _ => true
  | BenchAction.poll _ => false

/-- A run so far, from `k` messages published before the subscriber attached. -/
structure Benched (warmup : UInt64) (interval k : ℕ) (tr : List BenchMove) (b : Bench) :
    Prop where
  seq : b.seq.toNat = k + (benchPublished tr).length
  numbers : (benchPublished tr).map Stamped.number
    = List.range' (k + 1) (benchPublished tr).length
  queue : (exitsOf tr).map Prod.fst ++ b.queue = benchPublished tr
  warmed : b.subscriber.warmed.toNat = min (Gaps.arrived (streamOf tr)).length warmup.toNat
  counts : Counts interval (measured warmup tr) (windowsOf tr) b.subscriber

section Runs

variable {warmup : UInt64} {interval k : ℕ} {cyclesPerNs : ℚ} {cap : ℕ} {tr : List BenchMove}
  {b : Bench}

/-- What left the queue and what is in it have the numbers that follow `k`. -/
theorem stream_numbers (h : Benched warmup interval k tr b) :
    (streamOf tr).map Prod.fst ++ b.queue.map Stamped.number
      = List.range' (k + 1) (benchPublished tr).length := by
  rw [← h.numbers, ← h.queue, List.map_append, List.map_map, List.map_map]
  rfl

/-- A stretch at the front of consecutive numbers is one itself. -/
theorem prefix_range' {xs ys : List ℕ} {n : ℕ} (h : xs ++ ys = List.range' (k + 1) n) :
    xs = List.range' (k + 1) xs.length := by
  have htake : xs = (List.range' (k + 1) n).take xs.length := by rw [← h, List.take_left]
  have hle : xs.length ≤ n := by
    have hlen := congrArg List.length h
    rw [List.length_append, List.length_range'] at hlen
    omega
  rwa [List.take_range'_of_length_ge hle] at htake

theorem published_concat (tr : List BenchMove) (e : BenchMove) :
    benchPublished (tr ++ [e]) = benchPublished tr ++ e.out.published := by
  rw [benchPublished, List.flatMap_append, List.flatMap_singleton]

theorem exits_concat (tr : List BenchMove) (e : BenchMove) :
    exitsOf (tr ++ [e]) = exitsOf tr ++ e.out.exits := by
  rw [exitsOf, List.flatMap_append, List.flatMap_singleton]

theorem arrived_concat (tr : List BenchMove) (e : BenchMove) :
    Gaps.arrived (streamOf (tr ++ [e])) = Gaps.arrived (streamOf tr)
      ++ Gaps.arrived (e.out.exits.map fun x => (x.1.number, x.2)) := by
  rw [streamOf, exits_concat, List.map_append, Gaps.arrived_append]

theorem windows_concat (tr : List BenchMove) (e : BenchMove) :
    windowsOf (tr ++ [e]) = windowsOf tr ++ e.out.window.toList := by
  rw [windowsOf, List.filterMap_append]
  cases hw : e.out.window <;> simp [hw]

/-- What falls out of the queue does not arrive. -/
theorem arrived_spilled (lost : List Stamped) :
    Gaps.arrived ((lost.map (·, false)).map fun x => (x.1.number, x.2)) = [] := by
  rw [Gaps.arrived, List.map_map, List.filter_eq_nil_iff.mpr (by simp)]
  rfl

theorem benched_publish (h : Benched warmup interval k tr b)
    (hfits : k + (benchPublished tr).length + 1 < 2 ^ 64) (rdtsc : UInt64) :
    let r := b.step warmup interval cyclesPerNs cap (BenchAction.publish rdtsc)
    Benched warmup interval k (tr ++ [⟨b, BenchAction.publish rdtsc, r.2, r.1⟩]) r.1 := by
  have hseq : (b.seq + 1).toNat = k + (benchPublished tr).length + 1 := by
    rw [UInt64.toNat_add, UInt64.toNat_one, h.seq, Nat.mod_eq_of_lt hfits]
  refine ⟨?_, ?_, ?_, ?_, ?_⟩
  · rw [published_concat, List.length_append, ← Nat.add_assoc]
    exact hseq
  · rw [published_concat, List.map_append, h.numbers, List.length_append]
    refine Eq.trans ?_ List.range'_1_concat.symm
    exact congrArg (_ ++ [·]) (hseq.trans (Nat.add_right_comm _ _ _))
  · rw [published_concat, exits_concat, List.map_append, List.append_assoc, ← h.queue,
      List.append_assoc]
    refine congrArg (_ ++ ·) ?_
    simp only [Bench.step, List.map_map]
    rw [show (Prod.fst ∘ fun x : Stamped => (x, false)) = id from rfl, List.map_id]
    exact Overflow.spilled_append_kept _ _
  · rw [arrived_concat]
    simp only [Bench.step]
    rw [arrived_spilled, List.append_nil]
    exact h.warmed
  · rw [measured, arrived_concat, windows_concat]
    simp only [Bench.step]
    rw [arrived_spilled, List.append_nil, Option.toList_none, List.append_nil]
    exact h.counts

theorem benched_poll (h : Benched warmup interval k tr b)
    (hfits : k + (benchPublished tr).length + 1 < 2 ^ 64) (now : UInt64) :
    let r := b.step warmup interval cyclesPerNs cap (BenchAction.poll now)
    Benched warmup interval k (tr ++ [⟨b, BenchAction.poll now, r.2, r.1⟩]) r.1 := by
  dsimp only
  rw [Bench.step]
  cases hq : b.queue with
  | nil =>
      refine ⟨?_, ?_, ?_, ?_, ?_⟩
      · rw [published_concat, List.append_nil]
        exact h.seq
      · rw [published_concat, List.append_nil]
        exact h.numbers
      · rw [published_concat, exits_concat, List.append_nil, List.append_nil]
        exact h.queue
      · rw [arrived_concat]
        exact (List.append_nil (Gaps.arrived (streamOf tr))).symm ▸ h.warmed
      · rw [measured, arrived_concat, windows_concat]
        simp only [List.map_nil, Option.toList_none, List.append_nil]
        rw [show Gaps.arrived [] = [] from rfl, List.append_nil]
        exact h.counts
  | cons msg rest =>
      have hnumbers := stream_numbers h
      rw [hq, List.map_cons] at hnumbers
      -- with this message received, the stream still has consecutive numbers
      have hstream : (streamOf tr ++ [(msg.number, true)]).map Prod.fst
          = List.range' (k + 1) (streamOf tr ++ [(msg.number, true)]).length := by
        rw [List.append_cons, ← List.map_singleton (f := Prod.fst) (a := (msg.number, true)),
          ← List.map_append] at hnumbers
        rw [prefix_range' hnumbers, List.length_map]
      have harrived : Gaps.arrived (streamOf tr ++ [(msg.number, true)])
          = Gaps.arrived (streamOf tr) ++ [msg.number] := Gaps.arrived_append ..
      have hsorted := harrived ▸ Gaps.arrived_pairwise hstream
      have hlast : msg.number ≤ k + (benchPublished tr).length := by
        have hmem : msg.number ∈ List.range' (k + 1) (benchPublished tr).length :=
          hnumbers ▸ List.mem_append_right _ List.mem_cons_self
        have := List.mem_range'_1.mp hmem
        omega
      have hfew : (Gaps.arrived (streamOf tr)).length ≤ (benchPublished tr).length := by
        have hlen := congrArg List.length hnumbers
        rw [List.length_append, List.length_map, List.length_range'] at hlen
        have hle : (Gaps.arrived (streamOf tr)).length ≤ (streamOf tr).length := by
          rw [Gaps.arrived, List.length_map]
          exact List.length_filter_le _ _
        omega
      have hwarmed := h.warmed
      have hseq : b.seq.toNat = k + (benchPublished tr ++ []).length := by
        rw [List.append_nil]
        exact h.seq
      have hids : (benchPublished tr ++ []).map Stamped.number
          = List.range' (k + 1) (benchPublished tr ++ []).length := by
        rw [List.append_nil]
        exact h.numbers
      have hqueue : (exitsOf tr ++ [(msg, true)]).map Prod.fst ++ rest
          = benchPublished tr ++ [] := by
        rw [List.append_nil, ← h.queue, hq, List.map_append, List.append_assoc]
        rfl
      have hone : Gaps.arrived ([(msg, true)].map fun x => (x.1.number, x.2)) = [msg.number] := rfl
      dsimp only
      rw [BenchSubscriber.receive]
      by_cases hwarm : b.subscriber.warmed < warmup
      · -- still warming up: nothing is measured
        have hlt := UInt64.lt_iff_toNat_lt.mp hwarm
        have hbound := warmup.toNat_lt
        have hnone : measured warmup tr = [] := List.drop_eq_nil_of_le (by omega)
        rw [if_pos hwarm]
        refine ⟨?_, ?_, ?_, ?_, ?_⟩
        · rwa [published_concat]
        · rwa [published_concat]
        · rwa [published_concat, exits_concat]
        · rw [arrived_concat, hone, List.length_append, List.length_singleton, UInt64.toNat_add,
            UInt64.toNat_one, Nat.mod_eq_of_lt (by omega)]
          omega
        · have hstill : measured warmup (tr ++ [⟨b, BenchAction.poll now, ⟨[], [(msg, true)], none⟩,
              { b with queue := rest, subscriber :=
                { b.subscriber with warmed := b.subscriber.warmed + 1 } }⟩]) = [] := by
            rw [measured, arrived_concat, hone]
            refine List.drop_eq_nil_of_le ?_
            rw [List.length_append, List.length_singleton]
            omega
          have hcounts := h.counts
          rw [hnone] at hcounts
          rw [hstill, windows_concat, Option.toList_none, List.append_nil]
          exact ⟨hcounts.latencies, hcounts.pending, hcounts.full, hcounts.lost, hcounts.havePrev,
            hcounts.expected⟩
      · have hge := mt UInt64.lt_iff_toNat_lt.mpr hwarm
        have hdrop : (Gaps.arrived (streamOf tr) ++ [msg.number]).drop warmup.toNat
            = measured warmup tr ++ [msg.number] :=
          List.drop_append_of_le_length (by omega)
        have hkeep : (b.subscriber.measure interval cyclesPerNs now msg).1.warmed
            = b.subscriber.warmed := by
          rw [BenchSubscriber.measure]
          split <;> rfl
        rw [if_neg hwarm]
        refine ⟨?_, ?_, ?_, ?_, ?_⟩
        · rwa [published_concat]
        · rwa [published_concat]
        · rwa [published_concat, exits_concat]
        · rw [arrived_concat, hone, List.length_append, List.length_singleton]
          refine (congrArg UInt64.toNat hkeep).trans ?_
          omega
        · rw [measured, arrived_concat, hone, windows_concat, hdrop]
          refine counts_receive cyclesPerNs h.counts now ?_ (by omega) ?_
          · rw [← hdrop]
            exact List.Pairwise.sublist (List.drop_sublist _ _) hsorted
          · rw [measured, List.length_drop]
            omega

theorem published_length (warmup : UInt64) (interval : ℕ) (cyclesPerNs : ℚ) (cap : ℕ)
    (acts : List BenchAction) (b : Bench) :
    (benchPublished (Mealy.trace (Bench.step warmup interval cyclesPerNs cap) b acts)).length
      = acts.countP BenchAction.isPublish := by
  induction acts generalizing b with
  | nil => rfl
  | cons a acts ih =>
      have htail := ih (b.step warmup interval cyclesPerNs cap a).1
      rw [Mealy.trace_cons, benchPublished, List.flatMap_cons, List.length_append, List.countP_cons]
      cases a with
      | publish rdtsc =>
          rw [htail]
          simp [Bench.step, BenchAction.isPublish, Nat.add_comm]
      | poll now =>
          rw [htail, Bench.step]
          cases b.queue <;> simp [BenchAction.isPublish]

theorem benched_run (warmup : UInt64) (interval : ℕ) (cyclesPerNs : ℚ) (cap : ℕ)
    (hint : 0 < interval) (seq : UInt64) (acts : List BenchAction)
    (hfits : seq.toNat + acts.countP BenchAction.isPublish + 1 < 2 ^ 64) :
    Benched warmup interval seq.toNat
      (Mealy.trace (Bench.step warmup interval cyclesPerNs cap) (Bench.attached seq) acts)
      (Mealy.exec (Bench.step warmup interval cyclesPerNs cap) (Bench.attached seq) acts) := by
  induction acts using List.reverseRecOn with
  | nil =>
      refine ⟨rfl, rfl, rfl, (Nat.zero_min _).symm, ?_⟩
      rw [measured, show Gaps.arrived (streamOf (Mealy.trace (Bench.step warmup interval cyclesPerNs
        cap) (Bench.attached seq) [])) = [] from rfl, List.drop_nil]
      exact counts_new hint 0
  | append_singleton acts a ih =>
      rw [List.countP_append] at hfits
      have h := ih (by omega)
      have hlen := published_length warmup interval cyclesPerNs cap acts (Bench.attached seq)
      rw [Mealy.trace_append, Mealy.exec_append]
      cases a with
      | publish rdtsc =>
          refine benched_publish h ?_ rdtsc
          rw [hlen]
          simp [BenchAction.isPublish] at hfits
          omega
      | poll now =>
          refine benched_poll h ?_ now
          rw [hlen]
          omega

end Runs

/-- **The losses that the windows count are the messages that the queue dropped.**  In every
interleaving of publishes and polls over a queue of any capacity, as long as the publisher's counter
does not reach its end: every message published leaves the queue once, in order, or is still in it;
every window holds as many messages as it should; and what the windows and the one not yet handed
over count as received and as lost are the messages measured and those dropped between the first and
the last of them. -/
theorem losses_counted (warmup : UInt64) (interval : ℕ) (cyclesPerNs : ℚ) (cap : ℕ) (seq : UInt64)
    (acts : List BenchAction) (hint : 0 < interval)
    (hfits : seq.toNat + acts.countP BenchAction.isPublish + 1 < 2 ^ 64) :
    let tr := Mealy.trace (Bench.step warmup interval cyclesPerNs cap) (Bench.attached seq) acts
    let b := Mealy.exec (Bench.step warmup interval cyclesPerNs cap) (Bench.attached seq) acts
    let ids := measured warmup tr
    (streamOf tr).map Prod.fst ++ b.queue.map Stamped.number
        = List.range' (seq.toNat + 1) (acts.countP BenchAction.isPublish) ∧
      (∀ w ∈ windowsOf tr, w.received.toNat = interval ∧ w.latencies.length = interval) ∧
      ((windowsOf tr).map fun w => w.received.toNat).sum + b.subscriber.receivedInWindow.toNat
        = ids.length ∧
      ((windowsOf tr).map fun w => w.lost.toNat).sum + b.subscriber.lostInWindow.toNat
        = (streamOf tr).countP fun x => !x.2 && decide (Gaps.Within ids x.1) := by
  intro tr b ids
  have h := benched_run warmup interval cyclesPerNs cap hint seq acts hfits
  have hnumbers := stream_numbers h
  refine ⟨?_, h.counts.full, ?_, ?_⟩
  · rw [← published_length warmup interval cyclesPerNs cap acts (Bench.attached seq)]
    exact hnumbers
  · rw [← h.counts.latencies, h.counts.pending.1]
    refine congrArg (List.sum · + _) (List.map_congr_left fun w hw => ?_)
    rw [(h.counts.full w hw).1, (h.counts.full w hw).2]
  · rw [h.counts.lost]
    have hstream : (streamOf tr).map Prod.fst
        = List.range' (seq.toNat + 1) (streamOf tr).length := by
      have hprefix := prefix_range' hnumbers
      rwa [List.length_map] at hprefix
    exact Gaps.gaps_eq_lost hstream warmup.toNat

/-- Windows of two messages after a warm-up of one, over a queue that holds two: 2, 4 and 5 are
measured, and the first window, which holds 2 and 4, reports that 3 was lost between them. -/
theorem losses_counted_run :
    let acts := [BenchAction.publish 10, BenchAction.poll 20, BenchAction.publish 30,
      BenchAction.poll 40, BenchAction.publish 50, BenchAction.publish 60, BenchAction.publish 70,
      BenchAction.poll 80, BenchAction.poll 90]
    let tr := Mealy.trace (Bench.step 1 2 1 2) (Bench.attached 0) acts
    (∀ w ∈ windowsOf tr, w.received.toNat = 2 ∧ w.latencies.length = 2) ∧
      windowsOf tr = [⟨[10, 20], 2, 1⟩] ∧ measured 1 tr = [2, 4, 5] :=
  ⟨(losses_counted 1 2 1 2 0 _ (by decide) (by decide)).2.1, by decide +kernel, by decide +kernel⟩

end HotpathIpc
