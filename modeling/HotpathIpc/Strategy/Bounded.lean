import HotpathIpc.Strategy.Risk

/-!
# Bounded runs

The strategy's loop can be told to stop after a number of orders (`MAX_ORDERS`) and after a number
of seconds (`MAX_SECONDS`).  The orders are counted as they are sent.  The clock is only read at a
heartbeat, every 50,000 ticks, so that it costs the other ticks nothing; the tick counter wraps.

* `untilHeartbeat` — how many ticks there are to the next heartbeat, wherever the counter is.
* `untilHeartbeat_step` — every late tick that does not stop the loop is one fewer.
* **`strategy_run_ends`** — both bounds hold, and reaching either one stops the loop.

Nothing is established about a feed that falls silent: without ticks, the loop waits.
-/

namespace HotpathIpc

variable {cfg : RiskConfig}

/-! ## The number of orders -/

theorem step_stopped (cfg : RiskConfig) {s : StrategyLoop} (h : s.running = false) (a : Arrival) :
    s.step cfg a = (s, none) := by
  rw [StrategyLoop.step, h]
  rfl

/-- What a tick does to a loop that runs: count it, perhaps a suppression, or send an order. -/
theorem step_running (cfg : RiskConfig) {s : StrategyLoop} (h : s.running = true) (a : Arrival) :
    s.step cfg a = (s.tickSeen cfg a, none) ∨
    s.step cfg a = ({ s.tickSeen cfg a with suppressed := s.suppressed + 1 }, none) ∨
    ∃ side, s.step cfg a = ({ s.tickSeen cfg a with
        position := cfg.newPosition s.position side
        orderId := s.orderId + 1
        ordersSent := s.ordersSent + 1
        running := (s.tickSeen cfg a).running &&
          !decide (cfg.maxOrders ≠ 0 ∧ cfg.maxOrders ≤ s.ordersSent + 1) },
      some (cfg.command a.tick side (s.orderId + 1))) := by
  rw [StrategyLoop.step, h, Bool.not_true, if_neg Bool.false_ne_true]
  cases a.trade with
  | none => exact Or.inl rfl
  | some side =>
      have hposition : (s.tickSeen cfg a).position = s.position := rfl
      dsimp only
      rw [hposition]
      cases cfg.breaches s.position side with
      | true => exact Or.inr (Or.inl rfl)
      | false => exact Or.inr (Or.inr ⟨side, rfl⟩)

/-- The bound on the orders, against what was sent. -/
structure WithinOrders (cfg : RiskConfig) (cmds : List OrderCommand) (s : StrategyLoop) :
    Prop where
  counted : s.ordersSent.toNat = cmds.length
  within : cmds.length ≤ cfg.maxOrders.toNat
  stops : s.running = true → cmds.length < cfg.maxOrders.toNat

/-- An order is only sent while there is room for one, and the last one stops the loop. -/
theorem withinOrders_step (hmax : cfg.maxOrders ≠ 0) {cmds : List OrderCommand} {s : StrategyLoop}
    (h : WithinOrders cfg cmds s) (a : Arrival) :
    WithinOrders cfg (cmds ++ (s.step cfg a).2.toList) (s.step cfg a).1 := by
  cases hrun : s.running with
  | false =>
      rw [step_stopped cfg hrun, Option.toList, List.append_nil]
      exact h
  | true =>
      have hroom := h.stops hrun
      rcases step_running cfg hrun a with hstep | hstep | ⟨side, hstep⟩
      · rw [hstep, Option.toList, List.append_nil]
        exact ⟨h.counted, h.within, fun _ => hroom⟩
      · rw [hstep, Option.toList, List.append_nil]
        exact ⟨h.counted, h.within, fun _ => hroom⟩
      · have hcount : (s.ordersSent + 1).toNat = cmds.length + 1 := by
          have hadd : (s.ordersSent + 1).toNat = (s.ordersSent.toNat + 1) % 2 ^ 64 :=
            UInt64.toNat_add s.ordersSent 1
          have hlt := cfg.maxOrders.toNat_lt
          rw [hadd, h.counted, Nat.mod_eq_of_lt (by omega)]
        rw [hstep, Option.toList]
        refine ⟨?_, ?_, fun hrunning => ?_⟩
        · rw [List.length_append]
          exact hcount
        · rw [List.length_append]
          exact hroom
        · have hnot := (Bool.and_eq_true_iff.mp hrunning).2
          rw [Bool.not_eq_true', decide_eq_false_iff_not] at hnot
          have hmore : ¬ cfg.maxOrders ≤ s.ordersSent + 1 := fun hle => hnot ⟨hmax, hle⟩
          rw [UInt64.le_iff_toNat_le, hcount] at hmore
          rw [List.length_append]
          exact Nat.lt_of_not_le hmore

theorem withinOrders_run (hmax : cfg.maxOrders ≠ 0) (as : List Arrival) :
    WithinOrders cfg (sentOrders cfg as)
      (Mealy.exec (StrategyLoop.step cfg) StrategyLoop.start as) := by
  have hpos : 0 < cfg.maxOrders.toNat :=
    Nat.pos_of_ne_zero fun hzero => hmax (UInt64.toNat_inj.mp hzero)
  exact Mealy.messages (J := WithinOrders cfg) (fun _ _ a h => withinOrders_step hmax h a)
    ⟨rfl, Nat.zero_le _, fun _ => hpos⟩ as

/-! ## The time -/

/-- The number of ticks to the next heartbeat, from a tick counter. -/
def untilHeartbeat (ticksSeen : UInt64) : ℕ :=
  min (50000 - ticksSeen.toNat % 50000) (2 ^ 64 - ticksSeen.toNat)

theorem untilHeartbeat_pos (n : UInt64) : 0 < untilHeartbeat n := by
  have hmod := Nat.mod_lt n.toNat (show 0 < 50000 by decide)
  have hlt := n.toNat_lt
  exact lt_min (Nat.sub_pos_of_lt hmod) (Nat.sub_pos_of_lt hlt)

theorem untilHeartbeat_le (n : UInt64) : untilHeartbeat n ≤ 50000 :=
  (min_le_left _ _).trans (Nat.sub_le _ _)

/-- A tick that is no heartbeat.  The counter wraps to a multiple of 50,000. -/
theorem untilHeartbeat_succ {n : UInt64} (h : (n + 1) % 50000 ≠ 0) :
    untilHeartbeat (n + 1) + 1 = untilHeartbeat n := by
  have hmod : (n + 1).toNat % 50000 ≠ 0 := fun hzero =>
    h (UInt64.toNat_inj.mp (by rw [UInt64.toNat_mod]; exact hzero))
  have hlt := n.toNat_lt
  have hadd : (n + 1).toNat = (n.toNat + 1) % 2 ^ 64 := UInt64.toNat_add n 1
  have hfits : n.toNat + 1 < 2 ^ 64 := by
    by_contra hwraps
    have hend : n.toNat + 1 = 2 ^ 64 := by omega
    rw [hadd, hend] at hmod
    exact hmod rfl
  rw [Nat.mod_eq_of_lt hfits] at hadd
  rw [untilHeartbeat, untilHeartbeat, hadd]
  rw [hadd] at hmod
  omega

/-- What a tick that does not stop the loop leaves. -/
theorem goes_on {s : StrategyLoop} {a : Arrival} (h : (s.step cfg a).1.running = true) :
    s.running = true ∧ (s.step cfg a).1.ticksSeen = s.ticksSeen + 1 ∧
      (cfg.maxSeconds ≠ 0 → cfg.maxSeconds ≤ a.elapsedSecs → (s.ticksSeen + 1) % 50000 ≠ 0) := by
  have hno : (s.tickSeen cfg a).running = true →
      cfg.maxSeconds ≠ 0 → cfg.maxSeconds ≤ a.elapsedSecs → (s.ticksSeen + 1) % 50000 ≠ 0 := by
    intro hrunning hmax hlate hbeat
    rw [StrategyLoop.tickSeen, decide_eq_true ⟨hbeat, hmax, hlate⟩, Bool.not_true,
      Bool.and_false] at hrunning
    exact Bool.false_ne_true hrunning
  cases hrun : s.running with
  | false =>
      rw [step_stopped cfg hrun, hrun] at h
      exact absurd h Bool.false_ne_true
  | true =>
      rcases step_running cfg hrun a with hstep | hstep | ⟨side, hstep⟩
      · rw [hstep] at h ⊢
        exact ⟨rfl, rfl, hno h⟩
      · rw [hstep] at h ⊢
        exact ⟨rfl, rfl, hno h⟩
      · rw [hstep] at h ⊢
        exact ⟨rfl, rfl, hno (Bool.and_eq_true_iff.mp h).1⟩

theorem stopped_run {s : StrategyLoop} (h : s.running = false) :
    ∀ as : List Arrival, (Mealy.exec (StrategyLoop.step cfg) s as).running = false
  | [] => h
  | a :: as => by
      rw [Mealy.exec_cons, step_stopped cfg h]
      exact stopped_run h as

/-- **Late ticks bring the heartbeat closer**, one by one, as long as the loop goes on. -/
theorem untilHeartbeat_run (hmax : cfg.maxSeconds ≠ 0) : ∀ (s : StrategyLoop) (as : List Arrival),
    (∀ a ∈ as, cfg.maxSeconds ≤ a.elapsedSecs) →
    (Mealy.exec (StrategyLoop.step cfg) s as).running = true →
      untilHeartbeat (Mealy.exec (StrategyLoop.step cfg) s as).ticksSeen + as.length
        = untilHeartbeat s.ticksSeen
  | _, [], _, _ => rfl
  | s, a :: as, hlate, hrunning => by
      have ih := untilHeartbeat_run hmax (s.step cfg a).1 as
        (fun b hb => hlate b (List.mem_cons_of_mem _ hb)) hrunning
      have hstep : (s.step cfg a).1.running = true := by
        cases hrun : (s.step cfg a).1.running with
        | true => rfl
        | false => exact absurd (hrunning.symm.trans (stopped_run hrun as)) (by decide)
      obtain ⟨-, hseen, hbeat⟩ := goes_on hstep
      rw [Mealy.exec_cons, List.length_cons, ← Nat.add_assoc, ih, hseen]
      exact untilHeartbeat_succ (hbeat hmax (hlate a List.mem_cons_self))

/-- If the clock does not go back, 50,000 late ticks stop the loop. -/
theorem late_stops (hmax : cfg.maxSeconds ≠ 0) : ∀ (s : StrategyLoop) (as : List Arrival),
    as.Pairwise (fun a b => a.elapsedSecs ≤ b.elapsedSecs) →
    50000 ≤ as.countP (fun a => decide (cfg.maxSeconds ≤ a.elapsedSecs)) →
      (Mealy.exec (StrategyLoop.step cfg) s as).running = false
  | _, [], _, hcount => absurd hcount (by rw [List.countP_nil]; decide)
  | s, a :: as, hclock, hcount => by
      by_cases hlate : cfg.maxSeconds ≤ a.elapsedSecs
      · have hall : ∀ b ∈ a :: as, cfg.maxSeconds ≤ b.elapsedSecs := by
          intro b hb
          rcases List.mem_cons.mp hb with rfl | hb
          · exact hlate
          · exact UInt64.le_trans hlate (List.rel_of_pairwise_cons hclock hb)
        cases hrun : (Mealy.exec (StrategyLoop.step cfg) s (a :: as)).running with
        | false => rfl
        | true =>
            have hbeat := untilHeartbeat_run hmax s (a :: as) hall hrun
            have hpos := untilHeartbeat_pos
              (Mealy.exec (StrategyLoop.step cfg) s (a :: as)).ticksSeen
            have hle := untilHeartbeat_le s.ticksSeen
            have hlength := List.countP_le_length
              (p := fun a : Arrival => decide (cfg.maxSeconds ≤ a.elapsedSecs)) (l := a :: as)
            omega
      · rw [List.countP_cons_of_neg (by simpa using hlate)] at hcount
        exact late_stops hmax _ as hclock.of_cons hcount

/-- **Both bounds hold.**  A run sends no more orders than `MAX_ORDERS`, and has stopped once it has
sent that many.  If the clock does not go back, it has stopped by the time 50,000 ticks have come
that are later than `MAX_SECONDS`. -/
theorem strategy_run_ends (cfg : RiskConfig) (as : List Arrival) :
    (cfg.maxOrders ≠ 0 → (sentOrders cfg as).length ≤ cfg.maxOrders.toNat ∧
      ((sentOrders cfg as).length = cfg.maxOrders.toNat →
        (Mealy.exec (StrategyLoop.step cfg) StrategyLoop.start as).running = false)) ∧
    (cfg.maxSeconds ≠ 0 → as.Pairwise (fun a b => a.elapsedSecs ≤ b.elapsedSecs) →
      50000 ≤ as.countP (fun a => decide (cfg.maxSeconds ≤ a.elapsedSecs)) →
        (Mealy.exec (StrategyLoop.step cfg) StrategyLoop.start as).running = false) := by
  refine ⟨fun hmax => ?_, fun hmax => late_stops hmax StrategyLoop.start as⟩
  have hrun := withinOrders_run hmax as
  refine ⟨hrun.within, fun hall => ?_⟩
  exact Bool.eq_false_iff.mpr fun hrunning => absurd hall (Nat.ne_of_lt (hrun.stops hrunning))

/-- One unit an order, and one order. -/
def oneOrder : RiskConfig := ⟨false, 3, 1, 0, 1⟩

theorem strategy_run_ends_oneOrder : (sentOrders oneOrder buyBuySell).length ≤ 1 ∧
    (Mealy.exec (StrategyLoop.step oneOrder) StrategyLoop.start buyBuySell).running = false := by
  have hrun := (strategy_run_ends oneOrder buyBuySell).1 (by decide)
  exact ⟨hrun.1, hrun.2 (by decide +kernel)⟩

end HotpathIpc
