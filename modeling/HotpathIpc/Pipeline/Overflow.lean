import HotpathIpc.Library.Overflow
import HotpathIpc.Pipeline.Accounts

/-!
# The pipeline when its queues overflow

The three queues of the pipeline are opened with safe overflow: each holds a bounded number of
messages, and a sender that finds it full drops the oldest one.  Here every queue has a capacity of
its own, of any size, and a step of the pipeline is the lossless one with its queues cut back.

Nothing is established about how much is lost.  What is established is what a loss can do in a
marketable run: fills can go missing from the accounts, and nothing else.

* `Pipeline.lossyStep` — one step; `LostOf` — what fell out of the queues in it.
* `sent_accounted`, `published_accounted` — every command and every report has exactly one fate.
* `lossy_meter` — a total of the execution stage, with what went missing, is the venue's.
* **`accounts_short_by_missing`** — position, cash and completed orders are short of the venue's by
  exactly the reports that were not booked.
* **`winds_down_iff`** — when a bounded execution stage stops by itself.
-/

namespace HotpathIpc

open Std (ExtTreeMap)
open Overflow (kept spilled)

variable {commission : Int → UInt64 → Int} {maxFills : ℕ}

/-- How many messages each queue holds. -/
structure Capacities where
  toExchange : ℕ
  toExecution : ℕ
  reports : ℕ
deriving DecidableEq, Repr

/-- What fell out of the queues in a step. -/
structure LostOf where
  toExchange : List OrderCommand
  toExecution : List OrderCommand
  reports : List ExecutionReport
deriving DecidableEq, Repr

namespace Pipeline

variable (caps : Capacities)

/-- The queues cut back to their capacities. -/
def overflow (s : Pipeline) : Pipeline :=
  { s with
    toExchange := kept caps.toExchange s.toExchange
    toExecution := kept caps.toExecution s.toExecution
    reports := kept caps.reports s.reports }

def lost (s : Pipeline) : LostOf where
  toExchange := spilled caps.toExchange s.toExchange
  toExecution := spilled caps.toExecution s.toExecution
  reports := spilled caps.reports s.reports

/-- One step over queues that overflow. -/
def lossyStep (commission : Int → UInt64 → Int) (maxFills : ℕ) (s : Pipeline) (a : Action) :
    Pipeline × Seen × LostOf :=
  let r := s.step commission maxFills a
  (r.1.overflow caps, r.2, r.1.lost caps)

end Pipeline

/-- One step of a run over queues that overflow. -/
abbrev LossyMove := Mealy.Entry Pipeline Action (Seen × LostOf)

/-- What was seen of such a step. -/
def moveOf (e : LossyMove) : Move := ⟨e.pre, e.input, e.out.1, e.post⟩

/-- The reports a step received and did not book. -/
@[simp] def Seen.unbooked : Seen → List ExecutionReport
  | Seen.report _ Verdict.booked => []
  | Seen.report r _ => [r]
  | _ => []

section Totals

variable (tr : List LossyMove)

/-- What was seen of a run. -/
abbrev movesOf : List Move := tr.map moveOf

/-- All commands that the exchange's queue dropped. -/
abbrev lostCommandsOf : List OrderCommand := tr.flatMap fun e => e.out.2.toExchange

/-- All reports that did not reach the accounts: dropped by the queue, or received and not
booked. -/
abbrev unbookedOf : List ExecutionReport :=
  tr.flatMap fun e => e.out.1.unbooked ++ e.out.2.reports

end Totals

/-! ## One step -/

section Steps

variable {caps : Capacities} {ds : List Draws} {as : List Action}

/-- A step is the lossless one, and then the queues are cut back. -/
theorem lossyStep_of_mem {s : Pipeline} {e : LossyMove}
    (he : e ∈ Mealy.trace (Pipeline.lossyStep caps commission maxFills) s as) :
    let r := e.pre.step commission maxFills e.input
    e.post = r.1.overflow caps ∧ e.out.1 = r.2 ∧ e.out.2 = r.1.lost caps := by
  have h := Mealy.step_of_mem_trace he
  obtain ⟨hpost, hout⟩ := Prod.mk.inj h
  exact ⟨hpost.symm, by rw [← hout], by rw [← hout]⟩

theorem overflow_inFlight (caps : Capacities) (s : Pipeline) :
    (s.lost caps).reports ++ (s.overflow caps).inFlight = s.inFlight := by
  rw [Pipeline.inFlight, ← List.append_assoc]
  exact congrArg (· ++ s.outbox) (Overflow.spilled_append_kept caps.reports s.reports)

/-- Each queue hands on or drops what it is given, in order. -/
structure LossyQueued (e : LossyMove) : Prop where
  exchange : (matched (moveOf e)).map Prod.snd ++ e.out.2.toExchange ++ e.post.toExchange
    = e.pre.toExchange ++ sentCommands [e.input]
  reports : e.out.1.received ++ e.out.2.reports ++ e.post.inFlight
    = e.pre.inFlight ++ e.out.1.published

theorem lossy_queued {s : Pipeline} {e : LossyMove}
    (he : e ∈ Mealy.trace (Pipeline.lossyStep caps commission maxFills) s as) :
    LossyQueued e := by
  obtain ⟨hpost, hseen, hlost⟩ := lossyStep_of_mem he
  have hq := queued_step commission maxFills e.pre e.input
  refine ⟨?_, ?_⟩
  · have h := hq.exchange
    rw [← hseen] at h
    rw [hpost, hlost, List.append_assoc, ← h]
    exact congrArg _ (Overflow.spilled_append_kept _ _)
  · have h := hq.reports
    rw [← hseen] at h
    rw [hpost, hlost, List.append_assoc, overflow_inFlight]
    exact h

theorem received_split (o : Seen) : o.received.Perm (o.booked ++ o.unbooked) := by
  cases o with
  | report r v => cases v <;> exact List.Perm.refl _
  | nothing => exact List.Perm.nil
  | turn ev t => exact List.Perm.nil
  | order cmd => exact List.Perm.nil

/-! ## What is known of a marketable run -/

/-- Among commands `cmds`, what a marketable run keeps: the book holds no strategy order, the queues
hold commands, and a context is that of a command. -/
structure Known (cmds : List OrderCommand) (s : Pipeline) : Prop where
  quiet : s.exchange.Quiet
  toExchange : ∀ cmd ∈ s.toExchange, cmd ∈ cmds
  toExecution : ∀ cmd ∈ s.toExecution, cmd ∈ cmds
  contexts : ∀ id ctx, s.execution.orderCtx[id]? = some ctx →
    ∃ cmd ∈ cmds, cmd.orderId = id ∧ ctx = (cmd.originTs, cmd.side)

variable {cmds : List OrderCommand}

theorem known_step (hm : ∀ cmd ∈ cmds, cmd.IsNewMarket) {s : Pipeline} (h : Known cmds s)
    {a : Action} (ha : ∀ cmd ∈ sentCommands [a], cmd ∈ cmds) :
    Known cmds (s.step commission maxFills a).1 := by
  have hqueue := queued_step commission maxFills s a
  have hsub : ∀ (q : List OrderCommand), (∀ cmd ∈ q, cmd ∈ cmds) →
      ∀ cmd ∈ q ++ sentCommands [a], cmd ∈ cmds :=
    fun q hq cmd hcmd => (List.mem_append.mp hcmd).elim (hq cmd) (ha cmd)
  refine ⟨?_, fun cmd hcmd => ?_, fun cmd hcmd => ?_, fun id ctx hctx => ?_⟩
  · rcases exchange_cases commission maxFills s a with ⟨he, -⟩ | ⟨ev, he, -, hev⟩
    · exact he ▸ h.quiet
    · exact he ▸ quiet_step h.quiet fun cmd hcmd => hm cmd (h.toExchange cmd (hev cmd hcmd))
  · exact hsub _ h.toExchange cmd (hqueue.exchange ▸ List.mem_append_right _ hcmd)
  · exact hsub _ h.toExecution cmd (hqueue.execution ▸ List.mem_append_right _ hcmd)
  · rcases execution_cases commission maxFills s a with
      ⟨ph, hx, -, -⟩ | ⟨cmd, rest, hq, -, hx⟩ | ⟨r, ctx', -, -, hx⟩
    · rw [hx] at hctx
      exact h.contexts id ctx hctx
    · rw [hx, Execution.order, ExtTreeMap.getElem?_insert] at hctx
      split at hctx
      · rename_i hid
        obtain rfl := Option.some.inj hctx
        exact ⟨cmd, h.toExecution cmd (hq ▸ List.mem_cons_self),
          Std.LawfulEqOrd.compare_eq_iff_eq.mp hid, rfl⟩
      · exact h.contexts id ctx hctx
    · rw [hx, Execution.book] at hctx
      split at hctx
      · rw [ExtTreeMap.getElem?_erase] at hctx
        split at hctx
        · exact absurd hctx (by simp)
        · exact h.contexts id ctx hctx
      · exact h.contexts id ctx hctx

theorem known_overflow {s : Pipeline} (h : Known cmds s) : Known cmds (s.overflow caps) :=
  ⟨h.quiet, fun cmd hcmd => h.toExchange cmd (Overflow.mem_of_mem_kept hcmd),
    fun cmd hcmd => h.toExecution cmd (Overflow.mem_of_mem_kept hcmd), h.contexts⟩

theorem known_start (cmds : List OrderCommand) (ds : List Draws) :
    Known cmds (Pipeline.start ds) where
  quiet := quiet_primed ds
  toExchange := nofun
  toExecution := nofun
  contexts id ctx h := by simp [Pipeline.start, Execution.new] at h

end Steps

/-! ## Runs -/

section Runs

variable {caps : Capacities} {ds : List Draws} {as : List Action}

/-- The steps of a run over queues of these capacities. -/
abbrev lossyTrace (commission : Int → UInt64 → Int) (maxFills : ℕ) (caps : Capacities)
    (ds : List Draws) (as : List Action) : List LossyMove :=
  Mealy.trace (Pipeline.lossyStep caps commission maxFills) (Pipeline.start ds) as

/-- The state it ends in. -/
abbrev lossyEnd (commission : Int → UInt64 → Int) (maxFills : ℕ) (caps : Capacities)
    (ds : List Draws) (as : List Action) : Pipeline :=
  Mealy.exec (Pipeline.lossyStep caps commission maxFills) (Pipeline.start ds) as

theorem known_trace (h : Marketable as) :
    ∀ e ∈ lossyTrace commission maxFills caps ds as, Known (sentCommands as) e.pre := by
  intro e he
  refine ((Mealy.invariant (I := Known (sentCommands as))
    (g := fun _ a => ∀ cmd ∈ sentCommands [a], cmd ∈ sentCommands as)
    (fun s a hs ha => known_overflow (known_step h.newMarket hs ha)) (known_start _ ds)
    fun e he cmd hcmd => ?_).2 e he).1
  have hin : e.input ∈ as := by
    rw [← Mealy.map_input_trace (Pipeline.lossyStep caps commission maxFills) (Pipeline.start ds)
      as]
    exact List.mem_map_of_mem he
  rw [sentCommands, List.flatMap_singleton] at hcmd
  exact List.mem_flatMap_of_mem hin hcmd

/-- **Every command sent** is matched, dropped by the exchange's queue or still in it. -/
theorem sent_accounted (commission : Int → UInt64 → Int) (maxFills : ℕ) (caps : Capacities)
    (ds : List Draws) (as : List Action) :
    let tr := lossyTrace commission maxFills caps ds as
    ((matchedOf (movesOf tr)).map Prod.snd ++ lostCommandsOf tr
      ++ (lossyEnd commission maxFills caps ds as).toExchange).Perm (sentCommands as) := by
  intro tr
  have hfifo := Mealy.fifo Pipeline.toExchange (fun e : LossyMove => sentCommands [e.input])
    (fun e => (matched (moveOf e)).map Prod.snd ++ e.out.2.toExchange)
    fun e (he : e ∈ lossyTrace commission maxFills caps ds as) => (lossy_queued he).exchange
  have hsent : tr.flatMap (fun e => sentCommands [e.input]) = sentCommands as := by
    conv_rhs => rw [← Mealy.map_input_trace (Pipeline.lossyStep caps commission maxFills)
      (Pipeline.start ds) as]
    rw [sentCommands, List.flatMap_map]
    simp only [sentCommands, List.flatMap_singleton]
    rfl
  have hmatched : (matchedOf (movesOf tr)).map Prod.snd
      = tr.flatMap fun e => (matched (moveOf e)).map Prod.snd := by
    rw [List.map_flatMap, List.flatMap_map]
  rw [hmatched, ← hsent]
  have hperm := (List.flatMap_append_perm tr (fun e => (matched (moveOf e)).map Prod.snd)
    fun e => e.out.2.toExchange).append_right (lossyEnd commission maxFills caps ds as).toExchange
  exact hperm.trans (List.Perm.of_eq hfifo)

/-- **Every report published** is booked, missing or on its way. -/
theorem published_accounted (commission : Int → UInt64 → Int) (maxFills : ℕ) (caps : Capacities)
    (ds : List Draws) (as : List Action) :
    let tr := lossyTrace commission maxFills caps ds as
    (bookedOf (movesOf tr) ++ unbookedOf tr
      ++ (lossyEnd commission maxFills caps ds as).inFlight).Perm (publishedOf (movesOf tr)) := by
  intro tr
  have hfifo := Mealy.fifo Pipeline.inFlight (fun e : LossyMove => e.out.1.published)
    (fun e => e.out.1.received ++ e.out.2.reports)
    fun e (he : e ∈ lossyTrace commission maxFills caps ds as) => (lossy_queued he).reports
  have hbooked : bookedOf (movesOf tr) = tr.flatMap fun e => e.out.1.booked := List.flatMap_map ..
  have hpub : publishedOf (movesOf tr) = tr.flatMap fun e => e.out.1.published :=
    List.flatMap_map ..
  have hperm := (List.flatMap_append_perm tr (fun e => e.out.1.booked)
    fun e => e.out.1.unbooked ++ e.out.2.reports)
  have hsplit : (tr.flatMap fun e => e.out.1.booked ++ (e.out.1.unbooked ++ e.out.2.reports)).Perm
      (tr.flatMap fun e => e.out.1.received ++ e.out.2.reports) := by
    refine List.Perm.flatMap_left _ fun e _ => ?_
    rw [← List.append_assoc]
    exact ((received_split e.out.1).append_right _).symm
  rw [hbooked, hpub]
  exact ((hperm.trans hsplit).append_right _).trans (List.Perm.of_eq hfifo)

/-- What the exchange publishes are the reports of the commands it matched. -/
theorem lossy_published (commission : Int → UInt64 → Int) (maxFills : ℕ) (caps : Capacities)
    (ds : List Draws) (h : Marketable as) :
    let tr := lossyTrace commission maxFills caps ds as
    publishedOf (movesOf tr) = (matchedOf (movesOf tr)).flatMap (marketReports commission) ∧
      ∀ p ∈ matchedOf (movesOf tr), p.1.LiveLevels ∧ p.2.IsNewMarket := by
  intro tr
  have hone : ∀ e ∈ tr, e.out.1.published = (matched (moveOf e)).flatMap (marketReports commission) ∧
      ∀ p ∈ matched (moveOf e), p.1.LiveLevels ∧ p.2.IsNewMarket := by
    intro e he
    have hk := known_trace h e he
    obtain ⟨-, hseen, -⟩ := lossyStep_of_mem he
    rcases exchange_cases commission maxFills e.pre e.input with ⟨-, hno⟩ | ⟨ev, -, ht, hev⟩
    · rw [← hseen] at hno
      cases heo : e.out.1 with
      | turn ev t => exact absurd heo (hno ev t)
      | nothing => simp [matched, moveOf, heo]
      | order cmd => simp [matched, moveOf, heo]
      | report r v => simp [matched, moveOf, heo]
    · rw [← hseen] at ht
      cases ev with
      | order cmd =>
          have hmk := h.newMarket cmd (hk.toExchange cmd (hev cmd rfl))
          simp only [matched, moveOf, ht, Seen.published, List.flatMap_singleton,
            List.mem_singleton]
          refine ⟨reports_market hk.quiet hmk, ?_⟩
          rintro p rfl
          exact ⟨hk.quiet.sound.live, hmk⟩
      | round d =>
          simp only [matched, moveOf, ht, Seen.published, List.flatMap_nil]
          exact ⟨reports_round hk.quiet d, fun p hp => absurd hp List.not_mem_nil⟩
  refine ⟨?_, fun p hp => ?_⟩
  · have hpub : publishedOf (movesOf tr) = tr.flatMap fun e => e.out.1.published :=
      List.flatMap_map ..
    rw [hpub, List.flatMap_assoc, List.flatMap_map]
    exact List.flatMap_congr fun e he => (hone e he).1
  · obtain ⟨m, hm, hpm⟩ := List.mem_flatMap.mp hp
    obtain ⟨e, he, rfl⟩ := List.mem_map.mp hm
    exact (hone e he).2 p hpm

theorem sideOf_matched (h : Marketable as) {p : Book × OrderCommand}
    (hp : p ∈ matchedOf (movesOf (lossyTrace commission maxFills caps ds as))) :
    sideOf (sentCommands as) p.2.orderId = p.2.side := by
  refine sideOf_of_mem h.fresh ((sent_accounted commission maxFills caps ds as).subset ?_)
  exact List.mem_append_left _ (List.mem_append_left _ (List.mem_map_of_mem hp))

/-- **A total of the execution stage, with what went missing, is the venue's.** -/
theorem lossy_meter {M : Type*} [AddCommMonoid M] {total : Execution → M}
    {w : ExecutionReport → UInt8 → M} (hm : Meter total w) (h : Marketable as) :
    let tr := lossyTrace commission maxFills caps ds as
    let s := lossyEnd commission maxFills caps ds as
    total s.execution
        + ((unbookedOf tr ++ s.inFlight).map fun r => w r (sideOf (sentCommands as) r.orderId)).sum
      = total Execution.new + ((matchedOf (movesOf tr)).map fun p =>
          ((fillsOn p).map fun f => w (f.takerReport commission) p.2.side).sum).sum := by
  intro tr s
  -- what is booked is booked with the side of its command
  have hstep : ∀ e ∈ tr, total e.post.execution + 0 = total e.pre.execution
      + (e.out.1.booked.map fun r => w r (sideOf (sentCommands as) r.orderId)).sum := by
    intro e he
    obtain ⟨hpost, hseen, -⟩ := lossyStep_of_mem he
    have hk := known_trace h e he
    have hcases := execution_cases commission maxFills e.pre e.input
    rw [← hseen] at hcases
    have hex : e.post.execution = (e.pre.step commission maxFills e.input).1.execution := by
      rw [hpost]
      rfl
    rw [← hex] at hcases
    rcases hcases with ⟨ph, hx, -, hb⟩ | ⟨cmd, rest, -, ho, hx⟩ | ⟨r, ctx, hctx, ho, hx⟩
    · simp only [hx, hb, hm.phase, List.map_nil, List.sum_nil]
    · simp only [hx, ho, hm.order, Seen.booked, List.map_nil, List.sum_nil]
    · obtain ⟨cmd, hcmd, hid, hside⟩ := hk.contexts _ _ hctx
      have hs : ctx.2 = sideOf (sentCommands as) r.orderId := by
        rw [← hid, sideOf_of_mem h.fresh hcmd, hside]
      simp only [hx, ho, hm.book, hs, Seen.booked, List.map_cons, List.map_nil, List.sum_cons,
        List.sum_nil, add_zero]
  have hrun := Mealy.conserve (fun s : Pipeline => total s.execution) _ (fun _ => 0) hstep
  rw [List.map_const', List.sum_replicate, nsmul_zero, add_zero] at hrun
  have hbooked : bookedOf (movesOf tr) = tr.flatMap fun e => e.out.1.booked := List.flatMap_map ..
  have hfate := ((published_accounted commission maxFills caps ds as).map
    fun r => w r (sideOf (sentCommands as) r.orderId)).sum_eq
  obtain ⟨hpub, hlive⟩ := lossy_published commission maxFills caps ds h
  rw [hrun, add_assoc, ← sum_map_flatMap, ← hbooked, ← List.sum_append, ← List.map_append,
    ← List.append_assoc, hfate, hpub, sum_map_flatMap]
  refine congrArg (_ + ·) (congrArg List.sum (List.map_congr_left fun p hp => ?_))
  rw [marketReports, List.map_map]
  refine congrArg List.sum (List.map_congr_left fun f hf => ?_)
  have hid : f.takerOrderId = p.2.orderId := (submit_isBy _ (hlive p hp).1 f hf).1
  rw [Function.comp_apply, ← sideOf_matched h hp, ← hid]
  rfl

/-! ## The accounts -/

/-- The accounts `x`, with the reports `missing`, say what the venue's matches `ps` say. -/
structure ShortBy (commission : Int → UInt64 → Int) (cmds : List OrderCommand)
    (ps : List (Book × OrderCommand)) (missing : List ExecutionReport) (x : Execution) : Prop where
  position : x.position
      + (missing.map fun r => direction (sideOf cmds r.orderId)
          * ((r.executedQuantity.toNat : ℚ) / scale)).sum
    = (ps.map fun p => direction p.2.side *
        ((p.2.quantity.toNat - p.1.rejectedRemainder p.2.newOrder) / scale)).sum
  cash : x.cash
      + (missing.map fun r => -direction (sideOf cmds r.orderId)
          * ((r.executedPrice : ℚ) / scale * (r.executedQuantity.toNat / scale))
          - r.commission / scale).sum
    = (ps.map fun p => -direction p.2.side * traded p).sum - (ps.map (commissions commission)).sum
  completed : x.completedOrders + missing.countP (fun r => r.status = 2)
    = ps.countP fun p => Completes p

/-- What an execution stage says differs from what the venue says by what the missing reports say. -/
theorem shortBy_run (commission : Int → UInt64 → Int) (maxFills : ℕ) (caps : Capacities)
    (ds : List Draws) {as : List Action} (h : Marketable as) :
    ShortBy commission (sentCommands as)
      (matchedOf (movesOf (lossyTrace commission maxFills caps ds as)))
      (unbookedOf (lossyTrace commission maxFills caps ds as)
        ++ (lossyEnd commission maxFills caps ds as).inFlight)
      (lossyEnd commission maxFills caps ds as).execution := by
  obtain ⟨-, hlive⟩ := lossy_published commission maxFills caps ds h
  refine ⟨?_, ?_, ?_⟩
  · rw [lossy_meter meter_position h]
    refine (zero_add _).trans (congrArg List.sum (List.map_congr_left fun p hp => ?_))
    exact sum_position (hlive p hp).1 (hlive p hp).2
  · rw [lossy_meter meter_cash h, ← sum_map_sub]
    refine (zero_add _).trans (congrArg List.sum (List.map_congr_left fun p _ => ?_))
    exact sum_cash p
  · rw [countP_eq_sum, lossy_meter meter_completed h, countP_eq_sum]
    refine (zero_add _).trans (congrArg List.sum (List.map_congr_left fun p hp => ?_))
    simp only [status_takerReport]
    rw [← countP_eq_sum, countP_terminal (hlive p hp).1]

/-- **Accounts over queues that overflow.**  In a marketable run over queues of any capacities,
every command is matched, dropped or queued, every report of a match is booked or missing, and
position, cash and completed orders differ from what the venue says by what the missing reports
say. -/
theorem accounts_short_by_missing (commission : Int → UInt64 → Int) (maxFills : ℕ)
    (caps : Capacities) (ds : List Draws) (as : List Action) (h : Marketable as) :
    let tr := lossyTrace commission maxFills caps ds as
    let s := lossyEnd commission maxFills caps ds as
    let missing := unbookedOf tr ++ s.inFlight
    ((matchedOf (movesOf tr)).map Prod.snd ++ lostCommandsOf tr ++ s.toExchange).Perm
        (sentCommands as) ∧
      (bookedOf (movesOf tr) ++ missing).Perm
        ((matchedOf (movesOf tr)).flatMap (marketReports commission)) ∧
      ShortBy commission (sentCommands as) (matchedOf (movesOf tr)) missing s.execution := by
  intro tr s missing
  obtain ⟨hpub, -⟩ := lossy_published commission maxFills caps ds h
  refine ⟨sent_accounted commission maxFills caps ds as, ?_, shortBy_run commission maxFills caps ds h⟩
  rw [← hpub, ← List.append_assoc]
  exact published_accounted commission maxFills caps ds as

/-- Two buys sent into a queue for one command: the first is dropped, and the fill of the second
is still on its way. -/
theorem accounts_short_by_missing_run :
    let as := [Action.send ⟨1, 0, 100000000, 0, 0, 0, 0⟩,
      Action.send ⟨2, 0, 200000000, 0, 0, 0, 0⟩, Action.take, Action.publish, Action.receive]
    let tr := lossyTrace oneBp 0 ⟨1, 2, 2⟩ (List.replicate 64 calmRound) as
    let s := lossyEnd oneBp 0 ⟨1, 2, 2⟩ (List.replicate 64 calmRound) as
    ShortBy oneBp (sentCommands as) (matchedOf (movesOf tr)) (unbookedOf tr ++ s.inFlight)
        s.execution ∧
      (lostCommandsOf tr).map OrderCommand.orderId = [1] ∧ s.inFlight.length = 2 :=
  ⟨(accounts_short_by_missing oneBp 0 ⟨1, 2, 2⟩ _ _ ⟨by decide +kernel, by decide +kernel⟩).2.2,
    by decide +kernel, by decide +kernel⟩

/-! ## Winding down -/

/-- A bounded stage stops with the order that reaches its bound. -/
structure Execution.Bounded (maxFills : ℕ) (x : Execution) : Prop where
  le : x.completedOrders ≤ maxFills
  stopped : x.phase = Phase.stopped ↔ maxFills ≤ x.completedOrders

theorem bounded_report {x : Execution} (hpos : 0 < maxFills) (h : x.Bounded maxFills)
    (hp : x.phase ≠ Phase.stopped) (r : ExecutionReport) :
    (x.report maxFills r).1.Bounded maxFills := by
  have hlt : x.completedOrders < maxFills := Nat.lt_of_not_le (h.stopped.not.mp hp)
  have hdrain : Execution.Bounded maxFills { x with phase := Phase.draining } :=
    ⟨hlt.le, iff_of_false (fun h => Phase.noConfusion h) (Nat.not_le.mpr hlt)⟩
  rw [Execution.report]
  split
  · exact hdrain
  · cases x.orderCtx[r.orderId]? with
    | none => exact hdrain
    | some ctx =>
        dsimp only
        rw [Execution.book]
        by_cases h2 : r.status = 2
        · rw [if_pos h2]
          refine ⟨hlt, ?_⟩
          by_cases hlast : maxFills ≤ x.completedOrders + 1
          · simp [hlast, hpos.ne']
          · simp [hlast]
        · rw [if_neg h2]
          exact ⟨hlt.le, iff_of_false (fun h => Phase.noConfusion h) (Nat.not_le.mpr hlt)⟩

theorem bounded_step (hpos : 0 < maxFills) {s : Pipeline} (h : s.execution.Bounded maxFills)
    (a : Action) : (s.step commission maxFills a).1.execution.Bounded maxFills := by
  cases a with
  | send cmd => exact h
  | take => cases ho : s.outbox <;> cases hx : s.toExchange <;>
      simpa [Pipeline.step, Pipeline.turn, ho, hx] using h
  | round d => cases ho : s.outbox <;> simpa [Pipeline.step, Pipeline.turn, ho] using h
  | publish => cases ho : s.outbox <;> simpa [Pipeline.step, ho] using h
  | receive =>
      have hmove : ∀ ph, ph ≠ Phase.stopped → s.execution.phase ≠ Phase.stopped →
          Execution.Bounded maxFills { s.execution with phase := ph } := fun ph hph hp =>
        ⟨h.le, iff_of_false hph (h.stopped.not.mp hp)⟩
      rw [Pipeline.step, Pipeline.receive]
      cases hp : s.execution.phase with
      | stopped => exact h
      | draining =>
          have hlive : s.execution.phase ≠ Phase.stopped := by rw [hp]; decide
          cases s.toExecution with
          | nil => exact hmove Phase.reporting (by decide) hlive
          | cons cmd rest => exact ⟨h.le, h.stopped⟩
      | reporting =>
          have hlive : s.execution.phase ≠ Phase.stopped := by rw [hp]; decide
          cases s.reports with
          | nil => exact hmove Phase.draining (by decide) hlive
          | cons r rest => exact bounded_report hpos h hlive r

theorem bounded_run (commission : Int → UInt64 → Int) (hpos : 0 < maxFills) (caps : Capacities)
    (ds : List Draws) (as : List Action) : (lossyEnd commission maxFills caps ds as).execution.Bounded maxFills := by
  have hstart : (Pipeline.start ds).execution.Bounded maxFills :=
    ⟨Nat.zero_le _, iff_of_false (fun hp => Phase.noConfusion hp) (Nat.not_le.mpr hpos)⟩
  have hstep : ∀ (s : Pipeline) a, s.execution.Bounded maxFills →
      (s.lossyStep caps commission maxFills a).1.execution.Bounded maxFills :=
    fun s a h => bounded_step hpos h a
  exact (Mealy.preserved (I := fun s : Pipeline => s.execution.Bounded maxFills) hstep hstart as).1

/-- **When a bounded stage stops by itself.**  In a marketable run over queues of any capacities
with `maxFills` positive, the execution stage has stopped if and only if enough orders completed to
reach the bound with those whose last report is missing left out.  If as many orders were sent as
the bound, that means that every one was matched and completed, and that no last report is
missing. -/
theorem winds_down_iff (commission : Int → UInt64 → Int) (maxFills : ℕ) (caps : Capacities)
    (ds : List Draws) (as : List Action) (h : Marketable as) (hpos : 0 < maxFills) :
    let tr := lossyTrace commission maxFills caps ds as
    let s := lossyEnd commission maxFills caps ds as
    let missing := unbookedOf tr ++ s.inFlight
    (s.execution.phase = Phase.stopped ↔
        maxFills + missing.countP (fun r => r.status = 2)
          ≤ (matchedOf (movesOf tr)).countP fun p => Completes p) ∧
      ((sentCommands as).length = maxFills →
        (s.execution.phase = Phase.stopped ↔
          (∀ cmd ∈ sentCommands as, ∃ p ∈ matchedOf (movesOf tr), p.2 = cmd ∧ Completes p) ∧
            ∀ r ∈ missing, r.status ≠ 2)) := by
  intro tr s missing
  have hsent := sent_accounted commission maxFills caps ds as
  have hcount := (shortBy_run commission maxFills caps ds h).completed
  have hstop := (bounded_run commission hpos caps ds as).stopped
  have hiff : s.execution.phase = Phase.stopped ↔
      maxFills + missing.countP (fun r => r.status = 2)
        ≤ (matchedOf (movesOf tr)).countP fun p => Completes p := by
    rw [hstop, ← hcount]
    exact (Nat.add_le_add_iff_right).symm
  refine ⟨hiff, fun hlen => hiff.trans ⟨fun hle => ?_, fun ⟨hall, hnone⟩ => ?_⟩⟩
  · have hlengths : (matchedOf (movesOf tr)).length + (lostCommandsOf tr).length
        + s.toExchange.length = maxFills := by
      rw [← hlen, ← hsent.length_eq, List.length_append, List.length_append, List.length_map]
    have hsome : maxFills + missing.countP (fun r => r.status = 2)
        ≤ (matchedOf (movesOf tr)).countP fun p => Completes p := hle
    have hmost : ((matchedOf (movesOf tr)).countP fun p => Completes p)
        ≤ (matchedOf (movesOf tr)).length := List.countP_le_length
    -- all of the inequalities are equalities
    have hcomplete : ((matchedOf (movesOf tr)).countP fun p => Completes p)
        = (matchedOf (movesOf tr)).length := by omega
    have hlost : lostCommandsOf tr = [] := List.length_eq_zero_iff.mp (by omega)
    have hqueue : s.toExchange = [] := List.length_eq_zero_iff.mp (by omega)
    have hterminal : missing.countP (fun r => r.status = 2) = 0 := by omega
    refine ⟨fun cmd hcmd => ?_, fun r hr h2 => ?_⟩
    · have hmem := hsent.symm.subset hcmd
      rw [hlost, hqueue, List.append_nil, List.append_nil] at hmem
      obtain ⟨p, hp, rfl⟩ := List.mem_map.mp hmem
      exact ⟨p, hp, rfl, by simpa using List.countP_eq_length.mp hcomplete p hp⟩
    · exact List.countP_eq_zero.mp hterminal r hr (by simpa using h2)
  · have hterminal : missing.countP (fun r => r.status = 2) = 0 :=
      List.countP_eq_zero.mpr fun r hr => by simpa using hnone r hr
    -- the completed ones are as many as the commands
    have hsub : sentCommands as
        ⊆ ((matchedOf (movesOf tr)).filter fun p => Completes p).map Prod.snd := by
      intro cmd hcmd
      obtain ⟨p, hp, rfl, hc⟩ := hall cmd hcmd
      exact List.mem_map_of_mem (List.mem_filter.mpr ⟨hp, by simpa using hc⟩)
    have hmany := (List.subperm_of_subset (List.Nodup.of_map _ h.fresh) hsub).length_le
    rw [List.length_map, ← List.countP_eq_length_filter] at hmany
    omega

/-- A bounded stage that has booked its one order. -/
theorem winds_down_iff_inOrder :
    (lossyEnd oneBp 1 ⟨1, 1, 1⟩ (List.replicate 64 calmRound)
      (inOrder ++ [Action.receive])).execution.phase = Phase.stopped :=
  ((winds_down_iff oneBp 1 ⟨1, 1, 1⟩ _ _ ⟨by decide, by decide⟩ Nat.one_pos).1).mpr
    (by decide +kernel)

end Runs

end HotpathIpc
