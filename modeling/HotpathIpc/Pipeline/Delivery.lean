import HotpathIpc.Pipeline.Model

/-!
# Fills and their contexts

In a marketable run every command is sent once, taken once by the exchange, and received once by
the execution stage; each report is published once and received once.  Three queue equations
(`queues_trace`) say so.  With them the context of an order is a matter of two lists:

* **`contexts_trace`** — an order has a context exactly if its command has been received and no
  terminal report of it has been booked;
* **`published_trace`** — the reports that the exchange publishes have status 1 or 2, belong to
  orders it has taken, and nothing follows an order's status 2.

Hence a report finds its context exactly if the command is no longer queued (`verdict_of_queued`).
Draining the commands first does not make sure of that: a command and its report may both arrive
between the last command receive and the report receive.
-/

namespace HotpathIpc

open Std (ExtTreeMap)

variable {commission : Int → UInt64 → Int} {maxFills : ℕ}

/-! ## Marketable runs -/

/-- One step of a run. -/
abbrev Move := Mealy.Entry Pipeline Action Seen

/-- All commands of the run are new market orders with fresh ids. -/
structure Marketable (as : List Action) : Prop where
  newMarket : ∀ cmd ∈ sentCommands as, cmd.IsNewMarket
  fresh : ((sentCommands as).map OrderCommand.orderId).Nodup

/-- The execution stage is about to receive a report whose command is still queued. -/
def Pipeline.Overtaken (s : Pipeline) (a : Action) : Prop :=
  a = Action.receive ∧ s.execution.phase = Phase.reporting ∧
    ∃ r ∈ s.reports.head?, ∃ cmd ∈ s.toExecution, cmd.orderId = r.orderId

instance (s : Pipeline) (a : Action) : Decidable (s.Overtaken a) :=
  inferInstanceAs (Decidable (_ ∧ _ ∧ _))

/-- The commands a step received. -/
@[simp] def Seen.orders : Seen → List OrderCommand
  | Seen.order cmd => [cmd]
  | _ => []

/-- The reports a step produced. -/
@[simp] def Seen.published : Seen → List ExecutionReport
  | Seen.turn _ t => t.reports
  | _ => []

/-- The reports a step received. -/
@[simp] def Seen.received : Seen → List ExecutionReport
  | Seen.report r _ => [r]
  | _ => []

/-- The reports a step booked. -/
@[simp] def Seen.booked : Seen → List ExecutionReport
  | Seen.report r Verdict.booked => [r]
  | _ => []

/-- The command a step matched, with the book it met. -/
def matched (e : Move) : List (Book × OrderCommand) :=
  match e.out with
  | Seen.turn (Event.order cmd) _ => [(e.pre.exchange.book, cmd)]
  | _ => []

section Totals

variable (tr : List Move)

/-- All commands the execution stage received, in order. -/
abbrev ordersOf : List OrderCommand := tr.flatMap fun e => e.out.orders

/-- All reports the exchange produced, in order. -/
abbrev publishedOf : List ExecutionReport := tr.flatMap fun e => e.out.published

/-- All reports the execution stage received, in order. -/
abbrev receivedOf : List ExecutionReport := tr.flatMap fun e => e.out.received

/-- All reports the execution stage booked, in order. -/
abbrev bookedOf : List ExecutionReport := tr.flatMap fun e => e.out.booked

/-- All commands the exchange matched, each with the book it met, in order. -/
abbrev matchedOf : List (Book × OrderCommand) := tr.flatMap matched

end Totals

/-- The reports of a market order that meets a book. -/
def marketReports (commission : Int → UInt64 → Int) (p : Book × OrderCommand) :
    List ExecutionReport :=
  (p.1.submit p.2.newOrder).2.1.map (Fill.takerReport commission)

theorem sentCommands_append (as bs : List Action) :
    sentCommands (as ++ bs) = sentCommands as ++ sentCommands bs :=
  List.flatMap_append

theorem Marketable.left {as bs : List Action} (h : Marketable (as ++ bs)) : Marketable as := by
  have hs := sentCommands_append as bs
  refine ⟨fun cmd hcmd => h.newMarket cmd (hs ▸ List.mem_append_left _ hcmd), ?_⟩
  have hn := h.fresh
  rw [hs, List.map_append] at hn
  exact (List.nodup_append.mp hn).1

/-! ## The three queues -/

/-- Each queue hands on what it is given, in order. -/
structure Queued (e : Move) : Prop where
  exchange : (matched e).map Prod.snd ++ e.post.toExchange
    = e.pre.toExchange ++ sentCommands [e.input]
  execution : e.out.orders ++ e.post.toExecution = e.pre.toExecution ++ sentCommands [e.input]
  reports : e.out.received ++ e.post.inFlight = e.pre.inFlight ++ e.out.published

theorem queued_step (commission : Int → UInt64 → Int) (maxFills : ℕ) (s : Pipeline) (a : Action) :
    Queued ⟨s, a, (s.step commission maxFills a).2, (s.step commission maxFills a).1⟩ := by
  cases a with
  | send cmd => constructor <;> simp [Pipeline.step, Pipeline.inFlight, matched, sentCommands]
  | take =>
      cases ho : s.outbox <;> cases hq : s.toExchange <;> constructor <;>
        simp [Pipeline.step, Pipeline.turn, Pipeline.inFlight, matched, sentCommands, ho, hq]
  | round d =>
      cases ho : s.outbox <;> constructor <;>
        simp [Pipeline.step, Pipeline.turn, Pipeline.inFlight, matched, sentCommands, ho]
  | publish =>
      cases ho : s.outbox <;> constructor <;>
        simp [Pipeline.step, Pipeline.inFlight, matched, sentCommands, ho]
  | receive =>
      cases hp : s.execution.phase <;> cases hx : s.toExecution <;> cases hr : s.reports <;>
        constructor <;>
          simp [Pipeline.step, Pipeline.receive, Pipeline.inFlight, matched, sentCommands, hp, hx,
            hr]

section Runs

variable {ds : List Draws} {as : List Action}

theorem queued_of_mem {s : Pipeline} {e : Move}
    (he : e ∈ Mealy.trace (Pipeline.step commission maxFills) s as) : Queued e := by
  have hstep := Mealy.step_of_mem_trace he
  have h := queued_step commission maxFills e.pre e.input
  rw [hstep] at h
  exact h

/-- The commands sent along a trace. -/
theorem sent_trace (commission : Int → UInt64 → Int) (maxFills : ℕ) (s : Pipeline)
    (as : List Action) :
    (Mealy.trace (Pipeline.step commission maxFills) s as).flatMap (fun e => sentCommands [e.input])
      = sentCommands as := by
  conv_rhs => rw [← Mealy.map_input_trace (Pipeline.step commission maxFills) s as]
  rw [sentCommands, List.flatMap_map]
  simp only [sentCommands, List.flatMap_singleton]

/-- **The queues over a run.**  Commands sent are taken by the exchange and received by the
execution stage, and reports published are received, in order. -/
theorem queues_trace (commission : Int → UInt64 → Int) (maxFills : ℕ) (ds : List Draws)
    (as : List Action) :
    let tr := Mealy.trace (Pipeline.step commission maxFills) (Pipeline.start ds) as
    let s := Mealy.exec (Pipeline.step commission maxFills) (Pipeline.start ds) as
    (matchedOf tr).map Prod.snd ++ s.toExchange = sentCommands as ∧
      ordersOf tr ++ s.toExecution = sentCommands as ∧
      receivedOf tr ++ s.inFlight
        = publishedOf tr := by
  intro tr s
  have hsent := sent_trace commission maxFills (Pipeline.start ds) as
  refine ⟨?_, ?_, ?_⟩
  · rw [List.map_flatMap, Mealy.fifo Pipeline.toExchange (fun e => sentCommands [e.input])
      (fun e => (matched e).map Prod.snd) fun e he => (queued_of_mem he).exchange, hsent]
    rfl
  · rw [Mealy.fifo Pipeline.toExecution (fun e => sentCommands [e.input])
      (fun e => e.out.orders) fun e he => (queued_of_mem he).execution, hsent]
    rfl
  · rw [Mealy.fifo Pipeline.inFlight (fun e => e.out.published)
      (fun e => e.out.received) fun e he => (queued_of_mem he).reports]
    rfl

/-! ## What the exchange publishes -/

/-- What a step can do to the exchange: nothing, or one of its turns. -/
theorem exchange_cases (commission : Int → UInt64 → Int) (maxFills : ℕ) (s : Pipeline)
    (a : Action) :
    ((s.step commission maxFills a).1.exchange = s.exchange ∧
        ∀ ev t, (s.step commission maxFills a).2 ≠ Seen.turn ev t) ∨
      ∃ ev, (s.step commission maxFills a).1.exchange = (s.exchange.step commission ev).1 ∧
        (s.step commission maxFills a).2 = Seen.turn ev (s.exchange.step commission ev).2 ∧
        ∀ cmd, ev = Event.order cmd → cmd ∈ s.toExchange := by
  cases a with
  | send cmd => exact Or.inl ⟨rfl, nofun⟩
  | take =>
      cases ho : s.outbox with
      | cons r rest =>
          refine Or.inl ?_
          simp [Pipeline.step, ho]
      | nil =>
          cases hx : s.toExchange with
          | nil =>
              refine Or.inl ?_
              simp [Pipeline.step, ho, hx]
          | cons cmd rest =>
              refine Or.inr ⟨Event.order cmd, ?_, ?_, ?_⟩
              · simp [Pipeline.step, Pipeline.turn, ho, hx]
              · simp [Pipeline.step, Pipeline.turn, ho, hx]
              · rintro _ ⟨⟩
                exact List.mem_cons_self
  | round d =>
      cases ho : s.outbox with
      | cons r rest =>
          refine Or.inl ?_
          simp [Pipeline.step, ho]
      | nil =>
          refine Or.inr ⟨Event.round d, ?_, ?_, nofun⟩
          · simp [Pipeline.step, Pipeline.turn, ho]
          · simp [Pipeline.step, Pipeline.turn, ho]
  | publish =>
      refine Or.inl ?_
      cases ho : s.outbox <;> simp [Pipeline.step, ho]
  | receive =>
      refine Or.inl ?_
      cases hp : s.execution.phase <;> cases hx : s.toExecution <;> cases hr : s.reports <;>
        simp [Pipeline.step, Pipeline.receive, hp, hx, hr]

/-- In a marketable run only market orders wait for the exchange, and its book stays quiet. -/
theorem quiet_trace (h : Marketable as) :
    ∀ e ∈ Mealy.trace (Pipeline.step commission maxFills) (Pipeline.start ds) as,
      e.pre.exchange.Quiet ∧ ∀ cmd ∈ e.pre.toExchange, cmd.IsNewMarket := by
  have hstep : ∀ (s : Pipeline) (a : Action),
      (s.exchange.Quiet ∧ ∀ cmd ∈ s.toExchange, cmd.IsNewMarket) →
      (∀ cmd ∈ sentCommands [a], cmd.IsNewMarket) →
      (s.step commission maxFills a).1.exchange.Quiet ∧
        ∀ cmd ∈ (s.step commission maxFills a).1.toExchange, cmd.IsNewMarket := by
    intro s a ⟨hq, hm⟩ ha
    refine ⟨?_, fun cmd hcmd => ?_⟩
    · rcases exchange_cases commission maxFills s a with ⟨he, -⟩ | ⟨ev, he, -, hev⟩
      · exact he ▸ hq
      · exact he ▸ quiet_step hq fun cmd hcmd => hm cmd (hev cmd hcmd)
    · have hmem := (queued_step commission maxFills s a).exchange ▸
        List.mem_append_right _ hcmd
      rcases List.mem_append.mp hmem with h | h
      · exact hm cmd h
      · exact ha cmd h
  intro e he
  refine ((Mealy.invariant hstep ⟨quiet_primed ds, fun _ hc => absurd hc List.not_mem_nil⟩
    fun e he cmd hcmd => ?_).2 e he).1
  refine h.newMarket cmd ?_
  rw [← sent_trace commission maxFills (Pipeline.start ds) as]
  exact List.mem_flatMap_of_mem he hcmd

theorem published_of_mem (h : Marketable as) {e : Move}
    (he : e ∈ Mealy.trace (Pipeline.step commission maxFills) (Pipeline.start ds) as) :
    e.out.published = (matched e).flatMap (marketReports commission) ∧
      ∀ p ∈ matched e, p.1.LiveLevels ∧ p.2.IsNewMarket := by
  obtain ⟨hq, hm⟩ := quiet_trace h e he
  have hout : (Pipeline.step commission maxFills e.pre e.input).2 = e.out :=
    congrArg Prod.snd (Mealy.step_of_mem_trace he)
  rcases exchange_cases commission maxFills e.pre e.input with ⟨-, hno⟩ | ⟨ev, -, ht, hev⟩
  · rw [hout] at hno
    cases heo : e.out with
    | turn ev t => exact absurd heo (hno ev t)
    | nothing => simp [matched, heo]
    | order cmd => simp [matched, heo]
    | report r v => simp [matched, heo]
  · rw [hout] at ht
    cases ev with
    | order cmd =>
        have hmk := hm cmd (hev cmd rfl)
        simp only [matched, ht, Seen.published, List.flatMap_singleton, List.mem_singleton]
        refine ⟨reports_market hq hmk, ?_⟩
        rintro p rfl
        exact ⟨hq.sound.live, hmk⟩
    | round d =>
        simp only [matched, ht, Seen.published, List.flatMap_nil]
        exact ⟨reports_round hq d, fun p hp => absurd hp List.not_mem_nil⟩

/-- The reports of a market order: its own, partial or filled, and none after the filled one. -/
theorem marketReports_spec {p : Book × OrderCommand} (hlive : p.1.LiveLevels) :
    (∀ r ∈ marketReports commission p, r.orderId = p.2.orderId ∧ (r.status = 1 ∨ r.status = 2)) ∧
      (marketReports commission p).Pairwise fun r _ => r.status ≠ 2 := by
  refine ⟨fun r hr => ?_, ?_⟩
  · obtain ⟨f, hf, rfl⟩ := List.mem_map.mp hr
    refine ⟨(submit_isBy _ hlive f hf).1, ?_⟩
    by_cases h0 : f.takerRemainingAfter = 0
    · exact Or.inr (if_pos h0)
    · exact Or.inl (if_neg h0)
  · refine List.pairwise_map.mpr ((terminal_fills p.2.newOrder hlive).1.imp fun h0 => ?_)
    simp [Fill.takerReport, h0]

/-- **What the exchange publishes** in a marketable run. -/
theorem published_trace (commission : Int → UInt64 → Int) (maxFills : ℕ) (ds : List Draws)
    (h : Marketable as) :
    let tr := Mealy.trace (Pipeline.step commission maxFills) (Pipeline.start ds) as
    publishedOf tr
        = (matchedOf tr).flatMap (marketReports commission) ∧
      (∀ p ∈ matchedOf tr, p.1.LiveLevels ∧ p.2.IsNewMarket) ∧
      (∀ r ∈ publishedOf tr,
        (r.status = 1 ∨ r.status = 2) ∧ ∃ cmd ∈ sentCommands as, cmd.orderId = r.orderId) ∧
      (publishedOf tr).Pairwise fun r r' =>
        r.status = 2 → r'.orderId ≠ r.orderId := by
  intro tr
  have hpub : publishedOf tr
      = (matchedOf tr).flatMap (marketReports commission) := by
    rw [List.flatMap_assoc]
    exact List.flatMap_congr fun e he => (published_of_mem h he).1
  have hlive : ∀ p ∈ matchedOf tr, p.1.LiveLevels ∧ p.2.IsNewMarket := by
    intro p hp
    obtain ⟨e, he, hpe⟩ := List.mem_flatMap.mp hp
    exact (published_of_mem h he).2 p hpe
  have hsent := (queues_trace commission maxFills ds as).1
  have hids : (matchedOf tr).Pairwise fun p p' => p.2.orderId ≠ p'.2.orderId := by
    have hn := h.fresh
    rw [← hsent, List.map_append] at hn
    simpa [List.Nodup, List.pairwise_map] using (List.nodup_append.mp hn).1
  refine ⟨hpub, hlive, fun r hr => ?_, ?_⟩
  · rw [hpub] at hr
    obtain ⟨p, hp, hrp⟩ := List.mem_flatMap.mp hr
    obtain ⟨hid, hst⟩ := (marketReports_spec (hlive p hp).1).1 r hrp
    refine ⟨hst, p.2, ?_, hid.symm⟩
    rw [← hsent]
    exact List.mem_append_left _ (List.mem_map_of_mem hp)
  · rw [hpub, List.pairwise_flatMap]
    refine ⟨fun p hp => (marketReports_spec (hlive p hp).1).2.imp fun h2 h2' => absurd h2' h2, ?_⟩
    refine hids.imp_of_mem fun {p p'} hp hp' hne r hr r' hr' _ heq => hne ?_
    rw [← ((marketReports_spec (hlive p hp).1).1 r hr).1,
      ← ((marketReports_spec (hlive p' hp').1).1 r' hr').1, heq]

/-! ## Contexts -/

/-- What a step can do to the execution stage: at most change its phase, receive a command, or
book a report. -/
theorem execution_cases (commission : Int → UInt64 → Int) (maxFills : ℕ) (s : Pipeline)
    (a : Action) :
    (∃ ph, (s.step commission maxFills a).1.execution = { s.execution with phase := ph } ∧
        (s.step commission maxFills a).2.orders = [] ∧
        (s.step commission maxFills a).2.booked = []) ∨
      (∃ cmd rest, s.toExecution = cmd :: rest ∧
        (s.step commission maxFills a).2 = Seen.order cmd ∧
        (s.step commission maxFills a).1.execution = s.execution.order cmd) ∨
      ∃ r ctx, s.execution.orderCtx[r.orderId]? = some ctx ∧
        (s.step commission maxFills a).2 = Seen.report r Verdict.booked ∧
        (s.step commission maxFills a).1.execution = s.execution.book maxFills r ctx := by
  cases a with
  | send cmd => exact Or.inl ⟨s.execution.phase, rfl, rfl, rfl⟩
  | take =>
      refine Or.inl ⟨s.execution.phase, ?_⟩
      cases ho : s.outbox <;> cases hx : s.toExchange <;>
        simp [Pipeline.step, Pipeline.turn, ho, hx]
  | round d =>
      refine Or.inl ⟨s.execution.phase, ?_⟩
      cases ho : s.outbox <;> simp [Pipeline.step, Pipeline.turn, ho]
  | publish =>
      refine Or.inl ⟨s.execution.phase, ?_⟩
      cases ho : s.outbox <;> simp [Pipeline.step, ho]
  | receive =>
      cases hp : s.execution.phase with
      | stopped =>
          refine Or.inl ⟨s.execution.phase, ?_⟩
          simp only [Pipeline.step, Pipeline.receive, hp, Seen.orders, Seen.booked, and_self,
            and_true]
          rw [← hp]
      | draining =>
          cases hx : s.toExecution with
          | nil => exact Or.inl ⟨Phase.reporting, by simp [Pipeline.step, Pipeline.receive, hp, hx]⟩
          | cons cmd rest =>
              exact Or.inr (Or.inl ⟨cmd, rest, rfl, by
                simp [Pipeline.step, Pipeline.receive, hp, hx]⟩)
      | reporting =>
          cases hr : s.reports with
          | nil => exact Or.inl ⟨Phase.draining, by simp [Pipeline.step, Pipeline.receive, hp, hr]⟩
          | cons r rest =>
              simp only [Pipeline.step, Pipeline.receive, hp, hr, Execution.report]
              by_cases hst : r.status ≠ 1 ∧ r.status ≠ 2
              · exact Or.inl ⟨Phase.draining, by simp [hst]⟩
              · cases hc : s.execution.orderCtx[r.orderId]? with
                | none => exact Or.inl ⟨Phase.draining, by simp [hst]⟩
                | some ctx => exact Or.inr (Or.inr ⟨r, ctx, hc, by simp [hst]⟩)

/-- The contexts once the commands `cmds` are received and the reports `rs` booked: those of the
commands with no terminal report. -/
structure Contexts (cmds : List OrderCommand) (rs : List ExecutionReport) (x : Execution) :
    Prop where
  lookup : ∀ id ctx, x.orderCtx[id]? = some ctx ↔
    ∃ cmd ∈ cmds, cmd.orderId = id ∧ ctx = (cmd.originTs, cmd.side) ∧
      ∀ r ∈ rs, r.status = 2 → r.orderId ≠ id
  booked : ∀ r ∈ rs, ∃ cmd ∈ cmds, cmd.orderId = r.orderId

namespace Contexts

variable {cmds : List OrderCommand} {rs : List ExecutionReport} {x : Execution}

/-- Receiving a new command adds its context. -/
theorem order (h : Contexts cmds rs x) {cmd : OrderCommand}
    (hnew : ∀ c ∈ cmds, c.orderId ≠ cmd.orderId) :
    Contexts (cmds ++ [cmd]) rs (x.order cmd) := by
  refine ⟨fun id ctx => ?_, fun r hr => ?_⟩
  · rw [Execution.order, ExtTreeMap.getElem?_insert]
    by_cases hid : cmd.orderId = id
    · -- the command is new, so no report of it has been booked
      rw [if_pos (Std.LawfulEqOrd.compare_eq_iff_eq.mpr hid)]
      constructor
      · rintro ⟨⟩
        refine ⟨cmd, by simp, hid, rfl, fun r hr _ heq => ?_⟩
        obtain ⟨c, hc, hcid⟩ := h.booked r hr
        exact hnew c hc (hcid.trans (heq.trans hid.symm))
      · rintro ⟨c, hc, hcid, rfl, -⟩
        rcases List.mem_append.mp hc with hc | hc
        · exact absurd (hcid.trans hid.symm) (hnew c hc)
        · rw [List.mem_singleton.mp hc]
    · rw [if_neg fun hcmp => hid (Std.LawfulEqOrd.compare_eq_iff_eq.mp hcmp), h.lookup]
      constructor
      · rintro ⟨c, hc, hrest⟩
        exact ⟨c, List.mem_append_left _ hc, hrest⟩
      · rintro ⟨c, hc, hcid, hrest⟩
        rcases List.mem_append.mp hc with hc | hc
        · exact ⟨c, hc, hcid, hrest⟩
        · rw [List.mem_singleton.mp hc] at hcid
          exact absurd hcid hid
  · obtain ⟨c, hc, hcid⟩ := h.booked r hr
    exact ⟨c, List.mem_append_left _ hc, hcid⟩

/-- Booking a report drops its order's context if it is terminal. -/
theorem book (h : Contexts cmds rs x) {r : ExecutionReport} {ctx : UInt64 × UInt8}
    (hctx : x.orderCtx[r.orderId]? = some ctx) :
    Contexts cmds (rs ++ [r]) (x.book maxFills r ctx) := by
  refine ⟨fun id ctx' => ?_, fun r' hr' => ?_⟩
  · have hsplit : (∀ r' ∈ rs ++ [r], r'.status = 2 → r'.orderId ≠ id) ↔
        (∀ r' ∈ rs, r'.status = 2 → r'.orderId ≠ id) ∧ (r.status = 2 → r.orderId ≠ id) := by
      rw [List.forall_mem_append, List.forall_mem_singleton]
    rw [Execution.book, hsplit]
    by_cases h2 : r.status = 2
    · rw [if_pos h2, ExtTreeMap.getElem?_erase]
      by_cases hid : r.orderId = id
      · simp [hid, h2]
      · rw [if_neg fun hcmp => hid (Std.LawfulEqOrd.compare_eq_iff_eq.mp hcmp), h.lookup]
        simp [hid]
    · rw [if_neg h2, h.lookup]
      simp [h2]
  · rcases List.mem_append.mp hr' with hr' | hr'
    · exact h.booked r' hr'
    · obtain ⟨c, hc, hcid, -⟩ := (h.lookup _ _).mp hctx
      rw [List.mem_singleton.mp hr']
      exact ⟨c, hc, hcid⟩

end Contexts

/-- A command that is still queued has an id of its own. -/
theorem received_ne_queued (h : Marketable as) {s : Pipeline}
    (hs : s = Mealy.exec (Pipeline.step commission maxFills) (Pipeline.start ds) as)
    {c cmd : OrderCommand} (hcmd : cmd ∈ s.toExecution)
    (hc : c ∈ ordersOf (Mealy.trace (Pipeline.step commission maxFills) (Pipeline.start ds) as)) :
    c.orderId ≠ cmd.orderId := by
  have hn := h.fresh
  rw [← (queues_trace commission maxFills ds as).2.1, List.map_append, ← hs] at hn
  exact (List.nodup_append.mp hn).2.2 _ (List.mem_map_of_mem hc) _ (List.mem_map_of_mem hcmd)

/-- **The contexts over a run.** -/
theorem contexts_trace (commission : Int → UInt64 → Int) (maxFills : ℕ) (ds : List Draws)
    (h : Marketable as) :
    let tr := Mealy.trace (Pipeline.step commission maxFills) (Pipeline.start ds) as
    Contexts (ordersOf tr) (bookedOf tr)
      (Mealy.exec (Pipeline.step commission maxFills) (Pipeline.start ds) as).execution := by
  intro tr
  refine Mealy.history_invariant
    (J := fun (h : List Move) (s : Pipeline) => Contexts (ordersOf h) (bookedOf h) s.execution)
    (g := fun (h : List Move) (s : Pipeline) _ => ∀ cmd rest, s.toExecution = cmd :: rest →
      ∀ c ∈ ordersOf h, c.orderId ≠ cmd.orderId)
    (fun h s a hc hfresh => ?_) as ?_ fun h₁ e h₂ he => ?_
  · simp only [List.flatMap_append, List.flatMap_singleton]
    rcases execution_cases commission maxFills s a with
      ⟨ph, hx, ho, hb⟩ | ⟨cmd, rest, hq, ho, hx⟩ | ⟨r, ctx, hctx, ho, hx⟩
    · rw [ho, hb, hx, List.append_nil, List.append_nil]
      exact ⟨hc.lookup, hc.booked⟩
    · simp only [ho, hx, Seen.orders, Seen.booked, List.append_nil]
      exact hc.order (hfresh cmd rest hq)
    · simp only [ho, hx, Seen.orders, Seen.booked, List.append_nil]
      exact hc.book hctx
  · exact ⟨fun id ctx => by simp [Pipeline.start, Execution.new], nofun⟩
  · obtain ⟨as₁, as₂, rfl, rfl, hpre, -, -⟩ := Mealy.trace_split he
    intro cmd rest hx c hc
    exact received_ne_queued h.left hpre (hx ▸ List.mem_cons_self) hc

/-! ## Verdicts -/

theorem booked_subset_received {tr : List Move} : bookedOf tr ⊆ receivedOf tr := by
  intro r hr
  obtain ⟨e, he, hre⟩ := List.mem_flatMap.mp hr
  refine List.mem_flatMap.mpr ⟨e, he, ?_⟩
  cases ho : e.out with
  | report r' v => cases v <;> simp_all
  | nothing => simp_all
  | turn ev t => simp_all
  | order cmd => simp_all

/-- A command that is still queued has no context. -/
theorem ctx_of_queued (h : Marketable as) {s : Pipeline}
    (hs : s = Mealy.exec (Pipeline.step commission maxFills) (Pipeline.start ds) as)
    {cmd : OrderCommand} (hcmd : cmd ∈ s.toExecution) :
    s.execution.orderCtx[cmd.orderId]? = none := by
  have hlookup := (contexts_trace commission maxFills ds h).lookup
  rw [← hs] at hlookup
  rw [Option.eq_none_iff_forall_ne_some]
  intro ctx hctx
  obtain ⟨c, hc, hid, -⟩ := (hlookup _ _).mp hctx
  exact received_ne_queued h hs hcmd hc hid

/-- A command that has been received has its context until its terminal report comes. -/
theorem ctx_of_received (h : Marketable as) {s : Pipeline}
    (hs : s = Mealy.exec (Pipeline.step commission maxFills) (Pipeline.start ds) as)
    {cmd : OrderCommand}
    (hcmd : cmd ∈ ordersOf (Mealy.trace (Pipeline.step commission maxFills) (Pipeline.start ds) as))
    (hterm : ∀ r ∈ receivedOf (Mealy.trace (Pipeline.step commission maxFills)
      (Pipeline.start ds) as), r.status = 2 → r.orderId ≠ cmd.orderId) :
    s.execution.orderCtx[cmd.orderId]? = some (cmd.originTs, cmd.side) := by
  rw [hs]
  exact ((contexts_trace commission maxFills ds h).lookup _ _).mpr
    ⟨cmd, hcmd, rfl, rfl, fun r hr => hterm r (booked_subset_received hr)⟩

/-- **The verdict on the next report** is decided by the command queue alone. -/
theorem verdict_of_queued (h : Marketable as) {r : ExecutionReport} {rest : List ExecutionReport}
    {s : Pipeline} (hs : s = Mealy.exec (Pipeline.step commission maxFills) (Pipeline.start ds) as)
    (hr : s.reports = r :: rest) :
    (s.execution.report maxFills r).2
      = if ∃ cmd ∈ s.toExecution, cmd.orderId = r.orderId then Verdict.discarded
        else Verdict.booked := by
  obtain ⟨-, -, hpub, hpair⟩ := published_trace commission maxFills ds h
  obtain ⟨-, hsent, hflow⟩ := queues_trace commission maxFills ds as
  rw [← hs, Pipeline.inFlight, hr, List.cons_append] at hflow
  rw [← hflow] at hpub hpair
  rw [← hs] at hsent
  obtain ⟨hst, cmd, hcmd, hid⟩ := hpub r (by simp)
  have hnot : ¬ (r.status ≠ 1 ∧ r.status ≠ 2) := by
    rintro ⟨h1, h2⟩
    exact hst.elim h1 h2
  rw [Execution.report, if_neg hnot]
  by_cases hq : ∃ c ∈ s.toExecution, c.orderId = r.orderId
  · obtain ⟨c, hc, hcid⟩ := hq
    rw [if_pos ⟨c, hc, hcid⟩, ← hcid, ctx_of_queued h hs hc]
  · -- the command has been received, and no terminal report of it came before this one
    have hreceived := (List.mem_append.mp (hsent ▸ hcmd)).resolve_right fun hc => hq ⟨cmd, hc, hid⟩
    have hctx := ctx_of_received h hs hreceived fun r' hr' h2 heq =>
      (List.pairwise_append.mp hpair).2.2 r' hr' r List.mem_cons_self h2 (hid.symm.trans heq.symm)
    rw [if_neg hq, ← hid, hctx]

/-- A step that receives a report leaves its verdict. -/
theorem received_cases {s : Pipeline} {a : Action} {r : ExecutionReport} {v : Verdict}
    (h : (s.step commission maxFills a).2 = Seen.report r v) :
    a = Action.receive ∧ s.execution.phase = Phase.reporting ∧
      (∃ rest, s.reports = r :: rest) ∧ (s.execution.report maxFills r).2 = v := by
  cases a with
  | send cmd => cases h
  | take =>
      cases ho : s.outbox <;> cases hx : s.toExchange <;>
        simp [Pipeline.step, Pipeline.turn, ho, hx] at h
  | round d => cases ho : s.outbox <;> simp [Pipeline.step, Pipeline.turn, ho] at h
  | publish => cases ho : s.outbox <;> simp [Pipeline.step, ho] at h
  | receive =>
      cases hp : s.execution.phase <;> cases hx : s.toExecution <;> cases hr : s.reports <;>
        simp [Pipeline.step, Pipeline.receive, hp, hx, hr] at h
      all_goals
        obtain ⟨rfl, rfl⟩ := h
        exact ⟨rfl, rfl, ⟨_, rfl⟩, rfl⟩

/-- In a marketable run a report is discarded exactly when it has overtaken its command, and
booked otherwise. -/
theorem verdict_of_mem (h : Marketable as) {e : Move}
    (he : e ∈ Mealy.trace (Pipeline.step commission maxFills) (Pipeline.start ds) as)
    {r : ExecutionReport} {v : Verdict} (hout : e.out = Seen.report r v) :
    (e.pre.Overtaken e.input → v = Verdict.discarded) ∧
      (¬ e.pre.Overtaken e.input → v = Verdict.booked) := by
  obtain ⟨h₁, h₂, hsplit⟩ := List.append_of_mem he
  obtain ⟨as₁, as₂, rfl, -, hpre, -, hstep⟩ := Mealy.trace_split hsplit
  obtain ⟨hin, hphase, ⟨rest, hreports⟩, hv⟩ :=
    received_cases ((congrArg Prod.snd hstep).trans hout)
  rw [verdict_of_queued h.left hpre hreports] at hv
  have hiff : e.pre.Overtaken e.input ↔ ∃ cmd ∈ e.pre.toExecution, cmd.orderId = r.orderId := by
    simp [Pipeline.Overtaken, hin, hphase, hreports]
  rw [hiff, ← hv]
  exact ⟨fun hq => if_pos hq, fun hq => if_neg hq⟩

theorem out_of_overtaken (commission : Int → UInt64 → Int) (maxFills : ℕ) {s : Pipeline}
    {a : Action} (h : s.Overtaken a) :
    ∃ r v, (s.step commission maxFills a).2 = Seen.report r v := by
  obtain ⟨rfl, hp, r, hr, -⟩ := h
  obtain ⟨rest, hreports⟩ := List.head?_eq_some_iff.mp hr
  exact ⟨r, (s.execution.report maxFills r).2, by
    simp only [Pipeline.step, Pipeline.receive, hp, hreports]⟩

/-- **Every fill finds its context** in a marketable run if and only if no report overtakes its
command. -/
theorem fills_find_context (commission : Int → UInt64 → Int) (maxFills : ℕ) (ds : List Draws)
    (as : List Action) (h : Marketable as) :
    (∀ r, Seen.report r Verdict.discarded ∉
        Mealy.outs (Pipeline.step commission maxFills) (Pipeline.start ds) as) ↔
      ∀ e ∈ Mealy.trace (Pipeline.step commission maxFills) (Pipeline.start ds) as,
        ¬ e.pre.Overtaken e.input := by
  constructor
  · intro hall e he hover
    have hstep := Mealy.step_of_mem_trace he
    obtain ⟨r, v, hout⟩ := out_of_overtaken commission maxFills hover
    rw [hstep] at hout
    have hv : v = Verdict.discarded := (verdict_of_mem h he hout).1 hover
    exact hall r (hv ▸ hout ▸ List.mem_map_of_mem he)
  · intro hno r hr
    obtain ⟨e, he, hout⟩ := List.mem_map.mp hr
    exact absurd ((verdict_of_mem h he hout).2 (hno e he)) nofun

/-- A market buy of one unit. -/
def buyOne : OrderCommand := ⟨1, 0, 100000000, 0, 0, 0, 0⟩

/-- A run in which the command is received before its fill. -/
def inOrder : List Action :=
  [Action.send buyOne, Action.take, Action.publish, Action.round calmRound, Action.receive,
    Action.receive, Action.receive]

theorem fills_find_context_run :
    Marketable inOrder ∧ ∀ r, Seen.report r Verdict.discarded ∉
      Mealy.outs (Pipeline.step oneBp 0) (Pipeline.start (List.replicate 64 calmRound)) inOrder := by
  have hmarket : Marketable inOrder := ⟨by decide, by decide⟩
  exact ⟨hmarket, (fills_find_context oneBp 0 _ inOrder hmarket).mpr (by decide +kernel)⟩

/-- A run in which the execution stage finds no command and turns to the reports, and only then
the command is sent and matched and its fill published: the fill is received first. -/
def outOfOrder : List Action :=
  [Action.receive, Action.send buyOne, Action.take, Action.publish, Action.receive]

theorem fill_overtakes_command :
    Marketable outOfOrder ∧
      Seen.report ⟨1, 1, 5000100000000, 100000000, 0, 500010000, 2, 0⟩ Verdict.discarded ∈
        Mealy.outs (Pipeline.step oneBp 0) (Pipeline.start (List.replicate 64 calmRound))
          outOfOrder :=
  ⟨⟨by decide, by decide⟩, by decide +kernel⟩

end Runs

end HotpathIpc
