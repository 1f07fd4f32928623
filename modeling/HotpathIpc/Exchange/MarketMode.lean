import HotpathIpc.Exchange.Reporting

/-!
# Marketable mode

When all strategy commands are new market orders, none of them ever rests, so every resting order
is synthetic (`Exchange.Quiet`).  Then a round publishes nothing (`reports_round`), and a command's
turn publishes one report per fill of its own order:

* **`sum_fills_market`** — they add up to the commanded quantity less the rejected remainder;
* **`terminal_fills`** — only the last one can be terminal, and one is exactly if a positive order
  is filled.
-/

namespace HotpathIpc

variable {commission : Int → UInt64 → Int}

/-- A new market order. -/
def OrderCommand.IsNewMarket (cmd : OrderCommand) : Prop := cmd.action = 0 ∧ cmd.orderType = 0

instance (cmd : OrderCommand) : Decidable cmd.IsNewMarket :=
  inferInstanceAs (Decidable (_ ∧ _))

/-- A sound book in which only synthetic orders rest. -/
structure Exchange.Quiet (x : Exchange) : Prop where
  sound : x.book.Sound
  synthetic : ∀ y ∈ x.book.orders, y.1.isSynthetic = true

theorem quiet_primed (ds : List Draws) : (Exchange.primed ds).Quiet := by
  obtain ⟨cs, hbook, hcs⟩ := primed_book ds
  refine ⟨hbook ▸ sound_exec cs, ?_⟩
  rw [hbook]
  exact (orders_trace (P := fun _ syn => syn = true) sound_new
    (fun x hx => absurd hx List.not_mem_nil) fun o ho => (hcs o ho).1).1

/-- In marketable mode a command is one submit of a market order. -/
theorem match_newMarket {cmd : OrderCommand} (h : cmd.IsNewMarket) (b : Book) :
    b.matchStrategyOrder cmd = b.submit cmd.newOrder := by
  have h1 : ¬ cmd.action = 1 := by rw [h.1]; decide
  have h2 : ¬ cmd.action = 2 := by rw [h.1]; decide
  rw [Book.matchStrategyOrder, if_neg h1, Book.before, if_neg h2]

theorem isLimit_newMarket {cmd : OrderCommand} (h : cmd.IsNewMarket) :
    cmd.newOrder.isLimit = false := by
  simp [OrderCommand.newOrder, h.2]

theorem quiet_step {x : Exchange} {ev : Event} (h : x.Quiet)
    (hev : ∀ cmd, ev = Event.order cmd → cmd.IsNewMarket) : (x.step commission ev).1.Quiet := by
  have hlive := h.sound.live
  refine ⟨?_, ?_⟩
  · rw [step_book]
    exact (sound_run h.sound _).1
  · cases ev with
    | round d =>
        rw [step_book]
        exact (orders_trace (P := fun _ syn => syn = true) h.sound h.synthetic
          fun o ho => (synthetic_of_mem_calls ho).1).1
    | order cmd =>
        intro y hy
        have hm := hev cmd rfl
        have hbook : (x.step commission (Event.order cmd)).1.book
            = (x.book.crossAll cmd.newOrder).book := by
          rw [Exchange.step, match_newMarket hm]
          exact submit_market _ _ (isLimit_newMarket hm)
        rw [hbook] at hy
        obtain ⟨z, hz, heq⟩ := List.mem_map.mp (mem_orders_crossAll hlive y hy)
        rw [← heq]
        exact h.synthetic z hz

/-! ## What a turn publishes -/

/-- The report stream of a round is empty: it reports strategy makers, and there are none. -/
theorem reports_round {x : Exchange} (h : x.Quiet) (d : Draws) :
    (x.step commission (Event.round d)).2.reports = [] := by
  have hmaker : ∀ f ∈ (x.step commission (Event.round d)).2.fills, f.makerIsSynthetic = true := by
    intro f hf
    rw [step_fills] at hf
    obtain ⟨e, he, hfe⟩ := List.mem_flatMap.mp hf
    have hsound : e.pre.Sound := ((sound_run h.sound _).2 e he).1
    have hall := (orders_trace (P := fun _ syn => syn = true) h.sound h.synthetic
      fun o ho => (synthetic_of_mem_calls ho).1).2 e he
    have hstep := Mealy.step_of_mem_trace he
    cases hcall : e.input with
    | cancel id =>
        rw [hcall] at hstep
        rw [← (Prod.mk.inj hstep).2] at hfe
        exact absurd hfe List.not_mem_nil
    | submit o =>
        rw [hcall] at hstep
        rw [← (Prod.mk.inj hstep).2] at hfe
        obtain ⟨n, hn⟩ := maker_mem_orders hsound.live hfe
        exact hall _ hn
  have hnil : (x.step commission (Event.round d)).2.reports
      = publishStrategyMakerFills commission (x.step commission (Event.round d)).2.fills := rfl
  rw [hnil, publishStrategyMakerFills, List.filter_eq_nil_iff.mpr fun f hf => by
    rw [hmaker f hf]; decide]
  rfl

/-- A command's turn publishes the report of each fill of its order. -/
theorem reports_market {x : Exchange} (h : x.Quiet) {cmd : OrderCommand} (hm : cmd.IsNewMarket) :
    (x.step commission (Event.order cmd)).2.reports
      = (x.book.submit cmd.newOrder).2.1.map (Fill.takerReport commission) := by
  have hown : ∀ f ∈ (x.book.submit cmd.newOrder).2.1, (!f.takerIsSynthetic) = true := by
    intro f hf
    rw [(submit_isBy _ h.sound.live f hf).2.2]
    rfl
  rw [Exchange.step, match_newMarket hm]
  simp only [publishFills]
  rw [List.filter_eq_self.mpr hown]

/-- The market remainder of `o` that the book rejects. -/
def Book.rejectedRemainder (b : Book) (o : NewOrder) : ℕ :=
  if (b.submit o).2.2 = Outcome.rejected Reject.noLiquidity then (b.crossAll o).remaining.toNat
  else 0

theorem rejectedRemainder_eq {b : Book} {o : NewOrder} (hl : o.isLimit = false) :
    b.rejectedRemainder o = (b.crossAll o).remaining.toNat := by
  rw [Book.rejectedRemainder]
  rcases submit_cases b o with ⟨h0, he⟩ | ⟨-, -, he⟩ | ⟨-, hl', -⟩
  · rw [he, h0]
    exact if_neg (by simp)
  · rw [he]
    exact if_pos rfl
  · rw [hl] at hl'
    exact absurd hl' (by decide)

/-- **The fills of a market order** add up to what is not rejected. -/
theorem sum_fills_market {b : Book} {o : NewOrder} (hlive : b.LiveLevels)
    (hl : o.isLimit = false) :
    ((b.submit o).2.1.map fun f => f.quantity.toNat).sum + b.rejectedRemainder o
      = o.quantity.toNat := by
  have htaker := balance_taker o.orderId o hlive
  rw [if_pos rfl, Call.submittedQty, if_pos rfl, takerQty, List.filter_eq_self.mpr] at htaker
  · rw [submit_fills, rejectedRemainder_eq hl]
    exact htaker
  · intro f hf
    rw [← submit_fills] at hf
    simpa using (submit_isBy o hlive f hf).1

/-! ## The terminal report -/

/-- In a countdown of positive fills only the last one can end at nothing. -/
theorem descends_pairwise : ∀ {q : ℕ} {fs : List Fill}, Fill.Descends q fs →
    (∀ f ∈ fs, 0 < f.quantity) → fs.Pairwise fun f _ => f.takerRemainingAfter ≠ 0
  | _, [], _, _ => List.Pairwise.nil
  | _, [f], _, _ => List.pairwise_singleton _ _
  | _, f :: g :: fs, h, hpos => by
      refine List.pairwise_cons.mpr ⟨fun _ _ h0 => ?_,
        descends_pairwise h.2 fun k hk => hpos k (List.mem_cons_of_mem _ hk)⟩
      have hg := h.2.1
      have hq := hpos g (List.mem_cons_of_mem _ List.mem_cons_self)
      have hne : g.quantity.toNat ≠ 0 := fun e =>
        UInt64.pos_iff_ne_zero.mp hq (toNat_eq_zero.mp e)
      rw [toNat_eq_zero.mpr h0] at hg
      omega

/-- How often a list holds what only its last element can. -/
theorem countP_of_pairwise {α : Type*} {p : α → Bool} : ∀ {xs : List α},
    (xs.Pairwise fun x _ => p x = false) →
      xs.countP p = if (xs.getLast?.map p) = some true then 1 else 0
  | [], _ => by simp
  | [x], _ => by cases h : p x <;> simp [h]
  | x :: y :: xs, h => by
      obtain ⟨hx, htail⟩ := List.pairwise_cons.mp h
      rw [List.countP_cons_of_neg (by simpa using hx y List.mem_cons_self),
        countP_of_pairwise htail, List.getLast?_cons_cons]

theorem terminal_fills {b : Book} (o : NewOrder) (hlive : b.LiveLevels) :
    ((b.submit o).2.1.Pairwise fun f _ => f.takerRemainingAfter ≠ 0) ∧
      (b.submit o).2.1.countP (fun f => f.takerRemainingAfter = 0)
        = if o.quantity ≠ 0 ∧ (b.submit o).2.2 = Outcome.filled then 1 else 0 := by
  obtain ⟨hpos, hdesc, hfilled⟩ := fills_submit o hlive
  have hpair := descends_pairwise hdesc hpos
  refine ⟨hpair, ?_⟩
  rw [countP_of_pairwise (hpair.imp fun h => by simpa using h)]
  by_cases hq : o.quantity = 0
  · have hnil : (b.submit o).2.1 = [] := by
      have htakes := (crossAll_serves o hlive).fills
      rw [hq, show (0 : UInt64).toNat = 0 from rfl, Greedy.consume_zero, ← submit_fills] at htakes
      exact List.map_eq_nil_iff.mp htakes
    rw [hnil]
    simp [hq]
  · have hiff := hfilled hq
    refine if_congr ?_ rfl rfl
    rw [and_iff_right hq, hiff]
    cases (b.submit o).2.1.getLast? <;> simp

end HotpathIpc
