import HotpathIpc.Exchange.MarketData

/-!
# Which prices rest

A resting order keeps the price it was submitted at, so what holds of the prices of all limit
orders of a run holds of every price that rests in it (`priced_step`).  With the quantities bounded
as well, the books of a run are `Quotable`:

* `Exchange.Within` — a kept exchange with such prices and so much resting; `within_step` and
  `within_run` carry it along.
* **`quotable_run`** — from what the draws and the commands carry alone, every book after an
  iteration of the main loop is quotable.
-/

namespace HotpathIpc

open Greedy (supply)

/-- A price that a quote can carry. -/
def InRange (px : Int) : Prop := 0 < px ∧ px < 2 ^ 62

instance (px : Int) : Decidable (InRange px) := inferInstanceAs (Decidable (_ ∧ _))

/-! ## The book -/

/-- Whatever rests does so at such a price for its side. -/
def Book.Priced (P : Side → Int → Prop) (b : Book) : Prop :=
  ∀ x ∈ b.orders, P x.1.side x.1.price

/-- A call that can only leave an order at such a price. -/
def Call.Priced (P : Side → Int → Prop) : Call → Prop
  | Call.submit o => o.isLimit = true → P o.side o.limitPx
  | Call.cancel _ => True

variable {P : Side → Int → Prop}

/-- A submit leaves resting what rested before, or its limit order. -/
theorem tag_mem_submit {b : Book} {o : NewOrder} (hlive : b.LiveLevels) {x : MakerTag × ℕ}
    (hx : x ∈ (b.submit o).1.orders) : x.1 ∈ b.orders.map Prod.fst ∨
      (o.isLimit = true ∧ x.1 = ⟨o.side, o.limitPx, o.orderId, o.isSynthetic⟩) := by
  rcases submit_cases b o with ⟨-, he⟩ | ⟨-, -, he⟩ | ⟨-, hl, he⟩ <;> rw [he] at hx
  · exact Or.inl (mem_orders_crossAll hlive x hx)
  · exact Or.inl (mem_orders_crossAll hlive x hx)
  · rcases List.mem_cons.mp ((orders_rest _ o _).subset hx) with rfl | hx
    · exact Or.inr ⟨hl, rfl⟩
    · exact Or.inl (mem_orders_crossAll hlive x hx)

theorem priced_step {b : Book} {call : Call} (hlive : b.LiveLevels) (h : b.Priced P)
    (hcall : call.Priced P) : (b.step call).1.Priced P := by
  intro x hx
  have hold : x.1 ∈ b.orders.map Prod.fst → P x.1.side x.1.price := fun hmem => by
    obtain ⟨y, hy, heq⟩ := List.mem_map.mp hmem
    rw [← heq]
    exact h y hy
  cases call with
  | cancel id =>
      rcases mem_orders_step hlive hx with hmem | ⟨o, ho, -⟩
      · exact hold hmem
      · exact absurd ho (by simp)
  | submit o =>
      rcases tag_mem_submit hlive hx with hmem | ⟨hl, heq⟩
      · exact hold hmem
      · rw [heq]
        exact hcall hl

theorem priced_exec {cs : List Call} {b : Book} (hb : b.Sound) (h : b.Priced P)
    (hcs : ∀ call ∈ cs, call.Priced P) : (Mealy.exec Book.step b cs).Priced P := by
  have hguard : ∀ e ∈ Mealy.trace Book.step b cs, e.input.Priced P := fun e he => hcs _ (by
    rw [← Mealy.map_input_trace Book.step b cs]
    exact List.mem_map_of_mem he)
  exact (Mealy.invariant (I := fun c => c.Sound ∧ c.Priced P) (g := fun _ call => call.Priced P)
    (fun c call hc hcall => ⟨sound_step c call hc.1, priced_step hc.1.live hc.2 hcall⟩)
    ⟨hb, h⟩ hguard).1.2

/-- With positive prices in range and less than `2 ^ 64` resting, a book can be quoted. -/
theorem quotable_of_priced {b : Book} (hb : b.Sound) (h : b.Priced fun _ => InRange)
    (hsupply : supply b.orders < 2 ^ 64) : b.Quotable := by
  intro s x hx
  have hl := Book.mem_levels.mp hx
  obtain ⟨hne, -⟩ := hb.live s x.1 x.2 hl
  have hsize := queueSize_le_supply hl
  have hsides := supply_orders b s
  obtain ⟨m, hm⟩ := List.exists_mem_of_ne_nil _ hne
  have hmem : (m.tag s x.1, m.remaining.toNat) ∈ b.orders := by
    refine (orders_perm b s).symm.subset (List.mem_append_left _ ?_)
    exact List.mem_flatMap.mpr ⟨x, hx, List.mem_map_of_mem hm⟩
  obtain ⟨hpos, hlt⟩ := h _ hmem
  exact ⟨hpos, hlt, by omega⟩

/-! ## The exchange -/

/-- An event all of whose limit orders have such a price. -/
def Event.Priced (P : Side → Int → Prop) : Event → Prop
  | Event.order cmd => cmd.action ≠ 1 → cmd.orderType = 1 →
      P (Side.fromU8 cmd.side) cmd.priceTicks
  | Event.round d => P Side.buy d.bidPx ∧ P Side.sell d.askPx

/-- No event submits more: a round at most four units on each side and three that cross. -/
def Event.atMost : Event → ℕ
  | Event.order cmd => cmd.quantity.toNat
  | Event.round _ => 11 * scale

/-- A churn only cancels. -/
theorem mem_churnCalls {p : Participants} {draw : Option UInt64} {call : Call}
    (h : call ∈ p.churnCalls draw) : ∃ id, call = Call.cancel id := by
  unfold Participants.churnCalls at h
  cases hc : p.churned draw with
  | none =>
      rw [hc] at h
      exact absurd h List.not_mem_nil
  | some x =>
      rw [hc] at h
      exact ⟨x.1, List.mem_singleton.mp h⟩

/-- A round's limit orders are its two quotes. -/
theorem limitPx_of_mem_round {p : Participants} {d : Draws} {o : NewOrder}
    (h : Call.submit o ∈ p.calls d) (hl : o.isLimit = true) :
    (o.side = Side.buy ∧ o.limitPx = d.bidPx) ∨ (o.side = Side.sell ∧ o.limitPx = d.askPx) := by
  simp only [Participants.calls, List.mem_append, List.mem_cons, List.not_mem_nil, or_false] at h
  rcases h with (h | h) | h | h
  · obtain rfl := Call.submit.inj h
    exact Or.inl ⟨rfl, rfl⟩
  · obtain rfl := Call.submit.inj h
    exact Or.inr ⟨rfl, rfl⟩
  · obtain ⟨id, hid⟩ := mem_churnCalls h
    exact absurd hid (by simp)
  · cases hcross : d.cross with
    | none =>
        rw [hcross] at h
        exact absurd h List.not_mem_nil
    | some x =>
        rw [hcross] at h
        obtain rfl := Call.submit.inj (List.mem_singleton.mp h)
        exact absurd hl (by simp [Participants.taker])

theorem priced_calls {x : Exchange} {ev : Event} (h : ev.Priced P) :
    ∀ call ∈ x.calls ev, call.Priced P := by
  intro call hcall
  cases call with
  | cancel id => trivial
  | submit o =>
      intro hl
      cases ev with
      | order cmd =>
          rcases submit_mem_calls hcall with ⟨cmd', hev, hne, rfl⟩ | ⟨d, hev, -⟩
          · obtain rfl := Event.order.inj hev
            exact h hne (of_decide_eq_true hl)
          · exact absurd hev (by simp)
      | round d =>
          rcases limitPx_of_mem_round (p := x.participants) hcall hl with ⟨hs, hpx⟩ | ⟨hs, hpx⟩
          · rw [hs, hpx]
            exact h.1
          · rw [hs, hpx]
            exact h.2

theorem toNat_lots_le {n : ℕ} (k : Fin n) : (lots k).toNat ≤ n * scale :=
  calc (lots k).toNat ≤ scale * (1 + k.val) := by
        rw [lots, UInt64.toNat_ofNat']
        exact Nat.mod_le _ _
    _ ≤ scale * n := Nat.mul_le_mul_left _ (by omega)
    _ = n * scale := Nat.mul_comm _ _

theorem submitted_append (cs cs' : List Call) :
    submitted (cs ++ cs') = submitted cs + submitted cs' := by
  rw [submitted, List.map_append, List.sum_append]
  rfl

theorem submitted_churn (p : Participants) (draw : Option UInt64) :
    submitted (p.churnCalls draw) = 0 := by
  refine List.sum_eq_zero fun q hq => ?_
  obtain ⟨call, hcall, rfl⟩ := List.mem_map.mp hq
  obtain ⟨id, rfl⟩ := mem_churnCalls hcall
  rfl

theorem submitted_cross (p : Participants) (draw : Option (Fin 3 × Side)) :
    submitted (p.crossCalls draw) ≤ 3 * scale := by
  cases draw with
  | none => exact Nat.zero_le _
  | some x => exact toNat_lots_le x.1

theorem submitted_calls (x : Exchange) (ev : Event) : submitted (x.calls ev) ≤ ev.atMost := by
  cases ev with
  | order cmd =>
      show submitted cmd.calls ≤ cmd.quantity.toNat
      unfold OrderCommand.calls
      split
      · exact Nat.zero_le _
      · split
        · exact (Nat.zero_add _).le
        · exact (Nat.add_zero _).le
  | round d =>
      have hbid := toNat_lots_le d.bidUnits
      have hask := toNat_lots_le d.askUnits
      have hquotes : submitted
          [Call.submit (x.participants.quote Side.buy d.bidPx (lots d.bidUnits)),
            Call.submit (x.participants.posted.quote Side.sell d.askPx (lots d.askUnits))]
          = (lots d.bidUnits).toNat + (lots d.askUnits).toNat := rfl
      have hcross := submitted_cross
        (x.participants.posted.posted.afterChurn d.churn) d.cross
      show submitted (x.participants.calls d) ≤ 11 * scale
      rw [Participants.calls, submitted_append, submitted_append, submitted_churn, hquotes]
      omega

/-- A kept exchange with such prices and so much resting. -/
structure Exchange.Within (P : Side → Int → Prop) (n : ℕ) (x : Exchange) : Prop where
  kept : x.Kept
  priced : x.book.Priced P
  supply : supply x.book.orders ≤ n

variable {commission : Int → UInt64 → Int}

theorem within_step {x : Exchange} {n : ℕ} {ev : Event} (h : x.Within P n) (hev : ev.Priced P) :
    (x.step commission ev).1.Within P (n + ev.atMost) := by
  have hsub := submitted_calls x ev
  have hmore := (cached_trace (x.calls ev) h.kept.1 h.kept.2).2.1
  have hle := h.supply
  refine ⟨kept_step h.kept ev, ?_, ?_⟩ <;> rw [step_book]
  · exact priced_exec h.kept.1 h.priced (priced_calls hev)
  · omega

theorem within_run {evs : List Event} : ∀ {x : Exchange} {n : ℕ}, x.Within P n →
    (∀ ev ∈ evs, ev.Priced P) →
    (Mealy.exec (Exchange.step commission) x evs).Within P (n + (evs.map Event.atMost).sum) := by
  induction evs with
  | nil => exact fun h _ => h
  | cons ev evs ih =>
      intro x n h hevs
      have hstep : (x.step commission ev).1.Within P (n + ev.atMost) :=
        within_step h (hevs ev List.mem_cons_self)
      have hrest := ih hstep fun ev' hev' => hevs ev' (List.mem_cons_of_mem _ hev')
      rw [List.map_cons, List.sum_cons, ← Nat.add_assoc]
      exact hrest

/-- Priming is a run of rounds. -/
theorem primed_exec (commission : Int → UInt64 → Int) (ds : List Draws) : Exchange.primed ds
    = Mealy.exec (Exchange.step commission) Exchange.new (ds.map Event.round) := by
  induction ds using List.reverseRecOn with
  | nil => rfl
  | append_singleton ds d ih =>
      rw [Exchange.primed, List.foldl_append, ← Exchange.primed, List.map_append, Mealy.exec_append,
        ← ih]
      rfl

theorem within_new : Exchange.new.Within P 0 :=
  ⟨kept_primed [], fun _ hx => absurd hx List.not_mem_nil, Nat.zero_le _⟩

theorem within_primed {ds : List Draws} (h : ∀ d ∈ ds, P Side.buy d.bidPx ∧ P Side.sell d.askPx) :
    (Exchange.primed ds).Within P (ds.length * (11 * scale)) := by
  have hpriced : ∀ ev ∈ ds.map Event.round, ev.Priced P := by
    intro ev hev
    obtain ⟨d, hd, rfl⟩ := List.mem_map.mp hev
    exact h d hd
  have hrun : (Mealy.exec (Exchange.step fun _ _ => 0) Exchange.new (ds.map Event.round)).Within P
      (0 + ((ds.map Event.round).map Event.atMost).sum) := within_run within_new hpriced
  rw [← primed_exec, List.map_map, Nat.zero_add] at hrun
  have hsum : (ds.map (Event.atMost ∘ Event.round)).sum = ds.length * (11 * scale) := by
    have hconst : Event.atMost ∘ Event.round = fun _ => 11 * scale := rfl
    rw [hconst, List.map_const', List.sum_replicate, Nat.nsmul_eq_mul]
  exact hsum ▸ hrun

theorem Exchange.Within.mono {x : Exchange} {m n : ℕ} (h : x.Within P m) (hle : m ≤ n) :
    x.Within P n :=
  ⟨h.kept, h.priced, h.supply.trans hle⟩

/-! ## The main loop -/

def Iteration.Priced (P : Side → Int → Prop) (it : Iteration) : Prop := ∀ ev ∈ it.events, ev.Priced P

def Iteration.atMost (it : Iteration) : ℕ := (it.events.map Event.atMost).sum

theorem within_feed : ∀ {its : List Iteration} {f : Feed} {n : ℕ}, f.exchange.Within P n →
    (∀ it ∈ its, it.Priced P) → ∀ e ∈ Mealy.trace (Feed.step commission) f its,
      e.post.exchange.Within P (n + (its.map Iteration.atMost).sum)
  | [], _, _, _, _ => fun _ he => absurd he List.not_mem_nil
  | it :: its, f, n, h, hits => by
      have hstep : (f.step commission it).1.exchange.Within P (n + it.atMost) := by
        rw [exchange_step]
        exact within_run h (hits it List.mem_cons_self)
      intro e he
      rw [List.map_cons, List.sum_cons, ← Nat.add_assoc]
      rcases List.mem_cons.mp he with rfl | he
      · exact hstep.mono (Nat.le_add_right _ _)
      · exact within_feed hstep (fun it' hit' => hits it' (List.mem_cons_of_mem _ hit')) e he

/-- A quote with both sides, of a book that can be quoted, is coherent. -/
theorem coherent_out {f : Feed} {it : Iteration} {tick : MarketTick} {snap : OrderBookSnapshot}
    (hk : (f.step commission it).1.exchange.Kept)
    (hq : (f.step commission it).1.exchange.book.Quotable)
    (hout : (f.step commission it).2 = some (tick, snap)) (hbid : 0 < tick.bid)
    (hask : 0 < tick.ask) : Coherent (f.step commission it).1.exchange.book tick snap := by
  obtain ⟨seq, rfl, rfl⟩ := out_step hout
  obtain ⟨bid, hb⟩ := Option.isSome_iff_exists.mp ((touch_pos hk.1 hk.2 hq Side.buy).mp hbid)
  obtain ⟨ask, ha⟩ := Option.isSome_iff_exists.mp ((touch_pos hk.1 hk.2 hq Side.sell).mp hask)
  have htouch : (f.step commission it).1.exchange.book.touch = (bid, ask) :=
    Prod.ext (congrArg (Option.getD · 0) hb) (congrArg (Option.getD · 0) ha)
  rw [htouch]
  exact coherent_touch hk.1 hk.2 hq hb ha seq it.rdtsc

/-- **Quotable from the inputs.**  If every quote that the rounds draw and every limit that the
commands carry is positive and below `2 ^ 62`, and all that could be submitted is below `2 ^ 64`,
then in every run of the main loop every book it leaves can be quoted, and every quote with both
sides that it publishes is coherent with that book. -/
theorem quotable_run {ds : List Draws} {its : List Iteration}
    (hds : ∀ d ∈ ds, InRange d.bidPx ∧ InRange d.askPx)
    (hits : ∀ it ∈ its, it.Priced fun _ => InRange)
    (hqty : ds.length * (11 * scale) + (its.map Iteration.atMost).sum < 2 ^ 64) :
    ∀ e ∈ Mealy.trace (Feed.step commission) (Feed.start (Exchange.primed ds)) its,
      e.post.exchange.book.Quotable ∧ ∀ tick snap, e.out = some (tick, snap) →
        0 < tick.bid → 0 < tick.ask → Coherent e.post.exchange.book tick snap := by
  intro e he
  have hw := within_feed (f := Feed.start (Exchange.primed ds)) (within_primed hds) hits e he
  have hq : e.post.exchange.book.Quotable :=
    quotable_of_priced hw.kept.1 hw.priced (hw.supply.trans_lt hqty)
  have hstep := Mealy.step_of_mem_trace he
  have hpost : (e.pre.step commission e.input).1 = e.post := congrArg Prod.fst hstep
  have hk := hw.kept
  refine ⟨hq, fun tick snap hout hbid hask => ?_⟩
  rw [← hpost] at hk hq ⊢
  exact coherent_out hk hq ((congrArg Prod.snd hstep).trans hout) hbid hask

/-- Two rounds around fifty dollars: one to prime the book, one in the first iteration. -/
theorem quotable_run_calm :
    (Mealy.exec (Feed.step oneBp) (Feed.start (Exchange.primed [calmRound]))
      [⟨[], some calmRound, 5⟩]).exchange.book.Quotable := by
  have hds : ∀ d ∈ [calmRound], InRange d.bidPx ∧ InRange d.askPx := by
    intro d hd
    obtain rfl := List.mem_singleton.mp hd
    decide
  have hits : ∀ it ∈ [(⟨[], some calmRound, 5⟩ : Iteration)], it.Priced fun _ => InRange := by
    intro it hit ev hev
    obtain rfl := List.mem_singleton.mp hit
    obtain rfl : ev = Event.round calmRound := by simpa [Iteration.events] using hev
    exact (by decide : InRange calmRound.bidPx ∧ InRange calmRound.askPx)
  exact (quotable_run hds hits (by decide) _ List.mem_cons_self).1

end HotpathIpc
