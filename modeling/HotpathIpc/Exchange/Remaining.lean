import HotpathIpc.Exchange.Reporting

/-!
# Remaining quantities in the reports

A report's `remaining_quantity` is meant to be what is unexecuted of its order after the fill, and
its status 2 to mean that nothing is.  A taker's report says so.  A maker's report always says
that nothing remains, which is so only if the fill exhausts the maker.

* `fillEvents` lists the fills of a run in order, with the turn each belongs to, and
  `reportOf` is the report of one of them; the report stream is one mapped over the other
  (`reportsOf_eq`).
* **`remaining_reported`** — as long as no participant stops partway through a strategy order,
  every report is right, and nothing follows an order's status 2.
-/

namespace HotpathIpc

open Greedy (supply)

variable {commission : Int → UInt64 → Int}

/-! ## Fills and their reports -/

/-- The report of a fill, if the turn it happens in publishes one. -/
def reportOf (commission : Int → UInt64 → Int) : Event → Fill → Option ExecutionReport
  | Event.order _, f => if f.takerIsSynthetic then none else some (f.takerReport commission)
  | Event.round _, f => if f.makerIsSynthetic then none else some (f.makerReport commission)

/-- The fills of a run, each with the turn it belongs to. -/
def fillEvents (tr : List (Mealy.Entry Exchange Event Turn)) : List (Event × Fill) :=
  tr.flatMap fun e => e.out.fills.map fun f => (e.input, f)

/-- The report stream of a run. -/
def reportsOf (tr : List (Mealy.Entry Exchange Event Turn)) : List ExecutionReport :=
  tr.flatMap fun e => e.out.reports

theorem filterMap_ite {α β : Type*} (p : α → Bool) (f : α → β) : ∀ xs : List α,
    xs.filterMap (fun x => if p x then none else some (f x)) = (xs.filter fun x => !p x).map f
  | [] => rfl
  | x :: xs => by
      have ih := filterMap_ite p f xs
      cases h : p x <;> simp [h, ih]

theorem reports_eq {e : Mealy.Entry Exchange Event Turn}
    (hstep : e.pre.step commission e.input = (e.post, e.out)) :
    e.out.reports = e.out.fills.filterMap (reportOf commission e.input) := by
  have hout : e.out = (e.pre.step commission e.input).2 := by rw [hstep]
  rw [hout]
  cases e.input with
  | order cmd => exact (filterMap_ite _ _ _).symm
  | round d => exact (filterMap_ite _ _ _).symm

theorem reportsOf_eq {x : Exchange} {evs : List Event} :
    reportsOf (Mealy.trace (Exchange.step commission) x evs)
      = (fillEvents (Mealy.trace (Exchange.step commission) x evs)).filterMap
          fun p => reportOf commission p.1 p.2 := by
  rw [reportsOf, fillEvents, List.filterMap_flatMap]
  refine List.flatMap_congr fun e he => ?_
  rw [reports_eq (Mealy.step_of_mem_trace he), List.filterMap_map]
  rfl

/-- A list made of parts, cut at one element, is cut within one part. -/
theorem flatMap_eq_append_cons {α β : Type*} {F : α → List β} {x : β} {ys : List β} :
    ∀ {as : List α} {xs : List β}, as.flatMap F = xs ++ x :: ys →
      ∃ as₁ a as₂ p q, as = as₁ ++ a :: as₂ ∧ F a = p ++ x :: q ∧
        xs = as₁.flatMap F ++ p
  | [], xs, h => absurd h (by simp)
  | a :: as, xs, h => by
      rw [List.flatMap_cons, List.append_eq_append_iff] at h
      rcases h with ⟨zs, rfl, htail⟩ | ⟨zs, hhead, htail⟩
      · obtain ⟨as₁, a', as₂, p, q, rfl, hF, rfl⟩ := flatMap_eq_append_cons htail
        exact ⟨a :: as₁, a', as₂, p, q, rfl, hF, by rw [List.flatMap_cons, List.append_assoc]⟩
      · cases zs with
        | nil =>
            rw [List.nil_append] at htail
            have hcut : as.flatMap F = [] ++ x :: ys := htail.symm
            obtain ⟨as₁, a', as₂, p, q, rfl, hF, hp⟩ := flatMap_eq_append_cons hcut
            obtain ⟨h₁, rfl⟩ := List.append_eq_nil_iff.mp hp.symm
            refine ⟨a :: as₁, a', as₂, [], q, rfl, hF, ?_⟩
            rw [List.flatMap_cons, h₁, hhead]
            simp
        | cons z zs =>
            obtain ⟨rfl, htail⟩ := List.cons.inj htail
            exact ⟨[], a, as, xs, zs, rfl, hhead, rfl⟩

/-! ## The commands behind the calls -/

/-- The new orders among the commands. -/
def newOrders (evs : List Event) : List OrderCommand :=
  evs.filterMap fun
    | Event.order cmd => if cmd.action = 1 then none else some cmd
    | Event.round _ => none

theorem mem_newOrders {evs : List Event} {cmd : OrderCommand} :
    cmd ∈ newOrders evs ↔ Event.order cmd ∈ evs ∧ cmd.action ≠ 1 := by
  rw [newOrders, List.mem_filterMap]
  constructor
  · rintro ⟨ev, hev, h⟩
    cases ev with
    | round d => exact absurd h (by simp)
    | order cmd' =>
        dsimp only at h
        split at h
        · exact absurd h (by simp)
        · obtain rfl := Option.some.inj h
          exact ⟨hev, ‹_›⟩
  · rintro ⟨hev, h1⟩
    exact ⟨_, hev, if_neg h1⟩

theorem count_submittedIds_calls {x : Exchange} {ev : Event} {id : UInt64}
    (hid : id.toNat < 2 ^ 63) : (submittedIds (x.calls ev)).count id
      = ((newOrders [ev]).map OrderCommand.orderId).count id := by
  cases ev with
  | order cmd =>
      unfold Exchange.calls OrderCommand.calls newOrders
      by_cases h1 : cmd.action = 1
      · simp [h1, submittedIds]
      · by_cases h2 : cmd.action = 2
        · simp [h2, submittedIds, OrderCommand.newOrder]
        · simp [h1, h2, submittedIds, OrderCommand.newOrder]
  | round d =>
      refine (List.count_eq_zero.mpr fun hmem => ?_).trans rfl
      obtain ⟨call, hcall, hc⟩ := List.mem_filterMap.mp hmem
      cases call with
      | cancel j => exact absurd hc (by simp)
      | submit o =>
          have hge := (synthetic_of_mem_calls hcall).2
          obtain rfl := Option.some.inj hc
          omega

/-- **A strategy id is submitted as often as there are new orders with it.** -/
theorem count_bookCalls {id : UInt64} (hid : id.toNat < 2 ^ 63) (x : Exchange)
    (evs : List Event) : (submittedIds (bookCalls commission x evs)).count id
      = ((newOrders evs).map OrderCommand.orderId).count id := by
  induction evs generalizing x with
  | nil => rfl
  | cons ev evs ih =>
      have hsplit : newOrders (ev :: evs) = newOrders [ev] ++ newOrders evs := by
        rw [newOrders, newOrders, newOrders, ← List.filterMap_append, List.singleton_append]
      rw [hsplit, List.map_append, List.count_append, ← ih (x.step commission ev).1,
        ← count_submittedIds_calls (x := x) hid, ← List.count_append, ← submittedIds_append]
      rfl

/-- The primed book holds nothing under a strategy id. -/
theorem outstanding_primed {id : UInt64} (hid : id.toNat < 2 ^ 63) (ds : List Draws) :
    Outstanding id [] (Exchange.primed ds).book := by
  obtain ⟨cs, hbook, hcs⟩ := primed_book ds
  have hnot : id ∉ submittedIds cs := by
    intro hmem
    obtain ⟨call, hcall, hc⟩ := List.mem_filterMap.mp hmem
    cases call with
    | cancel j => exact absurd hc (by simp)
    | submit o =>
        have hge := (hcs o hcall).2
        obtain rfl := Option.some.inj hc
        omega
  have hout := outstanding_exec (outstanding_new id)
    (show (submittedIds cs).count id ≤ 1 by rw [List.count_eq_zero.mpr hnot]; omega)
  have hle := hout.le
  have hzero : submittedUnder id (Mealy.trace Book.step Book.new cs) = 0 :=
    submittedUnder_eq_zero (by rwa [Mealy.map_input_trace])
  rw [hbook]
  exact ⟨hout.sound, hout.tracks, by simp only [fillsOf, List.flatMap_nil, executed_nil]; omega,
    Or.inl (by omega)⟩

/-! ## One fill of a run -/

/-- A fill of a run, located in a turn and in the book's own trace of the run. -/
structure FillAt (commission : Int → UInt64 → Int) (x : Exchange) (evs : List Event)
    (before : List Fill) (ev : Event) (f : Fill) where
  turn : Mealy.Entry Exchange Event Turn
  mem_turn : turn ∈ Mealy.trace (Exchange.step commission) x evs
  input : turn.input = ev
  call : Mealy.Entry Book Call Answer
  mem_call : call ∈ Mealy.trace Book.step turn.pre.book (turn.pre.calls ev)
  past : List (Mealy.Entry Book Call Answer)
  future : List (Mealy.Entry Book Call Answer)
  trace : Mealy.trace Book.step x.book (bookCalls commission x evs) = past ++ call :: future
  earlier : List Fill
  later : List Fill
  fills : call.out.fills = earlier ++ f :: later
  before_eq : before = fillsOf past ++ earlier

theorem exists_fillAt {x : Exchange} {evs : List Event} {l₁ l₂ : List (Event × Fill)}
    {ev : Event} {f : Fill}
    (h : fillEvents (Mealy.trace (Exchange.step commission) x evs) = l₁ ++ (ev, f) :: l₂) :
    Nonempty (FillAt commission x evs (l₁.map Prod.snd) ev f) := by
  -- the turn, then the call within the turn
  obtain ⟨h₁, e, h₂, p, q, htr, hfills, rfl⟩ := flatMap_eq_append_cons h
  obtain ⟨g₁, g, hmap, hp, hg⟩ := List.map_eq_append_iff.mp hfills
  obtain ⟨f', g₂, rfl, hf, -⟩ := List.map_eq_cons_iff.mp hg
  obtain ⟨rfl, rfl⟩ := Prod.mk.inj hf
  have he : e ∈ Mealy.trace (Exchange.step commission) x evs := by
    rw [htr]
    exact List.mem_append_right _ List.mem_cons_self
  have hturn : ∀ k ∈ Mealy.trace (Exchange.step commission) x evs,
      k.out.fills = fillsOf (Mealy.trace Book.step k.pre.book (k.pre.calls k.input)) := by
    intro k hk
    have hout : k.out = (k.pre.step commission k.input).2 := by rw [Mealy.step_of_mem_trace hk]
    rw [hout, step_fills]
  rw [hturn e he, fillsOf] at hmap
  obtain ⟨k₁, c, k₂, p', q', hcall, hc, rfl⟩ := flatMap_eq_append_cons hmap
  refine ⟨e, he, rfl, c, ?_, (h₁.flatMap fun k => Mealy.trace Book.step k.pre.book
    (k.pre.calls k.input)) ++ k₁, k₂ ++ h₂.flatMap fun k => Mealy.trace Book.step k.pre.book
    (k.pre.calls k.input), ?_, p', q', hc, ?_⟩
  · rw [hcall]
    exact List.mem_append_right _ List.mem_cons_self
  · rw [(calls_trace x evs).2, htr, List.flatMap_append, List.flatMap_cons, hcall]
    simp only [List.append_assoc, List.cons_append]
  · have hpast : (fillEvents h₁).map Prod.snd = fillsOf (h₁.flatMap fun k =>
        Mealy.trace Book.step k.pre.book (k.pre.calls k.input)) := by
      rw [fillEvents, fillsOf, List.map_flatMap, List.flatMap_assoc]
      refine List.flatMap_congr fun k hk => ?_
      rw [List.map_map, ← fillsOf, ← hturn k (by rw [htr]; exact List.mem_append_left _ hk)]
      exact List.map_id _
    have hsnd : (Prod.snd ∘ fun g : Fill => (e.input, g)) = id := rfl
    rw [← hp, List.map_append, ← fillEvents, hpast, List.map_map, fillsOf_append,
      List.append_assoc, hsnd, List.map_id]
    rfl

/-! ## Right reports -/

/-- A call stops partway through a strategy order. -/
def Call.CutsStrategy (b : Book) : Call → Prop
  | Call.submit o => b.StopsWithinStrategy o
  | Call.cancel _ => False

/-- A participant's order of the round stops partway through a strategy order. -/
def Exchange.CutsStrategy (x : Exchange) : Event → Prop
  | Event.order _ => False
  | Event.round d => ∃ c ∈ Mealy.trace Book.step x.book (x.participants.calls d),
      c.input.CutsStrategy c.pre

instance (b : Book) : ∀ call : Call, Decidable (call.CutsStrategy b)
  | Call.submit o => inferInstanceAs (Decidable (b.StopsWithinStrategy o))
  | Call.cancel _ => inferInstanceAs (Decidable False)

instance (x : Exchange) : ∀ ev : Event, Decidable (x.CutsStrategy ev)
  | Event.order _ => inferInstanceAs (Decidable False)
  | Event.round d => inferInstanceAs (Decidable (∃ c ∈ Mealy.trace Book.step x.book
      (x.participants.calls d), c.input.CutsStrategy c.pre))

/-- Every report says what is unexecuted of its order after the fill, and has status 2 exactly if
nothing is. -/
def RemainingReported (commission : Int → UInt64 → Int) (evs : List Event)
    (tr : List (Mealy.Entry Exchange Event Turn)) : Prop :=
  ∀ l₁ ev f l₂ r, fillEvents tr = l₁ ++ (ev, f) :: l₂ → reportOf commission ev f = some r →
    ∃ cmd ∈ newOrders evs, cmd.orderId = r.orderId ∧
      executed r.orderId (l₁.map Prod.snd ++ [f]) + r.remainingQuantity.toNat
        = cmd.quantity.toNat ∧
      r.status = if r.remainingQuantity = 0 then 2 else 1

/-- No report of an order follows one with status 2. -/
def FilledOnce (tr : List (Mealy.Entry Exchange Event Turn)) : Prop :=
  ∀ rs₁ r rs₂, reportsOf tr = rs₁ ++ r :: rs₂ → r.status = 2 →
    ∀ r' ∈ rs₂, r'.orderId ≠ r.orderId

section Run

variable {ds : List Draws} {evs : List Event} {before : List Fill} {ev : Event} {f : Fill}

/-- The commands of a run: strategy ids below the synthetic bit, no new order's id used again. -/
structure OwnIds (evs : List Event) : Prop where
  low : ∀ cmd, Event.order cmd ∈ evs → cmd.orderId.toNat < 2 ^ 63
  nodup : ((newOrders evs).map OrderCommand.orderId).Nodup

theorem OwnIds.count_le (h : OwnIds evs) {id : UInt64} (hid : id.toNat < 2 ^ 63) (x : Exchange) :
    (submittedIds (bookCalls commission x evs)).count id ≤ 1 := by
  rw [count_bookCalls hid]
  exact List.nodup_iff_count_le_one.mp h.nodup id

/-- The submit a fill comes from. -/
theorem FillAt.submit (a : FillAt commission (Exchange.primed ds) evs before ev f) :
    ∃ o, a.call.input = Call.submit o ∧ Call.submit o ∈ a.turn.pre.calls ev ∧
      (a.call.pre.submit o).2.1 = a.earlier ++ f :: a.later ∧
      a.call.pre.step (Call.submit o) = (a.call.post, a.call.out) := by
  have hstep := Mealy.step_of_mem_trace a.mem_call
  have hmem : a.call.input ∈ a.turn.pre.calls ev := by
    rw [← Mealy.map_input_trace Book.step a.turn.pre.book (a.turn.pre.calls ev)]
    exact List.mem_map_of_mem a.mem_call
  have hfills := a.fills
  cases hin : a.call.input with
  | cancel id =>
      rw [hin] at hstep
      rw [← (Prod.mk.inj hstep).2] at hfills
      exact absurd hfills (by simp)
  | submit o =>
      rw [hin] at hstep hmem
      rw [← (Prod.mk.inj hstep).2] at hfills
      exact ⟨o, rfl, hmem, hfills, hstep⟩

theorem FillAt.outstanding (a : FillAt commission (Exchange.primed ds) evs before ev f)
    (hids : OwnIds evs) {id : UInt64} (hid : id.toNat < 2 ^ 63) :
    Outstanding id a.past a.call.pre ∧ FirstUse id a.past a.call.input ∧
      Outstanding id (a.past ++ [a.call]) a.call.post :=
  outstanding_trace (outstanding_primed hid ds) (hids.count_le hid _) a.trace

/-- A strategy order that rests has the id of a command. -/
theorem FillAt.maker_low (a : FillAt commission (Exchange.primed ds) evs before ev f)
    (hids : OwnIds evs) (hsyn : f.makerIsSynthetic = false) : f.makerOrderId.toNat < 2 ^ 63 := by
  obtain ⟨cs, hbook, hcs⟩ := primed_book ds
  have hprimed : ∀ x ∈ (Exchange.primed ds).book.orders,
      x.1.isSynthetic = false → x.1.orderId.toNat < 2 ^ 63 := by
    rw [hbook]
    refine (orders_trace (P := fun id syn => syn = false → id.toNat < 2 ^ 63) sound_new
      (fun x hx => absurd hx List.not_mem_nil) fun o ho hs => ?_).1
    rw [(hcs o ho).1] at hs
    exact absurd hs (by decide)
  have hmem : a.call ∈ Mealy.trace Book.step (Exchange.primed ds).book
      (bookCalls commission (Exchange.primed ds) evs) := by
    rw [a.trace]
    exact List.mem_append_right _ List.mem_cons_self
  have hsound : (Exchange.primed ds).book.Sound := hbook ▸ sound_exec cs
  have horders := (orders_trace (P := fun id syn => syn = false → id.toNat < 2 ^ 63) hsound
    hprimed fun o ho hs => ?_).2 a.call hmem
  · obtain ⟨o, -, -, hf, -⟩ := a.submit
    have hlive : a.call.pre.Sound := ((sound_run hsound _).2 a.call hmem).1
    obtain ⟨n, hn⟩ := maker_mem_orders (f := f) hlive.live
      (by rw [hf]; exact List.mem_append_right _ List.mem_cons_self)
    exact horders _ hn hsyn
  · obtain ⟨e, he, hcall⟩ := List.mem_flatMap.mp ho
    have hev : e.input ∈ evs := by
      rw [← Mealy.map_input_trace (Exchange.step commission) (Exchange.primed ds) evs]
      exact List.mem_map_of_mem he
    rcases submit_mem_calls hcall with ⟨cmd, hcmd, -, rfl⟩ | ⟨d, -, hsynth, -⟩
    · exact hids.low cmd (hcmd ▸ hev)
    · rw [hsynth] at hs
      exact absurd hs (by decide)

/-- Every fill is positive. -/
theorem FillAt.quantity_pos (a : FillAt commission (Exchange.primed ds) evs before ev f)
    (hids : OwnIds evs) : 0 < f.quantity := by
  obtain ⟨o, -, -, hf, -⟩ := a.submit
  have hlive := (a.outstanding hids (show (0 : UInt64).toNat < 2 ^ 63 by decide)).1.sound.live
  exact (fills_submit o hlive).1 f (by rw [hf]; exact List.mem_append_right _ List.mem_cons_self)

theorem FillAt.input_mem (a : FillAt commission (Exchange.primed ds) evs before ev f) :
    ev ∈ evs := by
  have hmem := List.mem_map_of_mem (f := Mealy.Entry.input) a.mem_turn
  rwa [Mealy.map_input_trace, a.input] at hmem

/-- **A fill of a command's own order**, reported to it as taker. -/
theorem taker_report {cmd : OrderCommand}
    (a : FillAt commission (Exchange.primed ds) evs before (Event.order cmd) f)
    (hids : OwnIds evs) : cmd ∈ newOrders evs ∧ f.takerOrderId = cmd.orderId ∧
      executed cmd.orderId (before ++ [f]) + f.takerRemainingAfter.toNat
        = cmd.quantity.toNat := by
  obtain ⟨o, hin, hmem, hf, -⟩ := a.submit
  rcases submit_mem_calls hmem with ⟨_, ⟨⟩, h1, rfl⟩ | ⟨d, hd, -⟩
  · obtain ⟨hout, hfirst, -⟩ := a.outstanding hids (hids.low cmd a.input_mem)
    rw [hin] at hfirst
    refine ⟨mem_newOrders.mpr ⟨a.input_mem, h1⟩, ?_, ?_⟩
    · exact (submit_isBy _ hout.sound.live f
        (by rw [hf]; exact List.mem_append_right _ List.mem_cons_self)).1
    · rw [a.before_eq]
      exact taker_outstanding (o := cmd.newOrder) hout hfirst hf
  · exact absurd hd (by simp)

/-- **A fill of a resting strategy order** in a round that cuts none. -/
theorem maker_report {d : Draws}
    (a : FillAt commission (Exchange.primed ds) evs before (Event.round d) f)
    (hids : OwnIds evs) (hcut : ¬ a.turn.pre.CutsStrategy (Event.round d))
    (hsyn : f.makerIsSynthetic = false) : ∃ cmd ∈ newOrders evs, cmd.orderId = f.makerOrderId ∧
      executed f.makerOrderId (before ++ [f]) = cmd.quantity.toNat := by
  have hlow := a.maker_low hids hsyn
  obtain ⟨o, hin, -, hf, hstep⟩ := a.submit
  obtain ⟨hout, hfirst, hpost⟩ := a.outstanding hids hlow
  have hstop : ¬ a.call.pre.StopsWithinStrategy o :=
    fun h => hcut ⟨a.call, a.mem_call, by rw [hin]; exact h⟩
  have hcall : a.call = ⟨a.call.pre, Call.submit o, ⟨(a.call.pre.submit o).2.1,
      (a.call.pre.submit o).2.2⟩, (a.call.pre.submit o).1⟩ := by
    obtain ⟨hp, ho⟩ := Prod.mk.inj hstep
    cases hc : a.call with
    | mk pre input out post =>
        rw [hc] at hin hp ho
        dsimp only at hin hp ho ⊢
        rw [hin, ← hp, ← ho]
  rw [hin] at hfirst
  have hp : a.call.post = (a.call.pre.submit o).1 := (Prod.mk.inj hstep).1.symm
  rw [hcall] at hpost
  obtain ⟨hpos, hexec⟩ := maker_outstanding hout hpost hfirst hf hsyn hstop
  rw [← a.before_eq] at hexec
  -- the command that submitted the order
  have hused : f.makerOrderId ∈ submittedIds (a.past.map Mealy.Entry.input) := by
    by_contra hnot
    rw [submittedUnder_eq_zero hnot] at hpos
    exact absurd hpos (Nat.lt_irrefl 0)
  obtain ⟨call, hcallmem, hid⟩ := List.mem_filterMap.mp hused
  cases call with
  | cancel j => exact absurd hid (by simp)
  | submit o' =>
      have hid := Option.some.inj hid
      have hsplit : bookCalls commission (Exchange.primed ds) evs
          = a.past.map Mealy.Entry.input ++ a.call.input :: a.future.map Mealy.Entry.input := by
        rw [← Mealy.map_input_trace Book.step (Exchange.primed ds).book (bookCalls _ _ _),
          a.trace, List.map_append, List.map_cons]
      have hone : (submittedIds (bookCalls commission (Exchange.primed ds) evs)).count
          f.makerOrderId ≤ 1 := hids.count_le hlow _
      rw [hsplit, submittedIds_append, List.count_append] at hone
      have hpast : (submittedIds (a.past.map Mealy.Entry.input)).count o'.orderId ≤ 1 := by
        rw [hid]
        omega
      have hsum := sum_submittedQty hpast hcallmem
      rw [hid, List.map_map] at hsum
      have hbook : Call.submit o' ∈ bookCalls commission (Exchange.primed ds) evs := by
        rw [hsplit]
        exact List.mem_append_left _ hcallmem
      obtain ⟨e, he, hin'⟩ := List.mem_flatMap.mp hbook
      have hev : e.input ∈ evs := by
        rw [← Mealy.map_input_trace (Exchange.step commission) (Exchange.primed ds) evs]
        exact List.mem_map_of_mem he
      rcases submit_mem_calls hin' with ⟨cmd, hcmd, h1, rfl⟩ | ⟨d', -, -, hge⟩
      · exact ⟨cmd, mem_newOrders.mpr ⟨hcmd ▸ hev, h1⟩, hid, hexec.trans hsum⟩
      · rw [hid] at hge
        omega

end Run

/-! ## Whole runs -/

theorem executed_pos_of_report {ev : Event} {f : Fill} {r : ExecutionReport}
    (hr : reportOf commission ev f = some r) (hq : 0 < f.quantity) :
    0 < executed r.orderId [f] := by
  have hpos : 0 < f.quantity.toNat :=
    Nat.pos_of_ne_zero fun h => UInt64.pos_iff_ne_zero.mp hq (toNat_eq_zero.mp h)
  cases ev with
  | order cmd =>
      rw [reportOf] at hr
      split at hr
      · exact absurd hr (by simp)
      · rw [← Option.some.inj hr]
        simp only [executed, takerQty, Fill.takerReport, List.filter_cons, decide_true, if_true,
          List.filter_nil, List.map_cons, List.map_nil, List.sum_cons, List.sum_nil]
        omega
  | round d =>
      rw [reportOf] at hr
      split at hr
      · exact absurd hr (by simp)
      · rw [← Option.some.inj hr]
        simp only [executed, makerQty, Fill.makerReport, List.filter_cons, decide_true, if_true,
          List.filter_nil, List.map_cons, List.map_nil, List.sum_cons, List.sum_nil]
        omega

/-- **Reports track what remains**, in every run in which no participant stops partway through a
strategy order: every report is right, and an order's status 2 is the last report of it. -/
theorem remaining_reported (ds : List Draws) (evs : List Event) (hids : OwnIds evs)
    (hcut : ∀ e ∈ Mealy.trace (Exchange.step commission) (Exchange.primed ds) evs,
      ¬ e.pre.CutsStrategy e.input) :
    let tr := Mealy.trace (Exchange.step commission) (Exchange.primed ds) evs
    RemainingReported commission evs tr ∧ FilledOnce tr := by
  intro tr
  have hreported : RemainingReported commission evs tr := by
    intro l₁ ev f l₂ r hsplit hr
    obtain ⟨a⟩ := exists_fillAt hsplit
    cases ev with
    | order cmd =>
        obtain ⟨hcmd, hid, hexec⟩ := taker_report a hids
        rw [reportOf] at hr
        split at hr
        · exact absurd hr (by simp)
        · rw [← Option.some.inj hr]
          refine ⟨cmd, hcmd, hid.symm, ?_, rfl⟩
          simp only [Fill.takerReport, hid]
          exact hexec
    | round d =>
        rw [reportOf] at hr
        split at hr
        · exact absurd hr (by simp)
        · rename_i hsyn
          obtain ⟨cmd, hcmd, hid, hexec⟩ := maker_report a hids
            (by have h := hcut a.turn a.mem_turn; rwa [a.input] at h) (by simpa using hsyn)
          rw [← Option.some.inj hr]
          exact ⟨cmd, hcmd, hid, hexec, rfl⟩
  refine ⟨hreported, fun rs₁ r rs₂ hrs hfilled r' hr' hid => ?_⟩
  -- the fills of the two reports
  rw [reportsOf_eq, List.filterMap_eq_append_iff] at hrs
  obtain ⟨l₁, l₂, hl, -, hrest⟩ := hrs
  obtain ⟨m₁, ⟨ev, f⟩, m₂, rfl, -, hf, hm₂⟩ := List.filterMap_eq_cons_iff.mp hrest
  rw [← hm₂] at hr'
  obtain ⟨⟨ev', f'⟩, hmem, hf'⟩ := List.mem_filterMap.mp hr'
  obtain ⟨n₁, n₂, rfl⟩ := List.append_of_mem hmem
  have hl₁ : fillEvents tr = (l₁ ++ m₁) ++ (ev, f) :: (n₁ ++ (ev', f') :: n₂) := by
    rw [hl, List.append_assoc]
  have hl₂ : fillEvents tr = (l₁ ++ m₁ ++ (ev, f) :: n₁) ++ (ev', f') :: n₂ := by
    rw [hl₁]
    simp
  obtain ⟨cmd, hcmd, hcid, hexec, hstatus⟩ := hreported _ _ _ _ _ hl₁ hf
  obtain ⟨cmd', hcmd', hcid', hexec', -⟩ := hreported _ _ _ _ _ hl₂ hf'
  have hsame : cmd' = cmd := List.inj_on_of_nodup_map hids.nodup hcmd' hcmd
    (hcid'.trans (hid.trans hcid.symm))
  -- the first leaves nothing, so the second has nothing to fill
  have hzero : r.remainingQuantity = 0 := by
    by_contra hne
    rw [if_neg hne, hfilled] at hstatus
    exact absurd hstatus (by decide)
  obtain ⟨a'⟩ := exists_fillAt hl₂
  have hpos := executed_pos_of_report hf' (a'.quantity_pos hids)
  rw [hsame, hid, executed_append, List.map_append, List.map_cons] at hexec'
  rw [hid] at hpos
  rw [hzero, executed_append] at hexec
  have hmore : executed r.orderId ((l₁ ++ m₁).map Prod.snd) + executed r.orderId [f]
      ≤ executed r.orderId ((l₁ ++ m₁).map Prod.snd ++ f :: n₁.map Prod.snd) := by
    rw [← executed_append, show (l₁ ++ m₁).map Prod.snd ++ f :: n₁.map Prod.snd
      = ((l₁ ++ m₁).map Prod.snd ++ [f]) ++ n₁.map Prod.snd by simp]
    exact executed_le_append _ _ _
  have hz : (0 : UInt64).toNat = 0 := rfl
  dsimp only at hexec' hpos
  omega

/-- One strategy order takes two quotes, another rests three units, and a participant sells exactly
those three. -/
theorem remaining_reported_run :
    let evs := [Event.order ⟨1, 0, 200000000, 7, 0, 0, 0⟩,
      Event.order ⟨2, 5000000000000, 300000000, 8, 0, 1, 0⟩,
      Event.round ⟨4999900000000, 5000100000000, 0, 0, none, some (2, Side.sell)⟩]
    let tr := Mealy.trace (Exchange.step oneBp) calmExchange evs
    RemainingReported oneBp evs tr ∧ FilledOnce tr :=
  remaining_reported (List.replicate 64 calmRound) _
    ⟨by simp, by decide +kernel⟩ (by decide +kernel)

/-- A strategy order for three units rests at 50 000 and a participant sells it one: the report
says that nothing remains. -/
theorem partial_maker_reported_filled :
    let evs := [Event.order ⟨1, 5000000000000, 300000000, 7, 0, 1, 0⟩,
      Event.round ⟨4999900000000, 5000100000000, 0, 0, none, some (0, Side.sell)⟩]
    ¬ RemainingReported oneBp evs (Mealy.trace (Exchange.step oneBp) calmExchange evs) := by
  intro evs h
  let d : Draws := ⟨4999900000000, 5000100000000, 0, 0, none, some (0, Side.sell)⟩
  let f : Fill := ⟨SYNTHETIC_BIT ||| 131, 1, 5000000000000, 100000000, 0, 0, true, false⟩
  have hfills : fillEvents (Mealy.trace (Exchange.step oneBp) calmExchange evs)
      = [] ++ (Event.round d, f) :: [] := by decide +kernel
  obtain ⟨cmd, hcmd, -, hexec, -⟩ := h [] _ f [] _ hfills rfl
  obtain rfl := List.mem_singleton.mp hcmd
  exact absurd hexec (by decide)

end HotpathIpc
