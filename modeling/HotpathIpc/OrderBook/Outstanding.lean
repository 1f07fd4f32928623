import HotpathIpc.OrderBook.Conservation

/-!
# What is left of an order

For an id that is submitted at most once, what is executed of it so far and what it has resting
make up its quantity, for as long as it rests (`outstanding_trace`).

The results are about one fill, cut out of a run: the taker's `takerRemainingAfter` is what is
unexecuted of it (**`taker_outstanding`**), and of a maker that a fill exhausts nothing is
unexecuted (**`maker_outstanding`**).  A taker that does not stop within a maker exhausts it.
-/

namespace HotpathIpc

open Std (ExtTreeMap)
open Greedy (supply consume)

/-- What fills execute of `id`, on either side. -/
def executed (id : UInt64) (fs : List Fill) : ℕ := takerQty id fs + makerQty id fs

/-- The fills of a run on the book. -/
def fillsOf (tr : List (Mealy.Entry Book Call Answer)) : List Fill :=
  tr.flatMap fun e => e.out.fills

/-- What a run submitted under `id`. -/
def submittedUnder (id : UInt64) (tr : List (Mealy.Entry Book Call Answer)) : ℕ :=
  (tr.map fun e => e.input.submittedQty id).sum

@[simp] theorem executed_nil (id : UInt64) : executed id [] = 0 := rfl

theorem executed_append (id : UInt64) (fs gs : List Fill) :
    executed id (fs ++ gs) = executed id fs + executed id gs := by
  simp only [executed, takerQty, makerQty, List.filter_append, List.map_append, List.sum_append]
  omega

theorem fillsOf_append (tr tr' : List (Mealy.Entry Book Call Answer)) :
    fillsOf (tr ++ tr') = fillsOf tr ++ fillsOf tr' := List.flatMap_append

theorem fillsOf_singleton (e : Mealy.Entry Book Call Answer) : fillsOf [e] = e.out.fills := by
  simp [fillsOf]

theorem submittedUnder_append (id : UInt64) (tr tr' : List (Mealy.Entry Book Call Answer)) :
    submittedUnder id (tr ++ tr') = submittedUnder id tr + submittedUnder id tr' := by
  simp [submittedUnder]

/-! ## One resting order per id -/

variable {b : Book} {o : NewOrder} {id : UInt64}

/-- A tracked id has at most the one entry found. -/
theorem restingQty_of_mem {x : MakerTag × ℕ} (h : b.Tracks id) (hx : x ∈ b.orders)
    (hid : x.1.orderId = id) : b.restingQty id = x.2 := by
  have hmem : x ∈ b.orders.filter fun y => y.1.orderId = id :=
    List.mem_filter.mpr ⟨hx, by simpa using hid⟩
  have hlen : (b.orders.filter fun y => y.1.orderId = id).length ≤ 1 := by
    have hplaces : (placesOf id b.orders).length
        = (b.orders.filter fun y => y.1.orderId = id).length := by
      simp [placesOf, List.filter_map, Function.comp_def]
    have hle : b.locate[id]?.toList.length ≤ 1 := by cases b.locate[id]? <;> simp
    rw [← hplaces, h.length_eq]
    exact hle
  obtain ⟨y, hy⟩ := List.length_eq_one_iff.mp
    (le_antisymm hlen (List.length_pos_iff.mpr (List.ne_nil_of_mem hmem)))
  rw [hy] at hmem
  rw [Book.restingQty, hy, List.mem_singleton.mp hmem]
  simp

theorem restingQty_eq_zero (h : b.Tracks id) (hloc : b.locate[id]? = none) :
    b.restingQty id = 0 := by
  have hnone : b.orders.filter (fun x => x.1.orderId = id) = [] := by
    rw [List.filter_eq_nil_iff]
    intro x hx
    simpa using h.not_mem hloc x hx
  rw [Book.restingQty, hnone]
  rfl

/-- With nothing resting, a tracked id of a live book is not indexed. -/
theorem not_resting_of_restingQty (hlive : b.LiveLevels) (h : b.Tracks id)
    (hz : b.restingQty id = 0) : b.isResting id = false := by
  rw [isResting_eq_false]
  by_contra hne
  obtain ⟨p, hp⟩ := Option.ne_none_iff_exists'.mp hne
  have hplace : p ∈ placesOf id b.orders := by
    rw [h.mem_iff, hp]
    exact List.mem_singleton.mpr rfl
  obtain ⟨x, hx, hid, -⟩ := mem_placesOf.mp hplace
  have hpos : 0 < x.2 := by
    rcases List.mem_append.mp hx with hx | hx
    · exact hlive.positive _ x hx
    · exact hlive.positive _ x hx
  rw [restingQty_of_mem h hx hid] at hz
  omega

/-! ## The invariant -/

/-- Executed and resting quantity of `id`, after the entries `h` led to `b`: never more than was
submitted, and just that while anything rests. -/
structure Outstanding (id : UInt64) (h : List (Mealy.Entry Book Call Answer)) (b : Book) :
    Prop where
  sound : b.Sound
  tracks : b.Tracks id
  le : executed id (fillsOf h) + b.restingQty id ≤ submittedUnder id h
  eq : b.restingQty id = 0 ∨
    executed id (fillsOf h) + b.restingQty id = submittedUnder id h

/-- A call that submits `id` is the first one to. -/
def FirstUse (id : UInt64) (h : List (Mealy.Entry Book Call Answer)) (call : Call) : Prop :=
  ∀ o, call = Call.submit o → o.orderId = id → id ∉ submittedIds (h.map Mealy.Entry.input)

theorem submittedUnder_eq_zero {h : List (Mealy.Entry Book Call Answer)}
    (hid : id ∉ submittedIds (h.map Mealy.Entry.input)) : submittedUnder id h = 0 := by
  have hsum := sum_submittedQty_eq_zero hid
  rwa [List.map_map] at hsum

/-- A first use finds the id not resting. -/
theorem Outstanding.fresh {h : List (Mealy.Entry Book Call Answer)} {call : Call}
    (hout : Outstanding id h b) (hfirst : FirstUse id h call) (o : NewOrder)
    (ho : call = Call.submit o) (hid : o.orderId = id) :
    b.restingQty id = 0 ∧ executed id (fillsOf h) = 0 ∧ b.isResting id = false := by
  have hle := hout.le
  rw [submittedUnder_eq_zero (hfirst o ho hid)] at hle
  exact ⟨by omega, by omega,
    not_resting_of_restingQty hout.sound.live hout.tracks (by omega)⟩

/-- What a submit does to the id it submits, first used: filled as taker, or resting in full. -/
theorem outstanding_submit_self (hlive : b.LiveLevels) (hz : b.restingQty o.orderId = 0) :
    (b.submit o).1.restingQty o.orderId = 0 ∨ executed o.orderId (b.submit o).2.1
      + (b.submit o).1.restingQty o.orderId = o.quantity.toNat := by
  have hmaker := balance_crossAll o.orderId o hlive
  have htaker := balance_taker o.orderId o hlive
  rw [if_pos rfl, Call.submittedQty, if_pos rfl] at htaker
  rcases submit_cases b o with ⟨-, he⟩ | ⟨-, -, he⟩ | ⟨-, -, he⟩
  · rw [he]
    exact Or.inl (by dsimp only; omega)
  · rw [he]
    exact Or.inl (by dsimp only; omega)
  · rw [he]
    refine Or.inr ?_
    dsimp only
    rw [restingQty_rest, if_pos rfl, executed]
    omega

/-- A call about another order moves quantity of `id` from resting to executed, or none. -/
theorem outstanding_other (id : UInt64) {call : Call} (hlive : b.LiveLevels)
    (hsub : ∀ o, call = Call.submit o → o.orderId ≠ id)
    (hcan : ∀ j, call = Call.cancel j → j ≠ id) :
    executed id (b.step call).2.fills + (b.step call).1.restingQty id = b.restingQty id := by
  have hbal := balance_step id hlive call
  cases call with
  | submit o =>
      have hne := hsub o rfl
      simp only [cancelledQty, rejectedQty, hne, false_and, if_false, Call.submittedQty] at hbal
      rw [executed]
      omega
  | cancel j =>
      have hne := hcan j rfl
      simp only [cancelledQty, rejectedQty, hne, if_false, Call.submittedQty] at hbal
      rw [executed]
      omega

/-- A cancel leaves nothing of its id, if that is tracked. -/
theorem restingQty_cancel (htracks : (b.cancel id).1.Tracks id) :
    (b.cancel id).1.restingQty id = 0 := by
  refine restingQty_eq_zero htracks ?_
  cases hloc : b.locate[id]? with
  | none => rwa [cancel_none hloc]
  | some sp => rw [locate_cancel hloc, ExtTreeMap.getElem?_erase, if_pos (by simp)]

theorem outstanding_step {h : List (Mealy.Entry Book Call Answer)} {call : Call}
    (hout : Outstanding id h b) (hfirst : FirstUse id h call) :
    Outstanding id (h ++ [⟨b, call, (b.step call).2, (b.step call).1⟩]) (b.step call).1 := by
  have hlive := hout.sound.live
  have htracks : (b.step call).1.Tracks id :=
    tracks_step hlive (fun o ho hid => (hout.fresh hfirst o ho hid).2.2) hout.tracks
  have hsubmitted : submittedUnder id [⟨b, call, (b.step call).2, (b.step call).1⟩]
      = call.submittedQty id := by simp [submittedUnder]
  have hbal := balance_step id hlive call
  have hle := hout.le
  refine ⟨sound_step b call hout.sound, htracks, ?_, ?_⟩ <;>
    rw [fillsOf_append, fillsOf_singleton, executed_append, submittedUnder_append, hsubmitted]
  · rw [executed] at hle ⊢
    rw [executed]
    dsimp only at hbal ⊢
    omega
  · by_cases hself : ∃ o, call = Call.submit o ∧ o.orderId = id
    · -- the id's own submit: all its quantity is filled, resting or rejected
      obtain ⟨o, rfl, rfl⟩ := hself
      obtain ⟨hz, he, -⟩ := hout.fresh hfirst o rfl rfl
      rw [he, submittedUnder_eq_zero (hfirst o rfl rfl), Call.submittedQty, if_pos rfl]
      simp only [Nat.zero_add]
      exact outstanding_submit_self hlive hz
    · by_cases hcancel : call = Call.cancel id
      · subst hcancel
        exact Or.inl (restingQty_cancel htracks)
      · -- any other call moves its quantity from resting to executed
        have hother := outstanding_other id hlive
          (fun o ho hid => hself ⟨o, ho, hid⟩) (fun j hj hid => hcancel (hid ▸ hj))
        have hsub : call.submittedQty id = 0 := by
          cases call with
          | cancel j => rfl
          | submit o => exact if_neg fun hid => hself ⟨o, rfl, hid⟩
        rw [hsub]
        dsimp only
        rcases hout.eq with hz | heq
        · exact Or.inl (by omega)
        · exact Or.inr (by omega)

/-- In a run that submits `id` at most once every submit of it is the first. -/
theorem firstUse_of_count {cs : List Call} (hone : (submittedIds cs).count id ≤ 1)
    {h₁ h₂ : List (Mealy.Entry Book Call Answer)} {e : Mealy.Entry Book Call Answer}
    (htr : Mealy.trace Book.step b cs = h₁ ++ e :: h₂) : FirstUse id h₁ e.input := by
  intro o ho hid hmem
  subst hid
  have hmap := Mealy.map_input_trace Book.step b cs
  rw [htr, List.map_append, List.map_cons] at hmap
  rw [← hmap, submittedIds_append, List.count_append, ho] at hone
  have hhead : (submittedIds (Call.submit o :: h₂.map Mealy.Entry.input)).count o.orderId
      = (submittedIds (h₂.map Mealy.Entry.input)).count o.orderId + 1 := List.count_cons_self
  have hpos := List.count_pos_iff.mpr hmem
  omega

theorem outstanding_new (id : UInt64) : Outstanding id [] Book.new :=
  ⟨sound_new, tracks_new id, Nat.le_refl _, Or.inl rfl⟩

/-- **Along a run** that submits `id` at most once, and first in it. -/
theorem outstanding_exec {cs : List Call} (hstart : Outstanding id [] b)
    (hone : (submittedIds cs).count id ≤ 1) :
    Outstanding id (Mealy.trace Book.step b cs) (Mealy.exec Book.step b cs) := by
  refine Mealy.history_invariant (J := Outstanding id) (g := fun h _ call => FirstUse id h call)
    (fun h b call hJ hg => outstanding_step hJ hg) cs hstart fun h₁ e h₂ htr => ?_
  exact firstUse_of_count hone htr

/-- One of its steps. -/
theorem outstanding_trace {cs : List Call} (hstart : Outstanding id [] b)
    (hone : (submittedIds cs).count id ≤ 1) {h₁ h₂ : List (Mealy.Entry Book Call Answer)}
    {e : Mealy.Entry Book Call Answer} (htr : Mealy.trace Book.step b cs = h₁ ++ e :: h₂) :
    Outstanding id h₁ e.pre ∧ FirstUse id h₁ e.input ∧ Outstanding id (h₁ ++ [e]) e.post := by
  have hfirst := firstUse_of_count hone htr
  obtain ⟨cs₁, cs₂, rfl, rfl, hpre, -, hstep⟩ := Mealy.trace_split htr
  rw [submittedIds_append, List.count_append] at hone
  have hout := outstanding_exec hstart (show (submittedIds cs₁).count id ≤ 1 by omega)
  rw [← hpre] at hout
  have hlast := outstanding_step hout hfirst
  rw [hstep] at hlast
  exact ⟨hout, hfirst, hlast⟩

/-! ## Single fills -/

theorem executed_le_append (id : UInt64) (fs gs : List Fill) :
    executed id fs ≤ executed id (fs ++ gs) := by
  rw [executed_append]
  omega

/-- The taker's countdown, up to one of its fills. -/
theorem descends_cut : ∀ {q : ℕ} {g₁ g₂ : List Fill} {f : Fill},
    Fill.Descends q (g₁ ++ f :: g₂) →
      ((g₁ ++ [f]).map fun f => f.quantity.toNat).sum + f.takerRemainingAfter.toNat = q
  | q, [], g₂, f, h => by
      have h0 := h.1
      simp only [List.nil_append, List.map_cons, List.map_nil, List.sum_cons, List.sum_nil]
      omega
  | q, g :: g₁, g₂, f, h => by
      have ih := descends_cut h.2
      have h0 := h.1
      rw [List.cons_append, List.map_cons, List.sum_cons]
      omega

/-- **A taker's fill**: what is executed of the order by then and what the fill says remains make
up its quantity. -/
theorem taker_outstanding {h : List (Mealy.Entry Book Call Answer)} {g₁ g₂ : List Fill} {f : Fill}
    (hout : Outstanding o.orderId h b) (hfirst : FirstUse o.orderId h (Call.submit o))
    (hf : (b.submit o).2.1 = g₁ ++ f :: g₂) :
    executed o.orderId (fillsOf h ++ g₁ ++ [f]) + f.takerRemainingAfter.toNat
      = o.quantity.toNat := by
  have hlive := hout.sound.live
  obtain ⟨hz, he, -⟩ := hout.fresh hfirst o rfl rfl
  have hcut := (fills_submit o hlive).2.1
  rw [hf] at hcut
  have hmaker := balance_crossAll o.orderId o hlive
  rw [hz, ← submit_fills, hf, show g₁ ++ f :: g₂ = (g₁ ++ [f]) ++ g₂ by simp, makerQty,
    List.filter_append, List.map_append, List.sum_append] at hmaker
  have hby : ∀ k ∈ g₁ ++ [f], k.IsBy o := by
    intro k hk
    refine submit_isBy o hlive k ?_
    rw [hf, show g₁ ++ f :: g₂ = (g₁ ++ [f]) ++ g₂ by simp]
    exact List.mem_append_left _ hk
  have htaker : takerQty o.orderId (g₁ ++ [f])
      = ((g₁ ++ [f]).map fun f => f.quantity.toNat).sum := by
    rw [takerQty, List.filter_eq_self.mpr fun k hk => by simpa using (hby k hk).1]
  have hsum := descends_cut hcut
  rw [List.append_assoc, executed_append, he, executed, makerQty, htaker]
  omega

/-- Among the makers an order accepts, in priority order, one of the strategy's is where the
order's quantity runs out. -/
def Book.StopsWithinStrategy (b : Book) (o : NewOrder) : Prop :=
  ∃ ahead maker n behind, b.opposing o = ahead ++ (maker, n) :: behind ∧
    maker.isSynthetic = false ∧ supply ahead < o.quantity.toNat ∧
      o.quantity.toNat < supply ahead + n

instance (b : Book) (o : NewOrder) : Decidable (b.StopsWithinStrategy o) :=
  decidable_of_iff
    (Greedy.stopsWithin (fun t => !t.isSynthetic) o.quantity.toNat (b.opposing o) = true)
    ((Greedy.stopsWithin_iff _ _ _).trans (by simp [Book.StopsWithinStrategy]))

/-- The maker of a fill rests in the book the taker meets. -/
theorem maker_mem_orders {f : Fill} (hlive : b.LiveLevels) (hf : f ∈ (b.submit o).2.1) :
    ∃ n, ((f.take o.side.opposite).tag, n) ∈ b.orders := by
  obtain ⟨ahead, t, n, behind, hxs, ht, -⟩ := (exists_fill_iff hlive
    fun t => t = (f.take o.side.opposite).tag).mp ⟨f, hf, rfl⟩
  refine ⟨n, (orders_perm b o.side).symm.subset (List.mem_append_right _ ?_)⟩
  refine List.mem_of_mem_filter (p := fun x => o.acceptable x.1.price) ?_
  rw [← Book.opposing, hxs, ← ht]
  exact List.mem_append_right _ List.mem_cons_self

/-- **A maker's fill**: unless the taker stops within it, all of the order is executed by then. -/
theorem maker_outstanding {h : List (Mealy.Entry Book Call Answer)} {g₁ g₂ : List Fill} {f : Fill}
    (hout : Outstanding f.makerOrderId h b)
    (hpost : Outstanding f.makerOrderId (h ++ [⟨b, Call.submit o, ⟨(b.submit o).2.1,
      (b.submit o).2.2⟩, (b.submit o).1⟩]) (b.submit o).1)
    (hfirst : FirstUse f.makerOrderId h (Call.submit o))
    (hf : (b.submit o).2.1 = g₁ ++ f :: g₂) (hsyn : f.makerIsSynthetic = false)
    (hstop : ¬ b.StopsWithinStrategy o) : 0 < submittedUnder f.makerOrderId h ∧
      executed f.makerOrderId (fillsOf h ++ g₁ ++ [f]) = submittedUnder f.makerOrderId h := by
  have hlive := hout.sound.live
  have hs := crossAll_serves o hlive
  have htakes : consume o.quantity.toNat (b.opposing o)
      = g₁.map (Fill.take o.side.opposite) ++ f.take o.side.opposite
        :: g₂.map (Fill.take o.side.opposite) := by
    rw [← hs.fills, ← submit_fills, hf, List.map_append, List.map_cons]
  obtain ⟨ahead, n, behind, hxs, hlt, -, hamount, -⟩ := Greedy.consume_split htakes
  -- the fill takes all the maker had
  have hall : f.quantity.toNat = n := by
    have hnot : ¬ o.quantity.toNat < supply ahead + n := fun hq =>
      hstop ⟨ahead, _, n, behind, hxs, hsyn, hlt, hq⟩
    rw [show f.quantity.toNat = (f.take o.side.opposite).amount from rfl, hamount]
    omega
  have hmem : ((f.take o.side.opposite).tag, n) ∈ b.opposing o := by
    rw [hxs]
    exact List.mem_append_right _ List.mem_cons_self
  have horders : ((f.take o.side.opposite).tag, n) ∈ b.orders :=
    (orders_perm b o.side).symm.subset
      (List.mem_append_right _ (List.mem_of_mem_filter hmem))
  have hrest : b.restingQty f.makerOrderId = n := restingQty_of_mem hout.tracks horders rfl
  have hn : 0 < n := hlive.positive_opposing o _ hmem
  -- the maker is another order, so nothing is submitted under its id now
  have hother : o.orderId ≠ f.makerOrderId := by
    intro hid
    have hz := (hout.fresh hfirst o rfl hid).1
    omega
  have hsub : submittedUnder f.makerOrderId [⟨b, Call.submit o, ⟨(b.submit o).2.1,
      (b.submit o).2.2⟩, (b.submit o).1⟩] = 0 := by
    simp [submittedUnder, Call.submittedQty, hother]
  have heq := hout.eq.resolve_left (by omega)
  have hle := hpost.le
  rw [submittedUnder_append, hsub, fillsOf_append, fillsOf_singleton] at hle
  dsimp only at hle
  rw [hf, show g₁ ++ f :: g₂ = (g₁ ++ [f]) ++ g₂ by simp] at hle
  have hpart := executed_le_append f.makerOrderId (fillsOf h ++ (g₁ ++ [f])) g₂
  have hone : f.quantity.toNat ≤ executed f.makerOrderId [f] := by
    simp [executed, makerQty]
  rw [List.append_assoc] at hpart ⊢
  rw [executed_append _ _ (g₁ ++ [f]), executed_append _ g₁] at *
  omega

end HotpathIpc
