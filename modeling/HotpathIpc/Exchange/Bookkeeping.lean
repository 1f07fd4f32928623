import HotpathIpc.Exchange.Venue
import HotpathIpc.OrderBook.Arithmetic

/-!
# What the participants know of the book

`live` is meant to hold the synthetic orders that rest.  Between rounds it may hold more, since
strategy orders fill synthetic ones without telling the participants; it never holds less, and
that is what makes the next synthetic id fresh.

* `Participants.Knows` — the invariant that ties `live` and `next_syn_id` to the book.
* `knows_post`, `knows_churn`, `knows_cross`, `knows_order` — every change of either keeps it;
  **`knows_act`** — at the end of a round `live` is exact.
* **`bookkeeping`** — so no id is submitted while it rests, over whole runs.
-/

namespace HotpathIpc

open Std (ExtTreeMap)

/-- Taking out an element and filling the gap with the last one. -/
theorem swapRemove_perm {α : Type*} {xs ys : List α} {x : α} {i : ℕ}
    (h : swapRemove xs i = some (x, ys)) : (x :: ys).Perm xs := by
  unfold swapRemove at h
  cases hx : xs[i]? with
  | none =>
      rw [hx] at h
      exact absurd h (by simp)
  | some y =>
      obtain ⟨hi, hy⟩ := List.getElem?_eq_some_iff.mp hx
      have hsplit : xs = xs.take i ++ y :: xs.drop (i + 1) := by
        rw [← hy, List.getElem_cons_drop, List.take_append_drop]
      have hset : ∀ a, xs.set i a = xs.take i ++ a :: xs.drop (i + 1) := fun a => by
        rw [List.set_eq_take_append_cons_drop, if_pos hi]
      rcases List.eq_nil_or_concat' (xs.drop (i + 1)) with hnil | ⟨r, last, hr⟩
      · -- it is the last one itself
        have hlast : xs.getLast? = some y := by
          rw [hsplit, hnil, List.getLast?_concat]
        rw [hx, hlast] at h
        obtain ⟨rfl, rfl⟩ := Prod.mk.inj (Option.some.inj h)
        rw [hset, hnil, List.dropLast_concat]
        rw [hnil] at hsplit
        exact (List.perm_append_singleton _ _).symm.trans (List.Perm.of_eq hsplit.symm)
      · have hlast : xs.getLast? = some last := by
          rw [hsplit, hr, ← List.cons_append, ← List.append_assoc, List.getLast?_concat]
        rw [hx, hlast] at h
        obtain ⟨rfl, rfl⟩ := Prod.mk.inj (Option.some.inj h)
        rw [hset, hr, ← List.cons_append, ← List.append_assoc, List.dropLast_concat]
        refine List.Perm.trans ?_ (List.Perm.of_eq hsplit.symm)
        rw [hr]
        refine List.Perm.trans ?_ List.perm_middle.symm
        exact ((List.perm_append_singleton last r).symm.append_left _).cons y

/-! ## The invariant -/

/-- What ties the participants to the book: `live` lists issued synthetic ids, each once, and all
those that rest. -/
structure Participants.Knows (p : Participants) (b : Book) : Prop where
  nodup : p.live.Nodup
  issued : ∀ id ∈ p.live, 2 ^ 63 ≤ id.toNat ∧ id.toNat < 2 ^ 63 + p.nextSynId.toNat
  all : ∀ id, 2 ^ 63 ≤ id.toNat → b.isResting id = true → id ∈ p.live

/-- The synthetic ids that a round issues. -/
def Draws.issues (d : Draws) : ℕ := if d.cross.isSome then 3 else 2

/-- The synthetic ids that a turn issues. -/
def Event.issues : Event → ℕ
  | Event.order _ => 0
  | Event.round d => d.issues

variable {p : Participants} {b : Book}

/-- While the counter has not reached the top bit, the ids issued are that bit plus the counter. -/
theorem synId_toNat (hlt : p.nextSynId.toNat < 2 ^ 63) :
    p.synId.toNat = 2 ^ 63 + p.nextSynId.toNat := by
  have hbit : SYNTHETIC_BIT.toNat = 2 ^ 63 := by decide
  have hor := Nat.two_pow_add_eq_or_of_lt hlt 1
  rw [Nat.mul_one] at hor
  rw [Participants.synId, UInt64.toNat_or, hbit, hor]

theorem nextSynId_issued (hlt : p.nextSynId.toNat < 2 ^ 63) :
    p.issued.nextSynId.toNat = p.nextSynId.toNat + 1 := by
  rw [Participants.issued, UInt64.toNat_add]
  have hone : (1 : UInt64).toNat = 1 := rfl
  omega

/-- Only a submit can make an id rest, and only its own. -/
theorem isResting_step (call : Call) {id : UInt64} (hb : b.Sound)
    (h : (b.step call).1.isResting id = true) :
    b.isResting id = true ∨ ∃ o, call = Call.submit o ∧ o.orderId = id := by
  by_cases hold : b.isResting id = true
  · exact Or.inl hold
  · refine Or.inr ?_
    by_contra hno
    have hloc := isResting_eq_false.mp (Bool.eq_false_of_not_eq_true hold)
    have hgone := (locate_step_none ⟨hb, hloc⟩ fun o ho he => hno ⟨o, ho, he⟩).2
    rw [isResting_eq_false.mpr hgone] at h
    exact absurd h (by decide)

/-- A cancelled id does not rest. -/
theorem isResting_cancel (b : Book) (id : UInt64) : (b.cancel id).1.isResting id = false := by
  rw [isResting_eq_false]
  cases hloc : b.locate[id]? with
  | none => rw [cancel_none hloc, hloc]
  | some up => rw [locate_cancel hloc, ExtTreeMap.getElem?_erase, if_pos (by simp)]

/-- A market order does not come to rest. -/
theorem isResting_market {o : NewOrder} {id : UInt64} (hb : b.Sound) (hmarket : o.isLimit = false)
    (h : (b.submit o).1.isResting id = true) : b.isResting id = true := by
  by_contra hold
  have hloc := isResting_eq_false.mp (Bool.eq_false_of_not_eq_true hold)
  have hgone := locate_crossAll_none (o := o) hb.live hloc
  have hbook : (b.submit o).1 = (b.crossAll o).book := by
    rcases submit_cases b o with ⟨-, he⟩ | ⟨-, -, he⟩ | ⟨-, hlimit, -⟩
    · rw [he]
    · rw [he]
    · exact absurd (hmarket.symm.trans hlimit) (by decide)
  rw [hbook, isResting_eq_false.mpr hgone] at h
  exact absurd h (by decide)

namespace Participants.Knows

/-- **The next synthetic id is fresh.** -/
theorem fresh (h : p.Knows b) (hlt : p.nextSynId.toNat < 2 ^ 63) :
    b.isResting p.synId = false := by
  have hid := synId_toNat hlt
  rw [← Bool.not_eq_true]
  intro hrests
  have hbound := (h.issued _ (h.all _ (by omega) hrests)).2
  omega

/-- The book may lose synthetic orders behind the participants' back. -/
theorem mono {b' : Book} (h : p.Knows b)
    (hsub : ∀ id, 2 ^ 63 ≤ id.toNat → b'.isResting id = true → b.isResting id = true) :
    p.Knows b' :=
  ⟨h.nodup, h.issued, fun id hid hrests => h.all id hid (hsub id hid hrests)⟩

/-- Issuing an id that is not kept. -/
theorem issue (h : p.Knows b) (hlt : p.nextSynId.toNat < 2 ^ 63) : p.issued.Knows b := by
  refine ⟨h.nodup, fun id hid => ?_, h.all⟩
  have hnext := nextSynId_issued hlt
  obtain ⟨hge, hlt'⟩ := h.issued id hid
  exact ⟨hge, by omega⟩

end Participants.Knows

/-! ## One change at a time -/

theorem knows_new : Participants.new.Knows Book.new where
  nodup := List.nodup_nil
  issued := fun _ hid => absurd hid List.not_mem_nil
  all := fun id _ hrests => absurd hrests (by
    rw [isResting_eq_false.mpr (show Book.new.locate[id]? = none by simp)]
    decide)

/-- One side of the quote. -/
theorem knows_post (h : p.Knows b) (hb : b.Sound) (hlt : p.nextSynId.toNat < 2 ^ 63) (side : Side)
    (px : Int) (sz : UInt64) : p.posted.Knows (b.submit (p.quote side px sz)).1 where
  nodup := by
    have hid := synId_toNat hlt
    refine List.nodup_append.mpr ⟨h.nodup, List.nodup_singleton _, ?_⟩
    rintro id hin _ hself rfl
    rw [List.mem_singleton] at hself
    have hbound := (h.issued id hin).2
    rw [hself] at hbound
    omega
  issued := by
    intro id hin
    have hnext : p.posted.nextSynId.toNat = p.nextSynId.toNat + 1 := nextSynId_issued hlt
    rcases List.mem_append.mp hin with hin | hself
    · obtain ⟨hge, hbound⟩ := h.issued id hin
      exact ⟨hge, by omega⟩
    · have hid := synId_toNat hlt
      rw [List.mem_singleton.mp hself]
      exact ⟨by omega, by omega⟩
  all := by
    intro id hid hrests
    rcases isResting_step (Call.submit (p.quote side px sz)) hb hrests with hold | ⟨o, ho, rfl⟩
    · exact List.mem_append_left _ (h.all id hid hold)
    · rw [← Call.submit.inj ho]
      exact List.mem_append_right _ (List.mem_singleton.mpr rfl)

/-- The occasional cancel. -/
theorem knows_churn (h : p.Knows b) (hb : b.Sound) (draw : Option UInt64) :
    (p.churn b draw).1.Knows (p.churn b draw).2 := by
  unfold Participants.churn
  cases hc : p.churned draw with
  | none => exact h
  | some picked =>
      obtain ⟨id, live⟩ := picked
      obtain ⟨k, -, hpick⟩ := Option.bind_eq_some_iff.mp hc
      have hperm := swapRemove_perm hpick
      refine ⟨(List.nodup_cons.mp (hperm.nodup_iff.mpr h.nodup)).2, fun j hj => ?_,
        fun j hj hrests => ?_⟩
      · exact h.issued j (hperm.subset (List.mem_cons_of_mem _ hj))
      · have hold : b.isResting j = true := by
          rcases isResting_step (Call.cancel id) hb hrests with hold | ⟨o, ho, -⟩
          · exact hold
          · exact Call.noConfusion ho
        rcases List.mem_cons.mp (hperm.symm.subset (h.all j hj hold)) with rfl | hin
        · rw [isResting_cancel] at hrests
          exact absurd hrests (by decide)
        · exact hin

/-- The occasional taker. -/
theorem knows_cross (h : p.Knows b) (hb : b.Sound) (draw : Option (Fin 3 × Side))
    (hlt : draw.isSome → p.nextSynId.toNat < 2 ^ 63) :
    (p.cross b draw).1.Knows (p.cross b draw).2.1 := by
  cases draw with
  | none => exact h
  | some drawn =>
      exact (h.issue (hlt rfl)).mono fun _ _ hrests => isResting_market hb rfl hrests

theorem sound_churn (hb : b.Sound) (draw : Option UInt64) : (p.churn b draw).2.Sound := by
  rw [(churn_eq p b draw).1]
  exact (sound_run hb _).1

theorem nextSynId_churn (p : Participants) (b : Book) (draw : Option UInt64) :
    (p.churn b draw).1.nextSynId = p.nextSynId := by
  unfold Participants.churn
  cases p.churned draw with
  | none => rfl
  | some _ => rfl

theorem nextSynId_cross (b : Book) (draw : Option (Fin 3 × Side))
    (hlt : draw.isSome → p.nextSynId.toNat < 2 ^ 63) : (p.cross b draw).1.nextSynId.toNat
      = p.nextSynId.toNat + if draw.isSome then 1 else 0 := by
  cases draw with
  | none => rfl
  | some drawn => exact nextSynId_issued (hlt rfl)

/-- A cancel is fresh, whatever it cancels. -/
theorem fresh_churnCalls {draw : Option UInt64} :
    ∀ e ∈ Mealy.trace Book.step b (p.churnCalls draw), e.input.Fresh e.pre := by
  intro e he
  unfold Participants.churnCalls at he
  cases hc : p.churned draw with
  | none =>
      rw [hc] at he
      exact absurd he List.not_mem_nil
  | some picked =>
      rw [hc] at he
      rw [List.mem_singleton.mp he]
      trivial

theorem fresh_crossCalls (h : p.Knows b) {draw : Option (Fin 3 × Side)}
    (hlt : draw.isSome → p.nextSynId.toNat < 2 ^ 63) :
    ∀ e ∈ Mealy.trace Book.step b (p.crossCalls draw), e.input.Fresh e.pre := by
  intro e he
  cases draw with
  | none => exact absurd he List.not_mem_nil
  | some drawn =>
      rw [List.mem_singleton.mp he]
      exact h.fresh (hlt rfl)

/-! ## A round and a command -/

/-- **A round** submits fresh ids only, issues the ids it counts, and leaves `live` with exactly
the synthetic ids that rest. -/
theorem knows_act (h : p.Knows b) (hb : b.Sound) (d : Draws)
    (hlt : p.nextSynId.toNat + d.issues ≤ 2 ^ 63) :
    (∀ e ∈ Mealy.trace Book.step b (p.calls d), e.input.Fresh e.pre) ∧
      (p.act b d).1.Knows (p.act b d).2.1 ∧
      (∀ id ∈ (p.act b d).1.live, (p.act b d).2.1.isResting id = true) ∧
      (p.act b d).1.nextSynId.toNat = p.nextSynId.toNat + d.issues := by
  -- the counter along the way
  have hissues : 2 ≤ d.issues := by
    unfold Draws.issues
    split <;> omega
  have hlt₁ : p.nextSynId.toNat < 2 ^ 63 := by omega
  have hnext₁ : p.posted.nextSynId.toNat = p.nextSynId.toNat + 1 := nextSynId_issued hlt₁
  have hlt₂ : p.posted.nextSynId.toNat < 2 ^ 63 := by omega
  have hnext₂ : p.posted.posted.nextSynId.toNat = p.posted.nextSynId.toNat + 1 :=
    nextSynId_issued hlt₂
  -- the invariant along the way
  let b₁ := (b.submit (p.quote Side.buy d.bidPx (lots d.bidUnits))).1
  let b₂ := (b₁.submit (p.posted.quote Side.sell d.askPx (lots d.askUnits))).1
  have hb₁ : b₁.Sound := sound_submit _ hb
  have hb₂ : b₂.Sound := sound_submit _ hb₁
  have h₁ : p.posted.Knows b₁ := knows_post h hb hlt₁ _ _ _
  have h₂ : p.posted.posted.Knows b₂ := knows_post h₁ hb₁ hlt₂ _ _ _
  have h₃ := knows_churn h₂ hb₂ d.churn
  have hb₃ : (p.posted.posted.churn b₂ d.churn).2.Sound := sound_churn hb₂ d.churn
  have hnext₃ := nextSynId_churn p.posted.posted b₂ d.churn
  have hlt₃ : d.cross.isSome → (p.posted.posted.churn b₂ d.churn).1.nextSynId.toNat < 2 ^ 63 := by
    intro hsome
    rw [hnext₃]
    rw [Draws.issues, if_pos hsome] at hlt
    omega
  have h₄ := knows_cross h₃ hb₃ d.cross hlt₃
  have hnext₄ := nextSynId_cross (p.posted.posted.churn b₂ d.churn).2 d.cross hlt₃
  refine ⟨?_, ⟨h₄.nodup.filter _, fun id hid => ?_, fun id hid hrests => ?_⟩, fun id hid => ?_, ?_⟩
  · intro e he
    rw [Participants.calls, Mealy.trace_append, List.mem_append, Mealy.trace_append,
      List.mem_append] at he
    rcases he with he | he | he
    · rcases List.mem_cons.mp he with rfl | he
      · exact h.fresh hlt₁
      · rw [List.mem_singleton.mp he]
        exact h₁.fresh hlt₂
    · exact fresh_churnCalls e he
    · obtain ⟨hchurn, -⟩ := churn_eq p.posted.posted b₂ d.churn
      refine fresh_crossCalls (p := p.posted.posted.afterChurn d.churn)
        (b := (b₂.run (p.posted.posted.churnCalls d.churn)).1) ?_ ?_ e he
      · rw [hchurn] at h₃
        exact h₃
      · rw [hchurn] at hlt₃
        exact hlt₃
  · exact h₄.issued id (List.mem_of_mem_filter hid)
  · exact List.mem_filter.mpr ⟨h₄.all id hid hrests, hrests⟩
  · exact (List.mem_filter.mp hid).2
  · refine hnext₄.trans ?_
    rw [hnext₃, Draws.issues]
    split <;> omega

/-- **A command** with an id below the top bit, whose order is not resting if it is a new one,
submits a fresh id and does not disturb the invariant. -/
theorem knows_order (h : p.Knows b) (hb : b.Sound) {cmd : OrderCommand}
    (hid : cmd.orderId.toNat < 2 ^ 63)
    (hnew : cmd.action ≠ 1 → cmd.action ≠ 2 → b.isResting cmd.orderId = false) :
    (∀ e ∈ Mealy.trace Book.step b cmd.calls, e.input.Fresh e.pre) ∧
      p.Knows (b.matchStrategyOrder cmd).1 := by
  constructor
  · intro e he
    unfold OrderCommand.calls at he
    split at he
    · rw [List.mem_singleton.mp he]
      trivial
    · rename_i h1
      split at he
      · -- a modify cancels the id first
        rcases List.mem_cons.mp he with rfl | he
        · trivial
        · rw [List.mem_singleton.mp he]
          exact isResting_cancel b cmd.orderId
      · rename_i h2
        rw [List.mem_singleton.mp he]
        exact hnew h1 h2
  · rw [show (b.matchStrategyOrder cmd).1 = Mealy.exec Book.step b cmd.calls from
      congrArg Prod.fst (match_run b cmd)]
    refine h.mono fun id hge hrests => ?_
    by_contra hold
    have hother : id ∉ submittedIds cmd.calls := by
      intro hin
      obtain ⟨call, hcall, hsome⟩ := List.mem_filterMap.mp hin
      cases call with
      | cancel j => exact absurd hsome (by simp)
      | submit o =>
          obtain rfl : o.orderId = id := Option.some.inj hsome
          have hmem : Call.submit o ∈ (Exchange.mk b p).calls (Event.order cmd) := hcall
          rcases submit_mem_calls hmem with ⟨cmd', hcmd, -, rfl⟩ | ⟨d, hd, -⟩
          · rw [Event.order.inj hcmd] at hid
            exact absurd hid (Nat.not_lt.mpr hge)
          · exact Event.noConfusion hd
    have hloc := isResting_eq_false.mp (Bool.eq_false_of_not_eq_true hold)
    rw [isResting_eq_false.mpr (locate_exec_none hb hloc hother)] at hrests
    exact absurd hrests (by decide)

/-! ## Whole runs -/

variable {commission : Int → UInt64 → Int}

/-- A command the loop may be given: an id below the top bit, and for a new order one that does not
rest. -/
def Event.Proper (x : Exchange) : Event → Prop
  | Event.order cmd => cmd.orderId.toNat < 2 ^ 63 ∧
      (cmd.action ≠ 1 → cmd.action ≠ 2 → x.book.isResting cmd.orderId = false)
  | Event.round _ => True

instance (x : Exchange) (ev : Event) : Decidable (ev.Proper x) := by
  cases ev <;> unfold Event.Proper <;> infer_instance

/-- In a run that issues few enough ids, the participants know the book before every turn and the
counter has room for the turn. -/
theorem knows_trace : ∀ {evs : List Event} {x : Exchange}, x.book.Sound →
    x.participants.Knows x.book →
    (∀ e ∈ Mealy.trace (Exchange.step commission) x evs, e.input.Proper e.pre) →
    x.participants.nextSynId.toNat + (evs.map Event.issues).sum ≤ 2 ^ 63 →
    ∀ e ∈ Mealy.trace (Exchange.step commission) x evs, e.pre.book.Sound ∧
      e.pre.participants.Knows e.pre.book ∧
      e.pre.participants.nextSynId.toNat + e.input.issues ≤ 2 ^ 63
  | [], _, _, _, _, _ => fun _ he => absurd he List.not_mem_nil
  | ev :: evs, x, hb, h, hproper, hlt => by
      rw [List.map_cons, List.sum_cons] at hlt
      have hsound : (x.step commission ev).1.book.Sound := by
        rw [step_book]
        exact (sound_run hb _).1
      have hnext : (x.step commission ev).1.participants.Knows (x.step commission ev).1.book ∧
          (x.step commission ev).1.participants.nextSynId.toNat
            = x.participants.nextSynId.toNat + ev.issues := by
        cases ev with
        | order cmd =>
            obtain ⟨hid, hnew⟩ := hproper _ List.mem_cons_self
            exact ⟨(knows_order h hb hid hnew).2, rfl⟩
        | round d =>
            have hround : (Event.round d).issues = d.issues := rfl
            obtain ⟨-, hknows, -, hcount⟩ := knows_act h hb d (by omega)
            exact ⟨hknows, hcount⟩
      intro e he
      rcases List.mem_cons.mp he with rfl | he
      · exact ⟨hb, h, by dsimp only; omega⟩
      · exact knows_trace hsound hnext.1 (fun e he => hproper e (List.mem_cons_of_mem _ he))
          (by rw [hnext.2]; omega) e he

section Run

variable {evs : List Event}
  (hproper : ∀ e ∈ Mealy.trace (Exchange.step commission) Exchange.new evs, e.input.Proper e.pre)
  (hissued : (evs.map Event.issues).sum < 2 ^ 63)

include hproper hissued

theorem knows_venue : ∀ e ∈ Mealy.trace (Exchange.step commission) Exchange.new evs,
    e.pre.book.Sound ∧ e.pre.participants.Knows e.pre.book ∧
      e.pre.participants.nextSynId.toNat + e.input.issues ≤ 2 ^ 63 := by
  have hfirst : Exchange.new.participants.nextSynId.toNat = 1 := rfl
  exact knows_trace sound_new knows_new hproper (by omega)

/-- **Every id is fresh when it is submitted.** -/
theorem fresh_bookCalls :
    ∀ e ∈ Mealy.trace Book.step Book.new (bookCalls commission Exchange.new evs),
      e.input.Fresh e.pre := by
  intro e he
  rw [show Book.new = Exchange.new.book from rfl, (calls_trace Exchange.new evs).2] at he
  obtain ⟨turn, hturn, hcall⟩ := List.mem_flatMap.mp he
  obtain ⟨hb, h, hlt⟩ := knows_venue hproper hissued turn hturn
  have hin := hproper turn hturn
  cases hev : turn.input with
  | order cmd =>
      rw [hev] at hin hcall
      exact (knows_order h hb hin.1 hin.2).1 e hcall
  | round d =>
      rw [hev] at hlt hcall
      exact (knows_act h hb d hlt).1 e hcall

/-- So the index of the book is right, and the flag of a resting order is the top bit of its id. -/
theorem tracks_venue (id : UInt64) :
    (Mealy.exec (Exchange.step commission) Exchange.new evs).book.Tracks id := by
  rw [← (calls_trace Exchange.new evs).1]
  exact (tracks_trace (fresh_bookCalls hproper hissued) id).1

omit hissued in
theorem flag_venue :
    ∀ x ∈ (Mealy.exec (Exchange.step commission) Exchange.new evs).book.orders,
      x.1.isSynthetic = true ↔ 2 ^ 63 ≤ x.1.orderId.toNat := by
  have hcs : ∀ o, Call.submit o ∈ bookCalls commission Exchange.new evs →
      (o.isSynthetic = true ↔ 2 ^ 63 ≤ o.orderId.toNat) := by
    intro o ho
    obtain ⟨turn, hturn, hcall⟩ := List.mem_flatMap.mp ho
    rcases submit_mem_calls hcall with ⟨cmd, hev, -, rfl⟩ | ⟨d, -, hsyn, hge⟩
    · have hin := hproper turn hturn
      rw [hev] at hin
      exact ⟨fun hsyn => absurd hsyn (by simp [OrderCommand.newOrder]),
        fun hge => absurd hin.1 (Nat.not_lt.mpr hge)⟩
    · exact ⟨fun _ => hge, fun _ => hsyn⟩
  rw [← (calls_trace Exchange.new evs).1]
  exact (orders_trace (P := fun id synthetic => synthetic = true ↔ 2 ^ 63 ≤ id.toNat) sound_new
    (fun _ hx => absurd hx List.not_mem_nil) hcs).1

end Run

/-- **Participants' bookkeeping.**  Over any run that interleaves rounds with commands whose ids
have no top bit and, for new orders, do not rest, and that issues fewer than `2 ^ 63` synthetic
ids: no id is submitted to the book while it rests, and after every round `live` lists, each once,
exactly the synthetic orders that rest. -/
theorem bookkeeping (commission : Int → UInt64 → Int) (evs : List Event)
    (hproper : ∀ e ∈ Mealy.trace (Exchange.step commission) Exchange.new evs,
      e.input.Proper e.pre)
    (hissued : (evs.map Event.issues).sum < 2 ^ 63) :
    (∀ e ∈ Mealy.trace Book.step Book.new (bookCalls commission Exchange.new evs),
      e.input.Fresh e.pre) ∧
    ∀ e ∈ Mealy.trace (Exchange.step commission) Exchange.new evs, ∀ d, e.input = Event.round d →
      e.post.participants.live.Nodup ∧
      (∀ id, id ∈ e.post.participants.live ↔ 2 ^ 63 ≤ id.toNat ∧ id ∈ e.post.book.queuedIds) ∧
      ∀ x ∈ e.post.book.orders, x.1.isSynthetic = true ↔ 2 ^ 63 ≤ x.1.orderId.toNat := by
  refine ⟨fresh_bookCalls hproper hissued, fun e he d hround => ?_⟩
  -- the run up to the end of this round
  obtain ⟨h₁, h₂, hsplit⟩ := List.append_of_mem he
  obtain ⟨evs₁, evs₂, rfl, -, hpre, -, hstep⟩ := Mealy.trace_split hsplit
  have hend : Mealy.exec (Exchange.step commission) Exchange.new (evs₁ ++ [e.input]) = e.post := by
    rw [Mealy.exec_append, ← hpre, Mealy.exec_cons, hstep]
    rfl
  have hevs : evs₁ ++ e.input :: evs₂ = (evs₁ ++ [e.input]) ++ evs₂ := by simp
  have hproper' : ∀ x ∈ Mealy.trace (Exchange.step commission) Exchange.new (evs₁ ++ [e.input]),
      x.input.Proper x.pre := by
    intro x hx
    refine hproper x ?_
    rw [hevs, Mealy.trace_append]
    exact List.mem_append_left _ hx
  have hissued' : ((evs₁ ++ [e.input]).map Event.issues).sum < 2 ^ 63 := by
    rw [hevs, List.map_append, List.sum_append] at hissued
    omega
  have htracks := tracks_venue hproper' hissued'
  have hflag := flag_venue hproper'
  rw [hend] at htracks hflag
  obtain ⟨hb, h, hlt⟩ := knows_venue hproper hissued e he
  rw [hround] at hlt hstep
  obtain ⟨-, hknows, hrests, -⟩ := knows_act h hb d hlt
  rw [← (Prod.mk.inj hstep).1] at htracks hflag ⊢
  refine ⟨hknows.nodup, fun id => ⟨fun hid => ⟨(hknows.issued id hid).1, ?_⟩, fun hid => ?_⟩, hflag⟩
  · exact (isResting_iff_queued htracks id).mp (hrests id hid)
  · exact hknows.all id hid.1 ((isResting_iff_queued htracks id).mpr hid.2)

/-- A round, a strategy order that fills a synthetic one, its replacement, a round that cancels one
order and sends a taker, and a cancel. -/
theorem bookkeeping_run :
    let evs := [Event.round calmRound, Event.order ⟨1, 5000100000000, 200000000, 7, 0, 1, 0⟩,
      Event.order ⟨1, 5000100000000, 100000000, 8, 0, 1, 2⟩,
      Event.round ⟨4999900000000, 5000200000000, 0, 0, some 0, some (1, Side.sell)⟩,
      Event.order ⟨1, 0, 0, 9, 0, 1, 1⟩]
    ∀ e ∈ Mealy.trace Book.step Book.new (bookCalls oneBp Exchange.new evs),
      e.input.Fresh e.pre := by
  exact (bookkeeping oneBp _ (by decide +kernel) (by decide)).1

end HotpathIpc
