import HotpathIpc.OrderBook.Outstanding

/-!
# The synthetic participants

The seeded market of `src/bin/exchange.rs` that keeps the book liquid: each round posts a bid and
an ask, sometimes cancels an order of its own and sometimes sends a market order.

Everything a round takes from its random generator and its floating-point fair value is in
`Draws`, and results hold for all draws: any prices, any of the sizes, any choice to cancel or
cross.

* `Participants.act` — one round; `Participants.calls` — the calls it makes on the book, which
  depend on the participants and the draws but not on the book.
* **`act_book`**, **`act_fills`** — a round is a run of the book on its calls.
* **`synthetic_of_mem_calls`** — whatever it submits is flagged synthetic and has the top id bit.
-/

namespace HotpathIpc

/-- Fixed-point scale of quantities on the wire, `1e8`. -/
def scale : ℕ := 100000000

/-- The top bit marks a synthetic order id. -/
def SYNTHETIC_BIT : UInt64 := (1 : UInt64) <<< 63

structure Participants where
  nextSynId : UInt64
  live : List UInt64
deriving DecidableEq, Repr

/-- One round's draws.  Prices are what the fair value, the spread and the cast to ticks come to;
a size of `n` means `1 + n` units; `churn` is drawn when an order is to be cancelled, `cross` when
a market order is to be sent. -/
structure Draws where
  bidPx : Int
  askPx : Int
  bidUnits : Fin 4
  askUnits : Fin 4
  churn : Option UInt64
  cross : Option (Fin 3 × Side)
deriving DecidableEq, Repr

/-- A drawn size on the wire. -/
def lots {n : ℕ} (k : Fin n) : UInt64 := UInt64.ofNat (scale * (1 + k.val))

/-- `Vec::swap_remove`: take out one element and put the last one in its place. -/
def swapRemove {α : Type*} (xs : List α) (i : ℕ) : Option (α × List α) :=
  match xs[i]?, xs.getLast? with
  | some x, some last => some (x, (xs.set i last).dropLast)
  | _, _ => none

namespace Participants

def new : Participants := ⟨1, []⟩

/-- The next synthetic id. -/
def synId (p : Participants) : UInt64 := SYNTHETIC_BIT ||| p.nextSynId

/-- Issue it. -/
def issued (p : Participants) : Participants := { p with nextSynId := p.nextSynId + 1 }

/-- One side of the two-sided quote. -/
def quote (p : Participants) (side : Side) (px : Int) (sz : UInt64) : NewOrder :=
  ⟨p.synId, side, true, px, sz, 0, true⟩

/-- Issue an id and remember it as live. -/
def posted (p : Participants) : Participants := { p.issued with live := p.live ++ [p.synId] }

/-- Submit one side of the quote and remember it as live. -/
def post (p : Participants) (b : Book) (side : Side) (px : Int) (sz : UInt64) :
    Participants × Book × List Fill :=
  let r := b.submit (p.quote side px sz)
  (p.posted, r.1, r.2.1)

/-- The order a churn draw picks and the live list without it, if a churn was drawn and there is
an order. -/
def churned (p : Participants) (draw : Option UInt64) : Option (UInt64 × List UInt64) :=
  draw.bind fun k => swapRemove p.live (k.toNat % p.live.length)

/-- Occasionally cancel an older synthetic order. -/
def churn (p : Participants) (b : Book) (draw : Option UInt64) : Participants × Book :=
  match p.churned draw with
  | some (id, live) => ({ p with live := live }, (b.cancel id).1)
  | none => (p, b)

/-- The synthetic taker that crosses the spread. -/
def taker (p : Participants) (sz : UInt64) (side : Side) : NewOrder :=
  ⟨p.synId, side, false, 0, sz, 0, true⟩

/-- Occasionally a synthetic taker crosses the spread. -/
def cross (p : Participants) (b : Book) :
    Option (Fin 3 × Side) → Participants × Book × List Fill
  | some (n, side) =>
      let r := b.submit (p.taker (lots n) side)
      (p.issued, r.1, r.2.1)
  | none => (p, b, [])

/-- Run one round of participant activity against the book. -/
def act (p : Participants) (b : Book) (d : Draws) : Participants × Book × List Fill :=
  let bid := p.post b Side.buy d.bidPx (lots d.bidUnits)
  let ask := bid.1.post bid.2.1 Side.sell d.askPx (lots d.askUnits)
  let churned := ask.1.churn ask.2.1 d.churn
  let crossed := churned.1.cross churned.2 d.cross
  -- prune the ids that no longer rest
  ({ crossed.1 with live := crossed.1.live.filter crossed.2.1.isResting }, crossed.2.1,
    bid.2.2 ++ ask.2.2 ++ crossed.2.2)

/-! ## The calls of a round -/

/-- The participants after a churn draw. -/
def afterChurn (p : Participants) (draw : Option UInt64) : Participants :=
  match p.churned draw with
  | some (_, live) => { p with live := live }
  | none => p

def churnCalls (p : Participants) (draw : Option UInt64) : List Call :=
  match p.churned draw with
  | some (id, _) => [Call.cancel id]
  | none => []

def crossCalls (p : Participants) : Option (Fin 3 × Side) → List Call
  | some (n, side) => [Call.submit (p.taker (lots n) side)]
  | none => []

/-- The calls a round makes on the book. -/
def calls (p : Participants) (d : Draws) : List Call :=
  [Call.submit (p.quote Side.buy d.bidPx (lots d.bidUnits)),
    Call.submit (p.posted.quote Side.sell d.askPx (lots d.askUnits))]
    ++ (p.posted.posted.churnCalls d.churn
      ++ (p.posted.posted.afterChurn d.churn).crossCalls d.cross)

end Participants

/-- A book and the fills so far, after a list of calls. -/
def Book.run (b : Book) (cs : List Call) : Book × List Fill :=
  (Mealy.exec Book.step b cs, fillsOf (Mealy.trace Book.step b cs))

theorem run_append (b : Book) (cs cs' : List Call) : b.run (cs ++ cs')
    = (((b.run cs).1.run cs').1, (b.run cs).2 ++ ((b.run cs).1.run cs').2) := by
  rw [Book.run, Mealy.exec_append, Mealy.trace_append, fillsOf_append]
  rfl

theorem run_submit (b : Book) (o : NewOrder) :
    b.run [Call.submit o] = ((b.submit o).1, (b.submit o).2.1) := by
  simp [Book.run, fillsOf, Book.step]

variable (p : Participants) (b : Book)

theorem churn_eq (draw : Option UInt64) :
    p.churn b draw = (p.afterChurn draw, (b.run (p.churnCalls draw)).1) ∧
      (b.run (p.churnCalls draw)).2 = [] := by
  unfold Participants.churn Participants.afterChurn Participants.churnCalls
  cases p.churned draw with
  | none => exact ⟨rfl, rfl⟩
  | some x => exact ⟨rfl, rfl⟩

theorem cross_eq (draw : Option (Fin 3 × Side)) :
    (p.cross b draw).2 = b.run (p.crossCalls draw) := by
  cases draw with
  | none => rfl
  | some x =>
      obtain ⟨n, side⟩ := x
      rw [Participants.crossCalls, run_submit]
      rfl

/-- **A round is a run of the book on its calls.** -/
theorem act_run (d : Draws) : (p.act b d).2 = b.run (p.calls d) := by
  have hquotes : ∀ o o' : NewOrder, b.run [Call.submit o, Call.submit o']
      = (((b.submit o).1.submit o').1, (b.submit o).2.1 ++ ((b.submit o).1.submit o').2.1) := by
    intro o o'
    rw [show [Call.submit o, Call.submit o'] = [Call.submit o] ++ [Call.submit o'] from rfl,
      run_append, run_submit, run_submit]
  rw [Participants.calls, run_append, hquotes, run_append]
  simp only [Participants.act, Participants.post, cross_eq]
  rw [(churn_eq p.posted.posted _ d.churn).1, (churn_eq p.posted.posted _ d.churn).2]
  simp only [List.nil_append]

theorem act_book (d : Draws) : (p.act b d).2.1 = Mealy.exec Book.step b (p.calls d) :=
  congrArg Prod.fst (act_run p b d)

theorem act_fills (d : Draws) :
    (p.act b d).2.2 = fillsOf (Mealy.trace Book.step b (p.calls d)) :=
  congrArg Prod.snd (act_run p b d)

/-! ## What participants submit -/

variable {p}

theorem synId_ge (p : Participants) : 2 ^ 63 ≤ p.synId.toNat := by
  have hbit : SYNTHETIC_BIT.toNat = 2 ^ 63 := by decide
  rw [Participants.synId, UInt64.toNat_or, hbit]
  exact Nat.left_le_or

/-- **Everything a round submits** is flagged synthetic and has the top bit set in its id. -/
theorem synthetic_of_mem_calls {d : Draws} {o : NewOrder} (h : Call.submit o ∈ p.calls d) :
    o.isSynthetic = true ∧ 2 ^ 63 ≤ o.orderId.toNat := by
  have hcross : ∀ (q : Participants) draw, Call.submit o ∈ q.crossCalls draw →
      o.isSynthetic = true ∧ 2 ^ 63 ≤ o.orderId.toNat := by
    intro q draw hq
    cases draw with
    | none => exact absurd hq List.not_mem_nil
    | some x =>
        obtain rfl := Call.submit.inj (List.mem_singleton.mp hq)
        exact ⟨rfl, synId_ge q⟩
  have hchurn : ∀ (q : Participants) draw, Call.submit o ∉ q.churnCalls draw := by
    intro q draw hq
    unfold Participants.churnCalls at hq
    cases hc : q.churned draw with
    | none =>
        rw [hc] at hq
        exact absurd hq List.not_mem_nil
    | some x =>
        rw [hc] at hq
        exact Call.noConfusion (List.mem_singleton.mp hq)
  simp only [Participants.calls, List.mem_append, List.mem_cons, List.not_mem_nil, or_false] at h
  rcases h with (h | h) | h | h
  · obtain rfl := Call.submit.inj h
    exact ⟨rfl, synId_ge p⟩
  · obtain rfl := Call.submit.inj h
    exact ⟨rfl, synId_ge _⟩
  · exact absurd h (hchurn _ _)
  · exact hcross _ _ h

end HotpathIpc
