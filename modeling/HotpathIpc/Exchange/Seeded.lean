import HotpathIpc.Exchange.Venue
import HotpathIpc.Library.Xorshift
import HotpathIpc.Strategy.Bytecode

/-!
# The seeded market

The participants of `src/bin/exchange.rs` as the source has them, with the generator that draws for
them and the fair value that they quote around.  `Participants.act` leaves all this to `Draws`; here
the draws are computed, and a round is shown to be one of its rounds.

* The generator is exact.
* Floating point is any `MarketF64`: the arithmetic of the strategy, a logarithm, a cosine and the
  casts.  Only one law is assumed of it, that sizes of up to four units come out exact.

* `Rng` — xorshift64*; **`rng_never_stuck`** — it reaches neither 0 nor a state twice before it is
  back at its seed.
* `SeededParticipants.act` — one round, step by step as the source makes it.
* **`seeded_refines`** — every run of the seeded exchange is a run of `Exchange.step`, for some
  draws.
-/

namespace HotpathIpc

/-- The floating-point arithmetic of the participants. -/
class MarketF64 (F : Type) extends F64 F where
  ln : F → F
  cos : F → F
  max : F → F → F
  /-- `as f64` of a `u64` -/
  ofU64 : UInt64 → F
  /-- `as i64` and `as u64`, which round towards zero and saturate -/
  toI64 : F → Int
  toU64 : F → UInt64
  toU64_units : ∀ n, n.toNat < 4 →
    toU64 (ofU64 (1 + n) * 100000000.0) = UInt64.ofNat (scale * (1 + n.toNat))

variable {F : Type} [MarketF64 F]

/-! ## The generator -/

/-- A deterministic generator (xorshift64*). -/
structure Rng where
  state : UInt64
deriving DecidableEq, Repr

namespace Rng

def new (seed : UInt64) : Rng := ⟨seed ||| 1⟩

/-- The step of the state. -/
def advance (x : UInt64) : UInt64 :=
  let x := x ^^^ (x >>> 12)
  let x := x ^^^ (x <<< 25)
  x ^^^ (x >>> 27)

/-- What a state puts out. -/
def scramble (x : UInt64) : UInt64 := x * 0x2545F4914F6CDD1D

def nextU64 (r : Rng) : Rng × UInt64 :=
  let x := advance r.state
  (⟨x⟩, scramble x)

/-- Uniform in [0, 1). -/
def unit (r : Rng) : Rng × F :=
  let x := r.nextU64
  (x.1, MarketF64.ofU64 (x.2 >>> 11) / MarketF64.ofU64 ((1 : UInt64) <<< 53))

/-- Standard normal via Box–Muller. -/
def normal (r : Rng) : Rng × F :=
  let u1 : Rng × F := r.unit
  let u2 : Rng × F := u1.1.unit
  (u2.1, F64.sqrt (-2.0 * MarketF64.ln (MarketF64.max u1.2 1e-12))
    * MarketF64.cos (6.283185307179586 * u2.2))

/-- Integer in [0, n). -/
def below (r : Rng) (n : UInt64) : Rng × UInt64 :=
  if n = 0 then (r, 0)
  else
    let x := r.nextU64
    (x.1, x.2 % n)

end Rng

theorem toNat_below_lt (r : Rng) {n : UInt64} (hn : n ≠ 0) :
    (r.below n).2.toNat < n.toNat := by
  rw [Rng.below, if_neg hn]
  dsimp only
  rw [UInt64.toNat_mod]
  exact Nat.mod_lt _ (Nat.pos_of_ne_zero (mt toNat_eq_zero.mp hn))

/-! ## Its orbit -/

theorem toBitVec_advance (x : UInt64) : (Rng.advance x).toBitVec
    = Xorshift.mixRight 27 (Xorshift.mixLeft 25 (Xorshift.mixRight 12 x.toBitVec)) := rfl

/-- The step loses nothing. -/
theorem advance_injective : Function.Injective Rng.advance := by
  intro x y h
  have hbits := congrArg UInt64.toBitVec h
  rw [toBitVec_advance, toBitVec_advance] at hbits
  have hmix := Xorshift.mixRight_injective (by decide) hbits
  exact UInt64.eq_of_toBitVec_eq (Xorshift.mixRight_injective (by decide)
    (Xorshift.mixLeft_injective (by decide) hmix))

/-- Nor does the output: the multiplier is odd. -/
theorem scramble_injective : Function.Injective Rng.scramble := by
  intro x y h
  have hinv : (0x2545F4914F6CDD1D : UInt64) * 0x59071D96D81ECD35 = 1 := by decide
  have hback := congrArg (· * (0x59071D96D81ECD35 : UInt64)) h
  simp only [Rng.scramble, UInt64.mul_assoc, hinv, UInt64.mul_one] at hback
  exact hback

/-- The generator after some draws. -/
def Rng.after (r : Rng) (n : ℕ) : Rng := (fun r : Rng => r.nextU64.1)^[n] r

theorem state_after (r : Rng) (n : ℕ) : (r.after n).state = Rng.advance^[n] r.state := by
  induction n with
  | zero => rfl
  | succ n ih => rw [Rng.after, Function.iterate_succ_apply', Function.iterate_succ_apply', ← ih]; rfl

/-- **The generator never gets stuck.**  From any seed, no draw finds it at 0 or puts out 0; two of
its states put out the same number only if they are the same; and it comes back to where it
started, so all that it ever puts out is one cycle. -/
theorem rng_never_stuck (seed : UInt64) :
    (∀ n, ((Rng.new seed).after n).state ≠ 0 ∧ ((Rng.new seed).after n).nextU64.2 ≠ 0) ∧
      (∀ m n, ((Rng.new seed).after m).nextU64.2 = ((Rng.new seed).after n).nextU64.2 →
        (Rng.new seed).after m = (Rng.new seed).after n) ∧
      ∃ p > 0, ∀ n, ((Rng.new seed).after (n + p)) = (Rng.new seed).after n := by
  have hseed : (Rng.new seed).state ≠ 0 := by
    intro h
    have hodd := congrArg UInt64.toNat h
    rw [Rng.new, UInt64.toNat_or, UInt64.toNat_one, UInt64.toNat_zero, Nat.or_eq_zero_iff] at hodd
    exact absurd hodd.2 (by decide)
  have hstate : ∀ n, Rng.advance^[n] (Rng.new seed).state ≠ 0 :=
    Xorshift.iterate_ne advance_injective (by decide) hseed
  refine ⟨fun n => ⟨?_, fun h => ?_⟩, fun m n h => ?_, ?_⟩
  · rw [state_after]
    exact hstate n
  · -- the output is that of the next state
    have hzero : Rng.scramble 0 = 0 := by decide
    refine hstate (n + 1) ?_
    rw [Function.iterate_succ_apply', ← state_after]
    exact scramble_injective (h.trans hzero.symm)
  · have hnext := advance_injective (scramble_injective h)
    exact congrArg Rng.mk hnext
  · have hfinite : Finite UInt64 :=
      Finite.of_injective UInt64.toFin fun _ _ h => UInt64.toFin_inj.mp h
    obtain ⟨p, hp, hback⟩ := Xorshift.returns advance_injective (Rng.new seed).state
    refine ⟨p, hp, fun n => ?_⟩
    have hstate : ((Rng.new seed).after (n + p)).state = ((Rng.new seed).after n).state := by
      rw [state_after, state_after, Function.iterate_add_apply, hback]
    exact congrArg Rng.mk hstate

/-! ## The participants -/

/-- The generator and the fair value, and the ids and live orders. -/
structure SeededParticipants (F : Type) where
  rng : Rng
  /-- in price units, not ticks -/
  fairValue : F
  vol : F
  drift : F
  regimeLeft : UInt64
  orders : Participants

/-- Convert a price in units to fixed-point ticks. -/
def toTicks (px : F) : Int := MarketF64.toI64 (px * 100000000.0)

/-- Half of the quoted spread. -/
def Rng.halfSpread (r : Rng) : Rng × F :=
  let tick : F := 1.0
  let k := r.below 3
  (k.1, tick * (1.0 + MarketF64.ofU64 k.2))

/-- A size on the wire, of below `n` units and one. -/
def Rng.size (F : Type) [MarketF64 F] (r : Rng) (n : UInt64) : Rng × UInt64 :=
  let k := r.below n
  (k.1, MarketF64.toU64 ((MarketF64.ofU64 (1 + k.2) : F) * 100000000.0))

namespace SeededParticipants

def new (seed : UInt64) (vol : F) : SeededParticipants F :=
  ⟨Rng.new seed, 50000.0, vol, 0.0, 0, Participants.new⟩

/-- A new regime, once the last one is over: which way the fair value drifts, and for how long. -/
def newRegime (s : SeededParticipants F) : SeededParticipants F :=
  let roll : Rng × F := s.rng.unit
  let drawn : Rng × F :=
    if F64.lt roll.2 0.35 then
      let u : Rng × F := roll.1.unit
      (u.1, s.vol * (0.15 + 0.25 * u.2))
    else if F64.lt roll.2 0.70 then
      let u : Rng × F := roll.1.unit
      (u.1, -s.vol * (0.15 + 0.25 * u.2))
    else (roll.1, 0.0)
  let left := drawn.1.below 6000
  { s with rng := left.1, drift := drawn.2, regimeLeft := 2000 + left.2 }

/-- Advance the fair value one step. -/
def stepFairValue (s : SeededParticipants F) : SeededParticipants F :=
  let s := if s.regimeLeft = 0 then s.newRegime else s
  let pull : F := (50000.0 - s.fairValue) * 0.0005
  let z : Rng × F := s.rng.normal
  let fairValue := s.fairValue + (s.drift + pull + s.vol * z.2)
  { s with
    rng := z.1
    regimeLeft := s.regimeLeft - 1
    fairValue := if F64.lt fairValue 1.0 then 1.0 else fairValue }

variable (F)

/-- Occasionally cancel an older synthetic order. -/
def churn (p : Participants) (b : Book) (r : Rng) : Rng × Participants × Book :=
  if p.live.isEmpty then (r, p, b)
  else
    let u : Rng × F := r.unit
    if F64.lt u.2 0.5 then
      let idx := u.1.below (UInt64.ofNat p.live.length)
      match swapRemove p.live idx.2.toNat with
      | some (id, live) => (idx.1, { p with live := live }, (b.cancel id).1)
      | none => (idx.1, p, b)
    else (u.1, p, b)

/-- Occasionally a synthetic taker crosses the spread. -/
def cross (p : Participants) (b : Book) (r : Rng) : Rng × Participants × Book × List Fill :=
  let u : Rng × F := r.unit
  if F64.lt u.2 0.25 then
    let sz := u.1.size F 3
    let coin : Rng × F := sz.1.unit
    let side := if F64.lt coin.2 0.5 then Side.buy else Side.sell
    let sent := b.submit (p.taker sz.2 side)
    (coin.1, p.issued, sent.1, sent.2.1)
  else (u.1, p, b, [])

variable {F}

/-- Run one round of participant activity against the book. -/
def act (s : SeededParticipants F) (b : Book) : SeededParticipants F × Book × List Fill :=
  let s := s.stepFairValue
  let halfSpread : Rng × F := s.rng.halfSpread
  let bidPx := toTicks (s.fairValue - halfSpread.2)
  let askPx := toTicks (s.fairValue + halfSpread.2)
  let bidSz := halfSpread.1.size F 4
  let askSz := bidSz.1.size F 4
  let bid := s.orders.post b Side.buy bidPx bidSz.2
  let ask := bid.1.post bid.2.1 Side.sell askPx askSz.2
  let churned := churn F ask.1 ask.2.1 askSz.1
  let crossed := cross F churned.2.1 churned.2.2 churned.1
  -- prune the ids that no longer rest
  ({ s with
      rng := crossed.1
      orders := { crossed.2.1 with
        live := crossed.2.1.live.filter crossed.2.2.1.isResting } },
    crossed.2.2.1, bid.2.2 ++ ask.2.2 ++ crossed.2.2.2)

end SeededParticipants

/-! ## A round is one of `Participants.act` -/

/-- A drawn size is a number of lots. -/
theorem size_lots (r : Rng) {n : UInt64} {m : ℕ} (hn : n.toNat = m) (h0 : 0 < m) (h4 : m ≤ 4) :
    ∃ k : Fin m, (r.size F n).2 = lots k := by
  subst hn
  have hlt := toNat_below_lt r (toNat_eq_zero.not.mp h0.ne')
  exact ⟨⟨(r.below n).2.toNat, hlt⟩, MarketF64.toU64_units _ (hlt.trans_le h4)⟩

/-- A draw below the length of a list picks one of its entries. -/
theorem below_length_lt (r : Rng) {xs : List UInt64} (h : xs ≠ []) :
    (r.below (UInt64.ofNat xs.length)).2.toNat < xs.length := by
  have hpos := List.length_pos_of_ne_nil h
  by_cases h0 : UInt64.ofNat xs.length = 0
  · rw [Rng.below, if_pos h0, UInt64.toNat_zero]
    exact hpos
  · refine (toNat_below_lt r h0).trans_le ?_
    rw [UInt64.toNat_ofNat']
    exact Nat.mod_le _ _

variable (F)

theorem churn_draw (p : Participants) (b : Book) (r : Rng) : ∃ draw : Option UInt64,
    (SeededParticipants.churn F p b r).2 = p.churn b draw := by
  unfold SeededParticipants.churn
  generalize (r.unit : Rng × F) = u
  by_cases hlive : p.live.isEmpty
  · rw [if_pos hlive]
    exact ⟨none, rfl⟩
  · rw [if_neg hlive]
    by_cases hu : F64.lt u.2 0.5
    · have hlt := below_length_lt u.1 (mt List.isEmpty_iff.mpr hlive)
      simp only [if_pos hu]
      generalize u.1.below (UInt64.ofNat p.live.length) = idx at hlt ⊢
      refine ⟨some idx.2, ?_⟩
      simp only [Participants.churn, Participants.churned, Option.bind_some, Nat.mod_eq_of_lt hlt]
      cases swapRemove p.live idx.2.toNat with
      | none => rfl
      | some x => rfl
    · refine ⟨none, ?_⟩
      simp only [if_neg hu]
      rfl

theorem cross_draw (p : Participants) (b : Book) (r : Rng) : ∃ draw : Option (Fin 3 × Side),
    (SeededParticipants.cross F p b r).2 = p.cross b draw := by
  unfold SeededParticipants.cross
  generalize (r.unit : Rng × F) = u
  by_cases hu : F64.lt u.2 0.25
  · obtain ⟨k, hk⟩ : ∃ k : Fin 3, (u.1.size F 3).2 = lots k :=
      size_lots (n := 3) u.1 rfl (by decide) (by decide)
    simp only [if_pos hu, hk]
    exact ⟨some (k, _), rfl⟩
  · refine ⟨none, ?_⟩
    simp only [if_neg hu]
    rfl

variable {F}

theorem orders_stepFairValue (s : SeededParticipants F) : s.stepFairValue.orders = s.orders := by
  unfold SeededParticipants.stepFairValue SeededParticipants.newRegime
  dsimp only
  split <;> rfl

/-- The draws are priced by the round that these participants are about to run. -/
def SeededParticipants.Prices (s : SeededParticipants F) (d : Draws) : Prop :=
  let s := s.stepFairValue
  let halfSpread : Rng × F := s.rng.halfSpread
  d.bidPx = toTicks (s.fairValue - halfSpread.2) ∧
    d.askPx = toTicks (s.fairValue + halfSpread.2)

/-- **A seeded round is a round for some draws**, with these prices. -/
theorem act_draws (s : SeededParticipants F) (b : Book) : ∃ d : Draws,
    ((s.act b).1.orders, (s.act b).2) = s.orders.act b d ∧ s.Prices d := by
  have horders := orders_stepFairValue s
  unfold SeededParticipants.act SeededParticipants.Prices
  dsimp only
  generalize s.stepFairValue = s' at horders ⊢
  generalize (s'.rng.halfSpread : Rng × F) = spread
  obtain ⟨bidUnits, hbid⟩ : ∃ k : Fin 4, (spread.1.size F 4).2 = lots k :=
    size_lots (n := 4) spread.1 rfl (by decide) (by decide)
  generalize spread.1.size F 4 = bidSz at hbid ⊢
  obtain ⟨askUnits, hask⟩ : ∃ k : Fin 4, (bidSz.1.size F 4).2 = lots k :=
    size_lots (n := 4) bidSz.1 rfl (by decide) (by decide)
  generalize bidSz.1.size F 4 = askSz at hask ⊢
  rw [hbid, hask, horders]
  generalize hb : s.orders.post b Side.buy _ _ = bid
  generalize ha : bid.1.post bid.2.1 Side.sell _ _ = ask
  obtain ⟨draw, hdraw⟩ := churn_draw F ask.1 ask.2.1 askSz.1
  generalize SeededParticipants.churn F ask.1 ask.2.1 askSz.1 = churned at hdraw ⊢
  obtain ⟨taker, htaker⟩ := cross_draw F churned.2.1 churned.2.2 churned.1
  generalize SeededParticipants.cross F churned.2.1 churned.2.2 churned.1 = crossed at htaker ⊢
  refine ⟨⟨toTicks (s'.fairValue - spread.2), toTicks (s'.fairValue + spread.2), bidUnits, askUnits,
    draw, taker⟩, ?_, rfl, rfl⟩
  unfold Participants.act
  dsimp only
  rw [hb, ha, ← hdraw, ← htaker]

/-! ## The seeded exchange -/

/-- The exchange as it runs from a seed. -/
structure SeededExchange (F : Type) where
  book : Book
  participants : SeededParticipants F

/-- What the loop does next; a round draws for itself. -/
inductive SeededEvent where
  | order (cmd : OrderCommand)
  | round
deriving DecidableEq, Repr

namespace SeededExchange

def new (seed : UInt64) (vol : F) : SeededExchange F := ⟨Book.new, SeededParticipants.new seed vol⟩

/-- A participant round whose fills are dropped. -/
def prime (x : SeededExchange F) : SeededExchange F :=
  let r := x.participants.act x.book
  ⟨r.2.1, r.1⟩

/-- The exchange after its priming rounds. -/
def primed (seed : UInt64) (vol : F) (rounds : ℕ) : SeededExchange F :=
  prime^[rounds] (new seed vol)

/-- One turn of the loop. -/
def step (commission : Int → UInt64 → Int) (x : SeededExchange F) :
    SeededEvent → SeededExchange F × Turn
  | SeededEvent.order cmd =>
      let r := x.book.matchStrategyOrder cmd
      ({ x with book := r.1 }, ⟨r.2.1, publishFills commission r.2.1, some r.2.2⟩)
  | SeededEvent.round =>
      let r := x.participants.act x.book
      (⟨r.2.1, r.1⟩, ⟨r.2.2, publishStrategyMakerFills commission r.2.2, none⟩)

/-- Without the generator and the fair value. -/
def unseeded (x : SeededExchange F) : Exchange := ⟨x.book, x.participants.orders⟩

end SeededExchange

/-- The same command, or a round with draws of these prices. -/
def SeededExchange.Takes (x : SeededExchange F) : SeededEvent → Event → Prop
  | SeededEvent.order cmd, ev => ev = Event.order cmd
  | SeededEvent.round, ev => ∃ d, ev = Event.round d ∧ x.participants.Prices d

section Refinement

variable {commission : Int → UInt64 → Int}

theorem step_round {x : Exchange} {d : Draws} {r : Participants × Book × List Fill}
    (h : x.participants.act x.book d = r) : x.step commission (Event.round d)
      = (⟨r.2.1, r.1⟩, ⟨r.2.2, publishStrategyMakerFills commission r.2.2, none⟩) := by
  rw [Exchange.step, h]

theorem seeded_step_round {x : SeededExchange F} {r : SeededParticipants F × Book × List Fill}
    (h : x.participants.act x.book = r) : x.step commission SeededEvent.round
      = (⟨r.2.1, r.1⟩, ⟨r.2.2, publishStrategyMakerFills commission r.2.2, none⟩) := by
  rw [SeededExchange.step, h]

theorem unseeded_round {x : SeededExchange F} {d : Draws}
    {r : SeededParticipants F × Book × List Fill} (h : x.participants.act x.book = r)
    (hact : (r.1.orders, r.2) = x.participants.orders.act x.book d) :
    x.unseeded.step commission (Event.round d)
      = ((x.step commission SeededEvent.round).1.unseeded,
          (x.step commission SeededEvent.round).2) := by
  rw [step_round (x := x.unseeded) hact.symm, seeded_step_round h]
  rfl

theorem prime_eq {x : Exchange} {d : Draws} {r : Participants × Book × List Fill}
    (h : x.participants.act x.book d = r) : x.prime d = ⟨r.2.1, r.1⟩ := by
  rw [Exchange.prime, h]

theorem prime_round {x : SeededExchange F} {d : Draws}
    {r : SeededParticipants F × Book × List Fill} (h : x.participants.act x.book = r)
    (hact : (r.1.orders, r.2) = x.participants.orders.act x.book d) :
    x.prime.unseeded = x.unseeded.prime d := by
  rw [prime_eq (x := x.unseeded) hact.symm, SeededExchange.prime, h]
  rfl

variable (commission)

theorem unseeded_step (x : SeededExchange F) (ev : SeededEvent) : ∃ ev', x.Takes ev ev' ∧
    x.unseeded.step commission ev'
      = ((x.step commission ev).1.unseeded, (x.step commission ev).2) := by
  cases ev with
  | order cmd =>
      refine ⟨Event.order cmd, rfl, ?_⟩
      simp only [Exchange.step, SeededExchange.step, SeededExchange.unseeded]
  | round =>
      obtain ⟨d, hact, hpx⟩ := act_draws x.participants x.book
      exact ⟨Event.round d, ⟨d, rfl, hpx⟩, unseeded_round rfl hact⟩

theorem unseeded_prime (x : SeededExchange F) :
    ∃ d, x.prime.unseeded = x.unseeded.prime d := by
  obtain ⟨d, hact, -⟩ := act_draws x.participants x.book
  exact ⟨d, prime_round rfl hact⟩

theorem unseeded_primed (seed : UInt64) (vol : F) (rounds : ℕ) : ∃ ds : List Draws,
    ds.length = rounds ∧
      (SeededExchange.primed seed vol rounds).unseeded = Exchange.primed ds := by
  induction rounds with
  | zero => exact ⟨[], rfl, rfl⟩
  | succ n ih =>
      obtain ⟨ds, hlen, hds⟩ := ih
      obtain ⟨d, hprime⟩ := unseeded_prime (SeededExchange.primed seed vol n)
      refine ⟨ds ++ [d], by rw [List.length_append, hlen, List.length_singleton], ?_⟩
      rw [Exchange.primed, List.foldl_append, List.foldl_cons, List.foldl_nil, ← Exchange.primed,
        ← hds, ← hprime]
      exact congrArg _ (Function.iterate_succ_apply' _ n _)

/-- **The seeded exchange is an exchange.**  Whatever the seed, the volatility and the floating
point: its priming rounds are priming rounds for some draws, and every run from there is, turn by turn,
with the same book, ids, fills, reports and outcomes, a run of the exchange on the same commands
and on rounds whose prices are those of the fair value. -/
theorem seeded_refines (seed : UInt64) (vol : F) (rounds : ℕ) (evs : List SeededEvent) :
    let x := SeededExchange.primed seed vol rounds
    ∃ (ds : List Draws) (evs' : List Event), ds.length = rounds ∧
      x.unseeded = Exchange.primed ds ∧
      List.Forall₂ (fun e e' => e.pre.Takes e.input e'.input ∧ e'.pre = e.pre.unseeded ∧
          e'.out = e.out ∧ e'.post = e.post.unseeded)
        (Mealy.trace (SeededExchange.step commission) x evs)
        (Mealy.trace (Exchange.step commission) (Exchange.primed ds) evs') := by
  intro x
  obtain ⟨ds, hlen, hds⟩ := unseeded_primed seed vol rounds
  obtain ⟨evs', -, hall⟩ :=
    Mealy.refinement SeededExchange.unseeded (unseeded_step commission) x evs
  rw [hds] at hall
  exact ⟨ds, evs', hlen, hds, hall⟩

end Refinement

end HotpathIpc
