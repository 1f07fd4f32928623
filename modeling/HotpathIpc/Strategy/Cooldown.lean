import HotpathIpc.Library.Throttle
import HotpathIpc.Strategy.Composite

/-!
# The cooldown between orders

The configuration promises a minimum number of ticks between two orders in the same direction.  The
strategy remembers its last order only, and a direction flip is sent at once, so that the order
before the flip is forgotten.

* `Strategy.wantedSides` — the directions that the scores ask for, a function of the prices.
* `decisions_throttle` — the decisions are these, through a throttle that looks at the last one.
* **`cooldown_iff`** — which prices keep orders apart.
-/

namespace HotpathIpc

open Throttle (Memory)

variable {F : Type} [F64 F]

def Decision.side? : Decision F → Option Side
  | Decision.trade side _ => some side
  | Decision.hold => none

namespace Strategy

/-- The direction that each price asks for, whatever was traded before. -/
def wantedSides (tanh : F → F) (s : Strategy F) : List F → Option (List (Option Side))
  | [] => some []
  | price :: prices => do
      let wanted ← (s.absorb price).wants tanh
      let ws ← (s.absorb price).wantedSides tanh prices
      some (wanted.map Prod.fst :: ws)

/-- What the strategy remembers of its orders: the direction and the tick of the last. -/
structure Remembers (s : Strategy F) (m : Memory Side) (t : ℕ) : Prop where
  ticks : s.ticksSeen = t
  lastSide : s.lastSide = m.last
  lastTradeTick : ∀ side, m.last = some side →
    ∃ n, m.at? side = some n ∧ s.lastTradeTick = some (n + 1)

end Strategy

theorem remembers_new (cfg : StrategyConfig F) : (Strategy.new cfg).Remembers Memory.empty 0 :=
  ⟨rfl, rfl, fun _ h => by cases h⟩

/-- The cooldown looks at the last order. -/
theorem cooldownOk_eq {s : Strategy F} {m : Memory Side} {t : ℕ} (h : s.Remembers m t) (price : F)
    (side : Side) :
    (s.absorb price).cooldownOk side = !Throttle.last s.cfg.cooldownTicks m t side := by
  have hticks : (s.absorb price).ticksSeen = t + 1 := congrArg (· + 1) h.ticks
  have hside : (s.absorb price).lastSide = m.last := h.lastSide
  have hcfg : (s.absorb price).cfg = s.cfg := rfl
  rw [Strategy.cooldownOk, hticks, hside, hcfg, Throttle.last, Throttle.each]
  cases hlast : m.last with
  | none => rfl
  | some prev =>
      obtain ⟨n, hn, htick⟩ := h.lastTradeTick prev hlast
      have htick' : (s.absorb price).lastTradeTick = some (n + 1) := htick
      rw [htick']
      by_cases hprev : prev = side
      · rw [← hprev, hn]
        simp [← decide_not]
      · simp [hprev]

theorem onPrice_throttle {tanh : F → F} {s : Strategy F} {m : Memory Side} {t : ℕ}
    (h : s.Remembers m t) {price : F} {wanted : Option (Side × F)}
    (hwanted : (s.absorb price).wants tanh = some wanted) :
    ∃ d tick side, let s' := { s.absorb price with lastTradeTick := tick, lastSide := side }
      s.onPrice tanh price = some (s', d) ∧
      let r := Throttle.next (Throttle.last s.cfg.cooldownTicks) m t (wanted.map Prod.fst)
      d.side? = r.2 ∧ s'.Remembers r.1 (t + 1) := by
  have hticks : (s.absorb price).ticksSeen = t + 1 := congrArg (· + 1) h.ticks
  have hkeep : (s.absorb price).Remembers m (t + 1) := ⟨hticks, h.lastSide, h.lastTradeTick⟩
  rw [Strategy.onPrice, hwanted]
  simp only [Option.bind_eq_bind, Option.bind_some]
  cases wanted with
  | none => exact ⟨Decision.hold, _, _, rfl, rfl, hkeep⟩
  | some order =>
      obtain ⟨side, score⟩ := order
      dsimp only [Option.map_some]
      rw [cooldownOk_eq h, Throttle.next]
      cases Throttle.last s.cfg.cooldownTicks m t side with
      | true => exact ⟨Decision.hold, _, _, rfl, rfl, hkeep⟩
      | false =>
          refine ⟨Decision.trade side score, _, _, rfl, rfl, hticks, rfl, ?_⟩
          rintro side' hside'
          obtain rfl := Option.some.inj hside'
          exact ⟨t, Memory.note_self m side t, congrArg some hticks⟩

/-- What was traded has no part in what is wanted. -/
theorem wantedSides_memory (tanh : F → F) : ∀ (prices : List F) (s : Strategy F) (tick : Option ℕ)
    (side : Option Side), { s with lastTradeTick := tick, lastSide := side }.wantedSides tanh prices
      = s.wantedSides tanh prices
  | [], _, _, _ => rfl
  | price :: prices, s, tick, side => by
      have ih := wantedSides_memory tanh prices (s.absorb price) tick side
      rw [Strategy.wantedSides, Strategy.wantedSides, ← ih]
      rfl

/-- The decisions are what is wanted, through a throttle that looks at the last order. -/
theorem decisions_throttle (tanh : F → F) : ∀ (prices : List F) (s : Strategy F)
    (m : Memory Side) (t : ℕ) (ws : List (Option Side)), s.Remembers m t →
    s.wantedSides tanh prices = some ws → ∃ ds, s.decisions tanh prices = some ds ∧
      ds.map Decision.side? = Throttle.run (Throttle.last s.cfg.cooldownTicks) m t ws
  | [], _, _, _, _, _, hws => by
      obtain rfl := Option.some.inj hws
      exact ⟨[], rfl, rfl⟩
  | price :: prices, s, m, t, ws, h, hws => by
      obtain ⟨wanted, hwanted, hws⟩ := Option.bind_eq_some_iff.mp hws
      obtain ⟨rest, hrest, hws⟩ := Option.bind_eq_some_iff.mp hws
      obtain rfl := Option.some.inj hws
      obtain ⟨d, tick, side, hstep, hd, hremembers⟩ := onPrice_throttle h hwanted
      rw [← wantedSides_memory tanh prices _ tick side] at hrest
      obtain ⟨ds, hds, hrun⟩ := decisions_throttle tanh prices _ _ _ rest hremembers hrest
      refine ⟨d :: ds, ?_, ?_⟩
      · rw [Strategy.decisions, hstep]
        dsimp only [bind, Option.bind]
        rw [hds]
      · rw [List.map_cons, Throttle.run, hd, hrun]
        rfl

omit [F64 F] in
theorem side?_eq {d : Option (Decision F)} {side : Side} :
    d.map Decision.side? = some (some side) ↔ ∃ score, d = some (Decision.trade side score) := by
  cases d with
  | none => simp
  | some d =>
      cases d with
      | trade side' score => simp [Decision.side?]
      | hold => simp [Decision.side?]

/-- **Which prices keep orders apart.**  Orders in the same direction are at least the cooldown
apart exactly when a cooldown for each direction by itself, on the same prices, never holds back a
direction flip. -/
theorem cooldown_iff (tanh : F → F) (cfg : StrategyConfig F) (prices : List F)
    (ws : List (Option Side)) (hws : (Strategy.new cfg).wantedSides tanh prices = some ws) :
    ∃ ds, (Strategy.new cfg).decisions tanh prices = some ds ∧
      ((∀ i j side x y, i < j → ds[i]? = some (Decision.trade side x) →
          ds[j]? = some (Decision.trade side y) → cfg.cooldownTicks ≤ j - i)
        ↔ Throttle.Steady cfg.cooldownTicks Memory.empty 0 ws) := by
  obtain ⟨ds, hds, hrun⟩ := decisions_throttle tanh prices _ _ _ ws (remembers_new cfg) hws
  have hout : ds.map Decision.side?
      = Throttle.run (Throttle.last cfg.cooldownTicks) Memory.empty 0 ws := hrun
  refine ⟨ds, hds, ?_⟩
  rw [← Throttle.spaced_last_iff, ← hout]
  constructor
  · intro h i j side hij hi hj
    rw [List.getElem?_map] at hi hj
    obtain ⟨x, hx⟩ := side?_eq.mp hi
    obtain ⟨y, hy⟩ := side?_eq.mp hj
    exact h i j side x y hij hx hy
  · intro h i j side x y hij hi hj
    refine h i j side hij ?_ ?_
    · rw [List.getElem?_map]
      exact side?_eq.mpr ⟨x, hi⟩
    · rw [List.getElem?_map]
      exact side?_eq.mpr ⟨y, hj⟩

/-- Momentum over one tick, and the default cooldown of 32 ticks. -/
def momentumOnly : StrategyConfig ℚ :=
  { @StrategyConfig.default ℚ (F64.exact id) with
    weightTrend := 0, weightMomentum := 1, weightReversion := 0, momentumLookback := 1 }

theorem cooldown_iff_ramp : letI : F64 ℚ := F64.exact id
    ∃ ds, (Strategy.new momentumOnly).decisions clampUnit [100, 101, 102] = some ds ∧
      ∀ i j side x y, i < j → ds[i]? = some (Decision.trade side x) →
        ds[j]? = some (Decision.trade side y) → momentumOnly.cooldownTicks ≤ j - i := by
  let _ : F64 ℚ := F64.exact id
  obtain ⟨ds, hds, hiff⟩ := cooldown_iff clampUnit momentumOnly [100, 101, 102]
    [none, some Side.buy, some Side.buy] (by decide +kernel)
  refine ⟨ds, hds, hiff.mpr ?_⟩
  have hfirst : Throttle.each momentumOnly.cooldownTicks Memory.empty 1 Side.buy = false := rfl
  simp [Throttle.Steady, Throttle.next, hfirst, Throttle.Memory.note]

/-- A flip in between, and the second order to buy follows two ticks after the first. -/
theorem flip_defeats_cooldown : letI : F64 ℚ := F64.exact id
    ∃ ds, (Strategy.new momentumOnly).decisions clampUnit [100, 101, 100, 101] = some ds ∧
      ds[1]? = some (Decision.trade Side.buy 1) ∧ ds[3]? = some (Decision.trade Side.buy 1) ∧
      ¬ momentumOnly.cooldownTicks ≤ 3 - 1 := by
  let _ : F64 ℚ := F64.exact id
  exact ⟨[Decision.hold, Decision.trade Side.buy 1, Decision.trade Side.sell (-1),
    Decision.trade Side.buy 1], by decide +kernel, by decide +kernel, by decide +kernel,
    by decide +kernel⟩

end HotpathIpc
