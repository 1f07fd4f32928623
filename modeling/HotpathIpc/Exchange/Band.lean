import HotpathIpc.Exchange.Pricing
import HotpathIpc.Exchange.Seeded
import HotpathIpc.Library.Saturating
import Mathlib.Analysis.Complex.ExponentialBounds
import Mathlib.Analysis.Complex.Trigonometric

/-!
# The band of the fair value

The seeded market in exact arithmetic, `realF64`.  The fair value moves by a drift and a shock that
are bounded, and is pulled back by a two-thousandth of its distance from 50 000; so it never gets
further from there than `reach`, where the pull makes up for both.

* `Banded` — what the participants keep; **`banded_stepFairValue`** is its step.
* `quotes_of_banded` — the prices of a round, from a reach that stays clear of 0.
* **`seeded_quotable`** — the whole run.

At the default volatility of 6 the reach is 94 200, which is not clear of 0: that the fair value
stays at 1 or above is then due to the line that puts it back there.
-/

namespace HotpathIpc

/-- Few lots are in range. -/
theorem lots_lt {k : ℕ} (h : k < 4) : scale * (1 + k) < 2 ^ 64 :=
  calc scale * (1 + k) ≤ scale * 4 := Nat.mul_le_mul_left _ (by omega)
    _ < 2 ^ 64 := by decide

/-- Exact arithmetic, on the real numbers. -/
@[reducible] noncomputable def realF64 : MarketF64 ℝ where
  lt a b := decide (a < b)
  le a b := decide (a ≤ b)
  eq a b := decide (a = b)
  abs a := |a|
  sqrt := Real.sqrt
  ofUSize n := n
  toUSize a := min ⌊a⌋₊ (2 ^ 64 - 1)
  toUSize_lt a := by omega
  ln := Real.log
  cos := Real.cos
  max := max
  ofU64 n := n.toNat
  toI64 x := Saturating.i64 (Saturating.trunc x)
  toU64 x := Saturating.u64 x
  toU64_units n hn := by
    have hn' : (1 + n).toNat = 1 + n.toNat := by
      rw [UInt64.toNat_add, UInt64.toNat_one]
      exact Nat.mod_eq_of_lt (by omega)
    have hcast : ((1 + n).toNat : ℝ) * 100000000.0 = ((scale * (1 + n.toNat) : ℕ) : ℝ) := by
      rw [hn', Nat.cast_mul, mul_comm]
      norm_num [scale]
    show Saturating.u64 (((1 + n).toNat : ℝ) * 100000000.0) = _
    rw [hcast]
    exact Saturating.u64_natCast (lots_lt hn)

/-! ## The draws -/

/-- A uniform and a normal draw, exactly. -/
noncomputable def Rng.realUnit (r : Rng) : Rng × ℝ := @Rng.unit ℝ realF64 r

noncomputable def Rng.realNormal (r : Rng) : Rng × ℝ := @Rng.normal ℝ realF64 r

theorem realUnit_eq (r : Rng) : r.realUnit.2 = ((r.nextU64.2 >>> 11).toNat : ℝ) / 2 ^ 53 := by
  have hunit : ((1 : UInt64) <<< 53).toNat = 2 ^ 53 := by decide
  show ((r.nextU64.2 >>> 11).toNat : ℝ) / (((1 : UInt64) <<< 53).toNat : ℝ) = _
  rw [hunit, Nat.cast_pow, Nat.cast_ofNat]

theorem realUnit_mem (r : Rng) : 0 ≤ r.realUnit.2 ∧ r.realUnit.2 < 1 := by
  have hlt : (r.nextU64.2 >>> 11).toNat < 2 ^ 53 := by
    have hdraw : r.nextU64.2.toNat < 2 ^ 64 := r.nextU64.2.toNat_lt
    rw [UInt64.toNat_shiftRight, Nat.shiftRight_eq_div_pow]
    exact Nat.div_lt_of_lt_mul hdraw
  rw [realUnit_eq]
  refine ⟨by positivity, ?_⟩
  rw [div_lt_one (by positivity)]
  exact_mod_cast hlt

/-- How far out the normal draw can be. -/
theorem realNormal_le (r : Rng) : |r.realNormal.2| ≤ 7.45 := by
  set u : ℝ := max r.realUnit.2 1e-12 with hu
  have hnormal : r.realNormal.2 = Real.sqrt (-2.0 * Real.log u)
      * Real.cos (6.283185307179586 * r.realUnit.1.realUnit.2) := rfl
  have hpos : (2 : ℝ) ^ (-40 : ℤ) ≤ u := le_trans (by norm_num) (le_max_right _ _)
  have hlog : -40 * Real.log 2 ≤ Real.log u := by
    have h := Real.log_le_log (by positivity) hpos
    rwa [Real.log_zpow, Int.cast_neg, Int.cast_ofNat] at h
  have hsqrt : Real.sqrt (-2.0 * Real.log u) ≤ 7.45 := by
    have h2 := Real.log_two_lt_d9
    refine Real.sqrt_le_iff.mpr ⟨by norm_num, ?_⟩
    norm_num
    linarith
  rw [hnormal, abs_mul, abs_of_nonneg (Real.sqrt_nonneg _)]
  calc Real.sqrt (-2.0 * Real.log u) * |Real.cos _|
      ≤ 7.45 * 1 := mul_le_mul hsqrt (Real.abs_cos_le_one _) (abs_nonneg _) (by norm_num)
    _ = 7.45 := mul_one _

/-! ## The fair value -/

/-- How far from its centre the fair value can get: there, a pull of a two-thousandth of the
distance balances the largest drift and the largest shock. -/
noncomputable def reach (vol : ℝ) : ℝ := 2000 * (0.4 + 7.45) * vol

/-- What participants of this volatility keep, whatever they draw. -/
structure SeededParticipants.Banded (v : ℝ) (s : SeededParticipants ℝ) : Prop where
  vol : s.vol = v
  drift : |s.drift| ≤ 0.4 * v
  fairValue : |s.fairValue - 50000| ≤ reach v
  positive : 1 ≤ s.fairValue
  regimeLeft : s.regimeLeft.toNat < 8000

variable {v : ℝ}

/-- A step with a pull, a drift and a shock stays in reach. -/
theorem pulled_le {x drift shock : ℝ} (hx : |x - 50000| ≤ reach v) (hd : |drift| ≤ 0.4 * v)
    (hs : |shock| ≤ 7.45 * v) :
    |x + (drift + (50000 - x) * 0.0005 + shock) - 50000| ≤ reach v := by
  unfold reach at *
  rw [abs_le] at *
  obtain ⟨hx₁, hx₂⟩ := hx
  obtain ⟨hd₁, hd₂⟩ := hd
  obtain ⟨hs₁, hs₂⟩ := hs
  constructor
  · linarith
  · linarith

/-- The size of the drift that a regime draws. -/
theorem regime_drift_le (r : Rng) (hv : 0 ≤ v) :
    |v * (0.15 + 0.25 * r.realUnit.2)| ≤ 0.4 * v := by
  obtain ⟨h0, h1⟩ := realUnit_mem r
  rw [abs_of_nonneg (mul_nonneg hv (by linarith))]
  nlinarith

/-- How long a regime lasts. -/
theorem toNat_regimeLeft (r : Rng) : 2000 ≤ (2000 + (r.below 6000).2).toNat ∧
    (2000 + (r.below 6000).2).toNat < 8000 := by
  have hlt : (r.below 6000).2.toNat < 6000 := toNat_below_lt r (by decide)
  have hsum : (2000 + (r.below 6000).2).toNat = 2000 + (r.below 6000).2.toNat := by
    rw [UInt64.toNat_add]
    exact Nat.mod_eq_of_lt (by have : (2000 : UInt64).toNat = 2000 := rfl; omega)
  omega

theorem banded_newRegime {s : SeededParticipants ℝ} (hv : 0 ≤ v) (h : s.Banded v) :
    (@SeededParticipants.newRegime ℝ realF64 s).Banded v ∧
      2000 ≤ (@SeededParticipants.newRegime ℝ realF64 s).regimeLeft.toNat := by
  have hup := regime_drift_le (v := v)
  have hdrift : |(@SeededParticipants.newRegime ℝ realF64 s).drift| ≤ 0.4 * v := by
    unfold SeededParticipants.newRegime
    dsimp only
    rw [h.vol]
    split
    · exact hup _ hv
    · split
      · have hneg := hup (@Rng.unit ℝ realF64 s.rng).1 hv
        rw [← abs_neg, ← neg_mul] at hneg
        exact hneg
      · have hzero : |(0 : ℝ)| ≤ 0.4 * v := by
          rw [abs_zero]
          positivity
        norm_num at hzero ⊢
        exact hzero
  have hleft := toNat_regimeLeft
  exact ⟨⟨h.vol, hdrift, h.fairValue, h.positive, (hleft _).2⟩, (hleft _).1⟩

/-- Where a step takes the fair value before it is kept positive. -/
noncomputable def SeededParticipants.moved (s : SeededParticipants ℝ) : ℝ :=
  s.fairValue + (s.drift + (50000 - s.fairValue) * 0.0005 + s.vol * s.rng.realNormal.2)

theorem moved_le {s : SeededParticipants ℝ} (hv : 0 ≤ v) (h : s.Banded v) :
    |s.moved - 50000| ≤ reach v := by
  refine pulled_le h.fairValue h.drift ?_
  rw [h.vol, abs_mul, abs_of_nonneg hv, mul_comm]
  exact mul_le_mul_of_nonneg_right (realNormal_le _) hv

/-- **A step keeps the fair value in its band.** -/
theorem banded_stepFairValue {s : SeededParticipants ℝ} (hv : 0 ≤ v) (h : s.Banded v) :
    (@SeededParticipants.stepFairValue ℝ realF64 s).Banded v := by
  have hcurrent : ∃ s' : SeededParticipants ℝ,
      (if s.regimeLeft = 0 then @SeededParticipants.newRegime ℝ realF64 s else s) = s' ∧
        s'.Banded v ∧ 1 ≤ s'.regimeLeft.toNat := by
    refine ⟨_, rfl, ?_⟩
    split
    · obtain ⟨hb, hleft⟩ := banded_newRegime hv h
      exact ⟨hb, by omega⟩
    · rename_i hne
      exact ⟨h, Nat.one_le_iff_ne_zero.mpr (mt toNat_eq_zero.mp hne)⟩
  obtain ⟨s', hs', hb, hleft⟩ := hcurrent
  have hmoved := moved_le hv hb
  have hfair : (@SeededParticipants.stepFairValue ℝ realF64 s).fairValue
      = if s'.moved < 1 then 1 else s'.moved := by
    have hone : (1.0 : ℝ) = 1 := by norm_num
    have hcentre : (50000.0 : ℝ) = 50000 := by norm_num
    have hraw : (@SeededParticipants.stepFairValue ℝ realF64 s).fairValue
        = if decide (s'.fairValue + (s'.drift + ((50000.0 : ℝ) - s'.fairValue) * 0.0005
            + s'.vol * s'.rng.realNormal.2) < (1.0 : ℝ)) = true then (1.0 : ℝ)
          else s'.fairValue + (s'.drift + ((50000.0 : ℝ) - s'.fairValue) * 0.0005
            + s'.vol * s'.rng.realNormal.2) := by
      rw [← hs']
      rfl
    rw [hraw, hone, hcentre]
    simp only [decide_eq_true_eq]
    rfl
  have hkept : (@SeededParticipants.stepFairValue ℝ realF64 s).vol = s'.vol ∧
      (@SeededParticipants.stepFairValue ℝ realF64 s).drift = s'.drift ∧
      (@SeededParticipants.stepFairValue ℝ realF64 s).regimeLeft = s'.regimeLeft - 1 := by
    rw [← hs']
    exact ⟨rfl, rfl, rfl⟩
  obtain ⟨hvol, hdrift, hreg⟩ := hkept
  refine ⟨hvol.trans hb.vol, hdrift ▸ hb.drift, ?_, ?_, ?_⟩
  · rw [hfair]
    split
    · rename_i hlow
      -- 1 is nearer to the centre than what is below it
      rw [abs_le] at hmoved ⊢
      exact ⟨by linarith [hmoved.1], by linarith [hmoved.1]⟩
    · exact hmoved
  · rw [hfair]
    split
    · exact le_refl _
    · rename_i hlow
      exact not_lt.mp hlow
  · have hlt := hb.regimeLeft
    have hle : 1 ≤ s'.regimeLeft := UInt64.le_iff_toNat_le.mpr hleft
    rw [hreg, UInt64.toNat_sub_of_le _ _ hle]
    omega

/-! ## The quotes -/

/-- In range, a cast to ticks rounds down. -/
theorem realTicks_eq {x : ℝ} (h0 : 0 ≤ x) (h1 : x ≤ 99999) :
    @toTicks ℝ realF64 x = ⌊x * scale⌋ := by
  have hscale : (100000000.0 : ℝ) = scale := by norm_num [scale]
  have hraw : @toTicks ℝ realF64 x = Saturating.i64 (Saturating.trunc (x * (100000000.0 : ℝ))) := rfl
  have hnonneg : 0 ≤ x * scale := mul_nonneg h0 (Nat.cast_nonneg _)
  have hlo : 0 ≤ ⌊x * scale⌋ := Int.floor_nonneg.mpr hnonneg
  have hhi : ⌊x * scale⌋ ≤ 99999 * 100000000 := by
    have hle : x * scale ≤ 99999 * scale := mul_le_mul_of_nonneg_right h1 (Nat.cast_nonneg _)
    have hfloor := Int.floor_le_floor hle
    have hend : ⌊(99999 : ℝ) * scale⌋ = 99999 * 100000000 := by
      rw [← hscale]
      norm_num
    rw [hend] at hfloor
    exact hfloor
  rw [hraw, hscale, Saturating.trunc, if_pos hnonneg, Saturating.i64]
  omega

theorem realHalfSpread (r : Rng) :
    ∃ k : ℕ, 1 ≤ k ∧ k ≤ 3 ∧ (@Rng.halfSpread ℝ realF64 r).2 = k := by
  have hlt : (r.below 3).2.toNat < 3 := toNat_below_lt r (by decide)
  refine ⟨1 + (r.below 3).2.toNat, by omega, by omega, ?_⟩
  show (1.0 : ℝ) * ((1.0 : ℝ) + ((r.below 3).2.toNat : ℝ)) = _
  rw [Nat.cast_add, Nat.cast_one]
  norm_num

/-- **The quotes of a round.**  They are positive, in range, and apart by exactly the spread. -/
theorem quotes_of_banded {s : SeededParticipants ℝ} (hv : 0 ≤ v) (h : s.Banded v)
    (hreach : reach v ≤ 49996) {d : Draws} (hd : @SeededParticipants.Prices ℝ realF64 s d) :
    (scale : ℤ) ≤ d.bidPx ∧ d.askPx ≤ 99999 * scale ∧
      ∃ k : ℕ, 1 ≤ k ∧ k ≤ 3 ∧ d.askPx = d.bidPx + 2 * k * scale := by
  have hb := banded_stepFairValue hv h
  obtain ⟨hbid, hask⟩ := hd
  generalize @SeededParticipants.stepFairValue ℝ realF64 s = s' at hb hbid hask
  obtain ⟨k, hk1, hk3, hk⟩ := realHalfSpread s'.rng
  have hfair := abs_le.mp hb.fairValue
  have hk1' : (1 : ℝ) ≤ k := by exact_mod_cast hk1
  have hk3' : (k : ℝ) ≤ 3 := by exact_mod_cast hk3
  have hbidTicks : d.bidPx = ⌊(s'.fairValue - k) * scale⌋ := by
    rw [← realTicks_eq (by linarith [hfair.1]) (by linarith [hfair.2]), ← hk]
    exact hbid
  have haskTicks : d.askPx = ⌊(s'.fairValue + k) * scale⌋ := by
    rw [← realTicks_eq (by linarith [hfair.1]) (by linarith [hfair.2]), ← hk]
    exact hask
  have hapart : d.askPx = d.bidPx + 2 * k * scale := by
    have hreal : (s'.fairValue + k) * scale
        = (s'.fairValue - k) * scale + ((2 * k * scale : ℤ) : ℝ) := by
      push_cast
      ring
    rw [haskTicks, hbidTicks, hreal, Int.floor_add_intCast]
  have hscale : (0 : ℝ) ≤ scale := Nat.cast_nonneg _
  refine ⟨?_, ?_, k, hk1, hk3, hapart⟩
  · rw [hbidTicks]
    refine Int.le_floor.mpr ?_
    have hone : 1 ≤ s'.fairValue - k := by linarith [hfair.1]
    simpa using mul_le_mul_of_nonneg_right hone hscale
  · rw [haskTicks]
    have htop : (s'.fairValue + k) * scale ≤ 99999 * scale :=
      mul_le_mul_of_nonneg_right (by linarith [hfair.2]) hscale
    have hfloor := Int.floor_le_floor htop
    have hend : ⌊(99999 : ℝ) * scale⌋ = 99999 * scale := by
      have hcast : (99999 : ℝ) * scale = ((99999 * scale : ℤ) : ℝ) := by push_cast; ring
      rw [hcast, Int.floor_intCast]
    exact hfloor.trans_eq hend

/-! ## The run -/

/-- A seeded event whose limit order, if it has one, has such a price. -/
def SeededEvent.Priced (P : Side → Int → Prop) : SeededEvent → Prop
  | SeededEvent.order cmd => (Event.order cmd).Priced P
  | SeededEvent.round => True

/-- No seeded event submits more. -/
def SeededEvent.atMost : SeededEvent → ℕ
  | SeededEvent.order cmd => cmd.quantity.toNat
  | SeededEvent.round => 11 * scale

/-- Participants in their band, and an exchange all of whose prices can be quoted. -/
structure SeededExchange.Within (v : ℝ) (n : ℕ) (x : SeededExchange ℝ) : Prop where
  banded : x.participants.Banded v
  exchange : x.unseeded.Within (fun _ => InRange) n

variable {commission : Int → UInt64 → Int}

theorem banded_act {s : SeededParticipants ℝ} (hv : 0 ≤ v) (h : s.Banded v) (b : Book) :
    (@SeededParticipants.act ℝ realF64 s b).1.Banded v := by
  have hstep := banded_stepFairValue hv h
  exact ⟨hstep.vol, hstep.drift, hstep.fairValue, hstep.positive, hstep.regimeLeft⟩

theorem inRange_of_scaled {px : Int} (hlo : (scale : ℤ) ≤ px) (hhi : px ≤ 99999 * scale) :
    InRange px := by
  have hscale : (scale : ℤ) = 100000000 := rfl
  exact ⟨by omega, by omega⟩

theorem within_seeded_step {x : SeededExchange ℝ} {n : ℕ} {ev : SeededEvent} (hv : 0 ≤ v)
    (hreach : reach v ≤ 49996) (h : x.Within v n) (hev : ev.Priced fun _ => InRange) :
    (@SeededExchange.step ℝ realF64 commission x ev).1.Within v (n + ev.atMost) := by
  obtain ⟨ev', htakes, hstep⟩ := @unseeded_step ℝ realF64 commission x ev
  have hpost : (x.unseeded.step commission ev').1
      = (@SeededExchange.step ℝ realF64 commission x ev).1.unseeded := congrArg Prod.fst hstep
  cases ev with
  | order cmd =>
      obtain rfl : ev' = Event.order cmd := htakes
      refine ⟨h.banded, ?_⟩
      rw [← hpost]
      exact within_step h.exchange (show (Event.order cmd).Priced fun _ => InRange from hev)
  | round =>
      obtain ⟨d, rfl, hprices⟩ := htakes
      obtain ⟨hbid, hask, k, hk, -, hapart⟩ := quotes_of_banded hv h.banded hreach hprices
      have hle : d.bidPx ≤ d.askPx := by
        rw [hapart]
        exact le_add_of_nonneg_right (mul_nonneg (by omega) (Int.natCast_nonneg _))
      refine ⟨banded_act hv h.banded x.book, ?_⟩
      have hpriced : (Event.round d).Priced fun _ => InRange :=
        ⟨inRange_of_scaled hbid (hle.trans hask), inRange_of_scaled (hbid.trans hle) hask⟩
      rw [← hpost]
      exact within_step h.exchange hpriced

theorem SeededExchange.Within.mono {x : SeededExchange ℝ} {m n : ℕ} (h : x.Within v m)
    (hle : m ≤ n) : x.Within v n :=
  ⟨h.banded, h.exchange.mono hle⟩

variable (commission)

theorem within_seeded_run : ∀ {evs : List SeededEvent} {x : SeededExchange ℝ} {n : ℕ}, 0 ≤ v →
    reach v ≤ 49996 → x.Within v n → (∀ ev ∈ evs, ev.Priced fun _ => InRange) →
    (Mealy.exec (@SeededExchange.step ℝ realF64 commission) x evs).Within v
        (n + (evs.map SeededEvent.atMost).sum) ∧
      ∀ e ∈ Mealy.trace (@SeededExchange.step ℝ realF64 commission) x evs,
        e.pre.Within v (n + (evs.map SeededEvent.atMost).sum) ∧
          e.post.Within v (n + (evs.map SeededEvent.atMost).sum)
  | [], _, _, _, _, h, _ => ⟨h, fun _ he => absurd he List.not_mem_nil⟩
  | ev :: evs, x, n, hv, hreach, h, hevs => by
      have hstep : (@SeededExchange.step ℝ realF64 commission x ev).1.Within v (n + ev.atMost) :=
        within_seeded_step hv hreach h (hevs ev List.mem_cons_self)
      obtain ⟨hend, hall⟩ := within_seeded_run hv hreach hstep fun ev' hev' =>
        hevs ev' (List.mem_cons_of_mem _ hev')
      rw [List.map_cons, List.sum_cons, ← Nat.add_assoc]
      refine ⟨hend, fun e he => ?_⟩
      rcases List.mem_cons.mp he with rfl | he
      · exact ⟨h.mono (by omega), hstep.mono (Nat.le_add_right _ _)⟩
      · exact hall e he

/-- Priming is a run of rounds. -/
theorem seeded_primed_exec (seed : UInt64) (rounds : ℕ) :
    @SeededExchange.primed ℝ realF64 seed v rounds
      = Mealy.exec (@SeededExchange.step ℝ realF64 commission) (@SeededExchange.new ℝ realF64 seed v)
          (List.replicate rounds SeededEvent.round) := by
  induction rounds with
  | zero => rfl
  | succ n ih =>
      rw [List.replicate_succ', Mealy.exec_append, ← ih]
      exact Function.iterate_succ_apply' _ n _

theorem within_seeded_new (hv : 0 ≤ v) (seed : UInt64) :
    (@SeededExchange.new ℝ realF64 seed v).Within v 0 := by
  have hcentre : (50000.0 : ℝ) = 50000 := by norm_num
  have hreach : 0 ≤ reach v := by
    unfold reach
    positivity
  refine ⟨⟨rfl, ?_, ?_, ?_, show (0 : UInt64).toNat < 8000 by decide⟩, within_new⟩
  · show |(0.0 : ℝ)| ≤ _
    norm_num
    exact hv
  · show |(50000.0 : ℝ) - 50000| ≤ _
    rw [hcentre, sub_self, abs_zero]
    exact hreach
  · show 1 ≤ (50000.0 : ℝ)
    norm_num

theorem banded_primed (hv : 0 ≤ v) (seed : UInt64) (rounds : ℕ) :
    (@SeededExchange.primed ℝ realF64 seed v rounds).participants.Banded v := by
  induction rounds with
  | zero => exact (within_seeded_new hv seed).banded
  | succ n ih =>
      have hnext : (@SeededExchange.primed ℝ realF64 seed v (n + 1))
          = @SeededExchange.prime ℝ realF64 (@SeededExchange.primed ℝ realF64 seed v n) :=
        Function.iterate_succ_apply' _ n _
      rw [hnext]
      exact banded_act hv ih _

theorem banded_step {x : SeededExchange ℝ} (hv : 0 ≤ v) (ev : SeededEvent)
    (h : x.participants.Banded v) :
    (@SeededExchange.step ℝ realF64 commission x ev).1.participants.Banded v := by
  cases ev with
  | order cmd => exact h
  | round => exact banded_act hv h x.book

/-- **The seeded market can be quoted.**  In exact arithmetic, from every seed and in every run:
the fair value stays at 1 or above and within its reach.  If the reach is clear of 0, every round
quotes two positive prices that are 2, 4 or 6 units apart; and with strategy limits in range and
less than `2 ^ 64` submitted, every book can be quoted. -/
theorem seeded_quotable (seed : UInt64) (v : ℝ) (rounds : ℕ) (evs : List SeededEvent)
    (hv : 0 ≤ v) :
    ∀ e ∈ Mealy.trace (@SeededExchange.step ℝ realF64 commission)
        (@SeededExchange.primed ℝ realF64 seed v rounds) evs,
      (1 ≤ e.post.participants.fairValue ∧
        |e.post.participants.fairValue - 50000| ≤ reach v) ∧
      (reach v ≤ 49996 →
        (∀ d, @SeededParticipants.Prices ℝ realF64 e.pre.participants d →
          (scale : ℤ) ≤ d.bidPx ∧ d.askPx ≤ 99999 * scale ∧
            ∃ k : ℕ, 1 ≤ k ∧ k ≤ 3 ∧ d.askPx = d.bidPx + 2 * k * scale) ∧
        ((∀ ev ∈ evs, ev.Priced fun _ => InRange) →
          rounds * (11 * scale) + (evs.map SeededEvent.atMost).sum < 2 ^ 64 →
            e.post.book.Quotable)) := by
  intro e he
  obtain ⟨hpre, hpost⟩ := (Mealy.preserved (I := fun x => x.participants.Banded v)
    (fun x ev hx => banded_step commission hv ev hx)
    (banded_primed hv seed rounds) evs).2 e he
  refine ⟨⟨hpost.positive, hpost.fairValue⟩, fun hreach =>
    ⟨fun d hd => quotes_of_banded hv hpre hreach hd, fun hevs hqty => ?_⟩⟩
  have hrounds : ∀ ev ∈ List.replicate rounds SeededEvent.round, ev.Priced fun _ => InRange := by
    intro ev hev
    rw [List.eq_of_mem_replicate hev]
    trivial
  have hprimed := (within_seeded_run commission hv hreach (within_seeded_new hv seed) hrounds).1
  rw [← seeded_primed_exec, List.map_replicate, List.sum_replicate, Nat.nsmul_eq_mul,
    Nat.zero_add] at hprimed
  have hend := ((within_seeded_run commission hv hreach hprimed hevs).2 e he).2.exchange
  exact quotable_of_priced hend.kept.1 hend.priced (hend.supply.trans_lt hqty)

/-- At a volatility of 3 the reach is 47 100. -/
theorem seeded_quotable_three :
    (Mealy.exec (@SeededExchange.step ℝ realF64 oneBp)
      (@SeededExchange.primed ℝ realF64 42 3 64) [SeededEvent.round]).book.Quotable := by
  have hreach : reach 3 ≤ 49996 := by
    unfold reach
    norm_num
  exact ((seeded_quotable oneBp 42 3 64 [SeededEvent.round] (by norm_num) _
    (List.mem_singleton.mpr rfl)).2 hreach).2
    (fun ev hev => by rw [List.mem_singleton.mp hev]; trivial) (by decide)

end HotpathIpc
