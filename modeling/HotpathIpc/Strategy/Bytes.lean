import HotpathIpc.Library.ByteCode
import HotpathIpc.Strategy.Provenance

/-!
# The byte program

`program_to_bytes` of `src/bytecode.rs`: an opcode and its operands, instruction by instruction.
An immediate is written as its 64 bits; the parameter of an indicator is cast to a `u16`, and its
slot is not written.

Nothing depends on what the 64 bits of a number are, so they are a parameter, `toBits`.

* **`programToBytes_eq_iff`** — the bytes cut a program into its instructions, and say of each the
  opcode, the immediate and the low 16 bits of the parameter (`Op.Alike`).
* **`bytes_determine_iff`** — for compiled programs that is all but the higher bits of parameters.
-/

namespace HotpathIpc

open ByteCode
open Std (ExtTreeMap)

variable {F : Type}

/-! ## Encoding -/

/-- The opcode, in the platform's opcode space. -/
def Op.opcode : Op F → UInt8
  | pushPrice => 0x41
  | pushConst _ => 0x40
  | ema _ _ => 0x60
  | momentum _ _ => 0x61
  | reversion _ _ => 0x62
  | gt => 0x50
  | lt => 0x51
  | ge => 0x52
  | le => 0x53
  | eq => 0x54
  | and => 0x10
  | or => 0x11
  | not => 0x12
  | buy => 0x30
  | sell => 0x31

/-- `as u16`. -/
def asU16 (n : ℕ) : ℕ := n % 2 ^ 16

section Encoding

variable (toBits : F → UInt64)

/-- The operands in the byte stream. -/
def Op.operands : Op F → List UInt8
  | pushConst c => leBytes 8 (toBits c).toNat
  | ema _ period => leBytes 2 (asU16 period)
  | momentum _ lookback => leBytes 2 (asU16 lookback)
  | reversion _ window => leBytes 2 (asU16 window)
  | _ => []

/-- The bytes of an instruction. -/
def Op.toBytes (op : Op F) : List UInt8 := op.opcode :: op.operands toBits

/-- `program_to_bytes`. -/
def programToBytes (prog : List (Op F)) : List UInt8 := prog.flatMap (Op.toBytes toBits)

/-- The immediate of a constant, as bits. -/
def Op.immediate : Op F → Option UInt64
  | pushConst c => some (toBits c)
  | _ => none

/-- The instruction with its immediate as bits. -/
def Op.withBits : Op F → Op UInt64
  | pushPrice => pushPrice
  | pushConst c => pushConst (toBits c)
  | ema slot period => ema slot period
  | momentum slot lookback => momentum slot lookback
  | reversion slot window => reversion slot window
  | gt => gt
  | lt => lt
  | ge => ge
  | le => le
  | eq => eq
  | and => and
  | or => or
  | not => not
  | buy => buy
  | sell => sell

/-- The same program, immediates compared as bits. -/
def SameProgram (p q : List (Op F)) : Prop := p.map (Op.withBits toBits) = q.map (Op.withBits toBits)

/-- The same instruction up to its slot and the higher bits of its parameter. -/
structure Op.Alike (op op' : Op F) : Prop where
  opcode : op.opcode = op'.opcode
  immediate : op.immediate toBits = op'.immediate toBits
  param : op.param.map asU16 = op'.param.map asU16

end Encoding

/-! ## One instruction -/

/-- How many bytes follow an opcode. -/
def operandLength (code : UInt8) : ℕ :=
  if code = 0x40 then 8 else if code = 0x60 ∨ code = 0x61 ∨ code = 0x62 then 2 else 0

/-- The instruction with an opcode, an immediate, a slot and a parameter. -/
def Op.assemble : UInt8 → Option UInt64 → Option ℕ → Option ℕ → Option (Op UInt64)
  | 0x41, none, none, none => some pushPrice
  | 0x40, some c, none, none => some (pushConst c)
  | 0x60, none, some slot, some period => some (ema slot period)
  | 0x61, none, some slot, some lookback => some (momentum slot lookback)
  | 0x62, none, some slot, some window => some (reversion slot window)
  | 0x50, none, none, none => some gt
  | 0x51, none, none, none => some lt
  | 0x52, none, none, none => some ge
  | 0x53, none, none, none => some le
  | 0x54, none, none, none => some eq
  | 0x10, none, none, none => some and
  | 0x11, none, none, none => some or
  | 0x12, none, none, none => some not
  | 0x30, none, none, none => some buy
  | 0x31, none, none, none => some sell
  | _, _, _, _ => none

section Instruction

variable {toBits : F → UInt64}

/-- An instruction is its opcode, its immediate, its slot and its parameter. -/
theorem assemble_op (op : Op F) :
    Op.assemble op.opcode (op.immediate toBits) op.slot op.param = some (op.withBits toBits) := by
  cases op <;> rfl

theorem length_operands (op : Op F) : (op.operands toBits).length = operandLength op.opcode := by
  cases op <;> first | exact length_leBytes _ _ | rfl

/-- Its operands are those of the immediate and the parameter that it has. -/
theorem operands_eq (op : Op F) : op.operands toBits
    = ((op.immediate toBits).elim [] fun c => leBytes 8 c.toNat)
      ++ op.param.elim [] fun n => leBytes 2 (asU16 n) := by
  cases op <;> simp [Op.operands, Op.immediate, Op.param]

/-- The opcode says which instruction has an immediate, a parameter and a slot. -/
theorem isSome_immediate (op : Op F) : (op.immediate toBits).isSome = (op.opcode == 0x40) := by
  cases op <;> rfl

theorem isSome_param (op : Op F) :
    op.param.isSome = (op.opcode == 0x60 || op.opcode == 0x61 || op.opcode == 0x62) := by
  cases op <;> rfl

theorem isSome_slot (op : Op F) : op.slot.isSome = op.param.isSome := by
  cases op <;> rfl

theorem map_eq_of_elim {α β γ : Type} {f : α → List β} {g : α → γ}
    (hf : ∀ a a', f a = f a' → g a = g a') {x y : Option α} (hsome : x.isSome = y.isSome) (h : x.elim [] f = y.elim [] f) :
    x.map g = y.map g := by
  cases x with
  | none =>
      cases y with
      | none => rfl
      | some b => cases hsome
  | some a =>
      cases y with
      | none => cases hsome
      | some b => exact congrArg some (hf a b h)

theorem immediate_of_bytes {c c' : UInt64} (h : leBytes 8 c.toNat = leBytes 8 c'.toNat) :
    c = c' := by
  have hmod : c.toNat % 256 ^ 8 = c'.toNat % 256 ^ 8 := leBytes_eq_iff.mp h
  have hc := c.toNat_lt
  have hc' := c'.toNat_lt
  exact UInt64.toNat_inj.mp (by omega)

theorem param_of_bytes {n n' : ℕ} (h : leBytes 2 (asU16 n) = leBytes 2 (asU16 n')) :
    asU16 n = asU16 n' := by
  have hmod : asU16 n % 256 ^ 2 = asU16 n' % 256 ^ 2 := leBytes_eq_iff.mp h
  unfold asU16 at hmod ⊢
  omega

/-- **The bytes of an instruction** say all but its slot and the higher bits of its parameter. -/
theorem toBytes_eq_iff {op op' : Op F} :
    op.toBytes toBits = op'.toBytes toBits ↔ op.Alike toBits op' := by
  rw [Op.toBytes, Op.toBytes, List.cons.injEq]
  constructor
  · rintro ⟨hcode, hoperands⟩
    have himm : (op.immediate toBits).isSome = (op'.immediate toBits).isSome := by
      rw [isSome_immediate, isSome_immediate, hcode]
    have hparam : op.param.isSome = op'.param.isSome := by
      rw [isSome_param, isSome_param, hcode]
    -- the opcode says how long the immediate is, so the operands are cut in the same place
    have hlen : ((op.immediate toBits).elim [] fun c => leBytes 8 c.toNat).length
        = ((op'.immediate toBits).elim [] fun c => leBytes 8 c.toNat).length := by
      revert himm
      cases op.immediate toBits <;> cases op'.immediate toBits <;> simp
    rw [operands_eq, operands_eq] at hoperands
    obtain ⟨hfirst, hsecond⟩ := List.append_inj hoperands hlen
    refine ⟨hcode, ?_, map_eq_of_elim (fun _ _ => param_of_bytes) hparam hsecond⟩
    have hbits := map_eq_of_elim (g := id) (fun _ _ => immediate_of_bytes) himm hfirst
    rwa [Option.map_id] at hbits
  · rintro ⟨hcode, himm, hparam⟩
    have hmap : ∀ o : Op F, (o.param.elim [] fun n => leBytes 2 (asU16 n))
        = (o.param.map asU16).elim [] (leBytes 2) := fun o => by cases o.param <;> rfl
    rw [operands_eq, operands_eq, hmap, hmap, himm, hparam]
    exact ⟨hcode, rfl⟩

end Instruction

/-! ## Programs -/

section Programs

variable {toBits : F → UInt64}

/-- An opcode says how long its instruction is. -/
theorem headed_toBytes : Headed operandLength (Set.range (Op.toBytes (F := F) toBits)) := by
  rintro w ⟨op, rfl⟩
  exact ⟨op.opcode, op.operands toBits, rfl, length_operands op⟩

/-- **Programs with the same bytes** have the same instructions, as far as bytes go. -/
theorem programToBytes_eq_iff {p q : List (Op F)} :
    programToBytes toBits p = programToBytes toBits q ↔ List.Forall₂ (Op.Alike toBits) p q := by
  rw [programToBytes, programToBytes, flatMap_eq_iff headed_toBytes.uniquelyDecodable,
    ← List.forall₂_eq_eq_eq, List.forall₂_map_left_iff, List.forall₂_map_right_iff]
  constructor
  · exact fun h => h.imp fun _ _ => toBytes_eq_iff.mp
  · exact fun h => h.imp fun _ _ => toBytes_eq_iff.mpr

/-- In order of appearance the slots are no information. -/
theorem same_of_alike {p q : List (Op F)} {slot : ℕ} (hp : Numbered slot p) (hq : Numbered slot q)
    (halike : List.Forall₂ (Op.Alike toBits) p q) (hparam : p.map Op.param = q.map Op.param) :
    SameProgram toBits p q := by
  induction halike generalizing slot with
  | nil => rfl
  | @cons op op' p q hop _ ih =>
      obtain ⟨hslot, hp⟩ := hp.cons
      obtain ⟨hslot', hq⟩ := hq.cons
      obtain ⟨hop_param, hparam⟩ := List.cons.inj hparam
      have hsome : op.slot.isSome = op'.slot.isSome := by
        rw [isSome_slot, isSome_slot, hop_param]
      have hslots : op.slot = op'.slot := by
        cases hs : op.slot with
        | none =>
            rw [hs] at hsome
            exact (Option.not_isSome_iff_eq_none.mp (by simp [← hsome])).symm
        | some s =>
            rw [hs] at hsome
            obtain ⟨s', hs'⟩ := Option.isSome_iff_exists.mp hsome.symm
            rw [hs', hslot s hs, hslot' s' hs']
      have hbits : op.withBits toBits = op'.withBits toBits := by
        refine Option.some.inj ?_
        rw [← assemble_op, ← assemble_op, hop.opcode, hop.immediate, hslots, hop_param]
      have hrest : SameProgram toBits p q := ih hp (by rwa [hslots]) hparam
      rw [SameProgram, List.map_cons, List.map_cons, hbits]
      exact congrArg _ hrest

/-- The same program has the same parameters. -/
theorem params_of_same {p q : List (Op F)} (h : SameProgram toBits p q) :
    p.map Op.param = q.map Op.param := by
  have hparam : (Op.param : Op F → Option ℕ) = Op.param ∘ Op.withBits toBits := by
    funext op
    cases op <;> rfl
  rw [hparam, ← List.map_map, ← List.map_map, h]

end Programs

/-- The two programs differ in parameters, and in nothing that bytes say. -/
def Twins (toBits : F → UInt64) (p q : List (Op F)) : Prop :=
  List.Forall₂ (Op.Alike toBits) p q ∧ p.map Op.param ≠ q.map Op.param

/-- Parameters below 65536 are written whole. -/
theorem not_twins_of_narrow {toBits : F → UInt64} {p q : List (Op F)}
    (hp : ∀ op ∈ p, ∀ n, op.param = some n → n < 2 ^ 16)
    (hq : ∀ op ∈ q, ∀ n, op.param = some n → n < 2 ^ 16) : ¬ Twins toBits p q := by
  rintro ⟨halike, hparam⟩
  refine hparam ?_
  clear hparam
  have hwhole : ∀ {op : Op F}, (∀ n, op.param = some n → n < 2 ^ 16) →
      op.param.map asU16 = op.param := by
    intro op hop
    cases hn : op.param with
    | none => rfl
    | some n => exact congrArg some (Nat.mod_eq_of_lt (hop n hn))
  induction halike with
  | nil => rfl
  | cons hop _ ih =>
      have hhead := hop.param
      rw [hwhole (hp _ List.mem_cons_self), hwhole (hq _ List.mem_cons_self)] at hhead
      rw [List.map_cons, List.map_cons, hhead, ih
        (fun op hmem => hp op (List.mem_cons_of_mem _ hmem))
        (fun op hmem => hq op (List.mem_cons_of_mem _ hmem))]

variable [F64 F]

/-- **When the byte program determines the program.**  Two compiled programs with the same bytes are
the same program, unless they are alike and some parameters differ, by multiples of 65536. -/
theorem bytes_determine_iff (toBits : F → UInt64) {spec spec' : GraphSpec F} {p q : List (Op F)}
    (hp : compile spec = .ok p) (hq : compile spec' = .ok q) :
    (programToBytes toBits p = programToBytes toBits q → SameProgram toBits p q) ↔
      ¬ Twins toBits p q := by
  constructor
  · rintro hdetermined ⟨halike, hparam⟩
    exact hparam (params_of_same (hdetermined (programToBytes_eq_iff.mpr halike)))
  · intro htwins hbytes
    have halike := programToBytes_eq_iff.mp hbytes
    refine same_of_alike (compiled_words hp).1 (compiled_words hq).1 halike ?_
    by_contra hparam
    exact htwins ⟨halike, hparam⟩

/-- Buy when the average over this period is above 100. -/
def averageGraph (period : ℚ) : GraphSpec ℚ where
  nodes :=
    [⟨"e", "ema", ExtTreeMap.ofList [("period", period)], ∅⟩,
      ⟨"c", "condition", ExtTreeMap.ofList [("value", (100 : ℚ))], ∅⟩, ⟨"b", "buy_signal", ∅, ∅⟩]
  connections := [("e", "c"), ("c", "b")]

/-- Its program. -/
def averageProgram (period : ℕ) : List (Op ℚ) :=
  [Op.ema 0 period, Op.pushConst 100, Op.gt, Op.buy]

theorem bytes_determine_iff_narrow : letI : F64 ℚ := F64.exact fun x => x
    compile (averageGraph 12) = .ok (averageProgram 12) ∧
      compile (averageGraph 26) = .ok (averageProgram 26) ∧
      ∀ toBits : ℚ → UInt64,
        programToBytes toBits (averageProgram 12) = programToBytes toBits (averageProgram 26) →
          SameProgram toBits (averageProgram 12) (averageProgram 26) := by
  let _ : F64 ℚ := F64.exact fun x => x
  have hshort : compile (averageGraph 12) = .ok (averageProgram 12) := by decide +kernel
  have hlong : compile (averageGraph 26) = .ok (averageProgram 26) := by decide +kernel
  refine ⟨hshort, hlong, fun toBits => (bytes_determine_iff toBits hshort hlong).mpr ?_⟩
  exact not_twins_of_narrow (by simp [averageProgram, Op.param]) (by simp [averageProgram, Op.param])

/-- **Two programs with the same bytes**: averages over 1 and over 65537 prices. -/
theorem long_period_bytes : letI : F64 ℚ := F64.exact fun x => x
    compile (averageGraph 1) = .ok (averageProgram 1) ∧
      compile (averageGraph 65537) = .ok (averageProgram 65537) ∧
      ∀ toBits : ℚ → UInt64,
        programToBytes toBits (averageProgram 1) = programToBytes toBits (averageProgram 65537) ∧
          ¬ SameProgram toBits (averageProgram 1) (averageProgram 65537) := by
  let _ : F64 ℚ := F64.exact fun x => x
  refine ⟨by decide +kernel, by decide +kernel, fun toBits => ⟨rfl, fun hsame => ?_⟩⟩
  exact absurd (params_of_same hsame) (by simp [averageProgram, Op.param])

end HotpathIpc
