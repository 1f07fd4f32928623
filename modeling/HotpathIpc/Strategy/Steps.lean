import HotpathIpc.Strategy.Lowering
import Mathlib.Data.List.Basic

/-!
# Which instructions run, and which pushes fit

`Expr.lean` says what code computes when all goes well.  This file says, of any program whose slots
are numbered in order of appearance, how far it gets and when its stack is large enough.

* `Numbered` — the slots are numbered in order; a compiled program's are (`numbered_signals`).
* `Op.now` — the state an instruction finds; **`exec_sized`**, **`exec_stuck`** — an instruction
  with a buffer runs and takes its state one price further, one without a buffer does not.
* `Machine.Fits` — no instruction that runs pushes onto a full stack; **`fits_iff`** — that is a
  bound on the depth of the part of the program before the first instruction without a buffer
  (`reachedCode`).
* **`vm_fits_iff`**, **`vm_completes_iff`** — the same over every sequence of prices: pushes fit,
  and the machine gets through, exactly when these bounds hold.
-/

namespace HotpathIpc

variable {F : Type}

/-! ## Slots in order -/

/-- The slot of an indicator. -/
def Op.slot : Op F → Option ℕ
  | Op.ema slot _ => some slot
  | Op.momentum slot _ => some slot
  | Op.reversion slot _ => some slot
  | _ => none

/-- The parameter of an indicator. -/
def Op.param : Op F → Option ℕ
  | Op.ema _ period => some period
  | Op.momentum _ lookback => some lookback
  | Op.reversion _ window => some window
  | _ => none

/-- The parameter is a `usize`. -/
def Op.Word (op : Op F) : Prop := ∀ n, op.param = some n → n < 2 ^ 64

/-- The indicators carry the slots from `slot` on, in order of appearance. -/
def Numbered (slot : ℕ) (code : List (Op F)) : Prop :=
  code.filterMap Op.slot = List.range' slot (code.filterMap Op.slot).length

theorem Numbered.append {slot : ℕ} {c₁ c₂ : List (Op F)} (h₁ : Numbered slot c₁)
    (h₂ : Numbered (slot + (c₁.filterMap Op.slot).length) c₂) : Numbered slot (c₁ ++ c₂) := by
  rw [Numbered, List.filterMap_append, List.length_append]
  exact (congrArg₂ (· ++ ·) h₁ h₂).trans List.range'_append_1

/-- Taking the first instruction off. -/
theorem Numbered.cons {slot : ℕ} {op : Op F} {code : List (Op F)} (h : Numbered slot (op :: code)) :
    (∀ s, op.slot = some s → s = slot) ∧ Numbered (slot + op.slot.toList.length) code := by
  unfold Numbered at h
  cases hop : op.slot with
  | none =>
      rw [List.filterMap_cons_none hop] at h
      exact ⟨fun _ hs => absurd hs (by simp), h⟩
  | some s =>
      rw [List.filterMap_cons_some hop, List.length_cons, List.range'_succ] at h
      obtain ⟨hs, hcode⟩ := List.cons.inj h
      exact ⟨fun s' hs' => (Option.some.inj hs').symm.trans hs, hcode⟩

/-- A piece of code without indicators has no slots. -/
theorem numbered_of_none {slot : ℕ} {op : Op F} (h : op.slot = none) : Numbered slot [op] := by
  rw [Numbered, List.filterMap_cons_none h]
  rfl

variable [F64 F]

theorem length_slot_cell (hist : List F) (op : Op F) :
    op.slot.toList.length = (op.cell hist).toList.length := by
  cases op <;> rfl

theorem length_slots (hist : List F) (code : List (Op F)) :
    (code.filterMap Op.slot).length = (cells hist code).length := by
  have hsome : (fun op : Op F => op.slot.isSome) = fun op => (op.cell hist).isSome := by
    funext op
    cases op <;> rfl
  rw [cells, List.length_filterMap_eq_countP, List.length_filterMap_eq_countP, hsome]

theorem numbered_code (e : Expr F) (slot : ℕ) : Numbered slot (e.code slot).1 := by
  induction e generalizing slot with
  | binary f e₁ e₂ ih₁ ih₂ =>
      have hslot := code_slot [] e₁ slot
      have hop : (f.op : Op F).slot = none := by cases f <;> rfl
      refine Numbered.append (Numbered.append (ih₁ slot) ?_) (numbered_of_none hop)
      rw [length_slots [], ← hslot]
      exact ih₂ _
  | _ => rfl

/-- **A compiled program's slots are numbered in order.** -/
theorem numbered_signals : ∀ (signals : List (Terminal × Expr F)) (slot : ℕ),
    Numbered slot (codeSignals signals slot).1
  | [], _ => rfl
  | s :: signals, slot => by
      have hop : (s.1.op : Op F).slot = none := by cases s.1 <;> rfl
      have hslot := code_slot [] s.2 slot
      rw [← length_slots] at hslot
      have hrest : Numbered (slot + ((s.2.code slot).1.filterMap Op.slot).length)
          (codeSignals signals (s.2.code slot).2).1 := by
        rw [← hslot]
        exact numbered_signals signals _
      refine Numbered.append (numbered_code s.2 slot) ?_
      exact Numbered.append (numbered_of_none hop) (by
        rw [List.filterMap_cons_none hop]
        exact hrest)

/-! ## One instruction -/

/-- The state that an instruction finds after a history: an indicator without a buffer never gets
past its first price. -/
def Op.now (hist : List F) (op : Op F) : Option (IndState F) :=
  if op.Sized then op.cell hist else IndState.forOp op

theorem now_nil (op : Op F) : op.now [] = IndState.forOp op := by
  rw [Op.now]
  split
  · exact cell_nil ‹_›
  · rfl

omit [F64 F] in
theorem push_state (m : Machine F) (v : F) : (m.push v).state = m.state := by
  rw [Machine.push]
  split <;> rfl

theorem pop_state (m : Machine F) : m.pop.2.state = m.state := by
  rw [Machine.pop]
  split <;> rfl

theorem binary_state (f : F → F → Bool) (m : Machine F) : (m.binary f).state = m.state := by
  simp [Machine.binary, push_state, pop_state]

omit [F64 F] in
/-- An indicator that finds its state in its slot. -/
theorem indicator_some {m : Machine F} {done rest : List (IndState F)} {s s' : IndState F} {v : F}
    {update : IndState F → Option (IndState F × F)} (hstate : m.state = done ++ [s] ++ rest)
    (hupdate : update s = some (s', v)) : ∃ m', m.indicator done.length update = some m' ∧
      m'.state = done ++ [s'] ++ rest := by
  have hget : m.state[done.length]? = some s := by simp [hstate]
  have hset : m.state.set done.length s' = done ++ [s'] ++ rest := by simp [hstate]
  refine ⟨Machine.push ⟨done ++ [s'] ++ rest, m.stack, m.decision⟩ v, ?_, push_state _ _⟩
  simp only [Machine.indicator, hget, hupdate, Option.bind_eq_bind, Option.bind_some, hset]

/-- **An instruction with its buffer** runs, and takes its own state one price further. -/
theorem exec_sized {op : Op F} {hist : List F} {m : Machine F} {done rest : List (IndState F)}
    (h : op.Sized) (hslot : ∀ s, op.slot = some s → s = done.length)
    (hstate : m.state = done ++ (op.cell hist).toList ++ rest) (price : F) :
    ∃ m', m.exec price op = some m' ∧
      m'.state = done ++ (op.cell (price :: hist)).toList ++ rest := by
  cases op with
  | ema slot period =>
      obtain rfl := hslot slot rfl
      exact indicator_some hstate (congrArg some (emaUpdate_cell period price hist))
  | momentum slot lookback =>
      obtain rfl := hslot slot rfl
      exact indicator_some hstate (momentumUpdate_cell lookback price hist)
  | reversion slot window =>
      obtain rfl := hslot slot rfl
      exact indicator_some hstate (reversionUpdate_cell h price hist)
  | pushPrice => exact ⟨_, rfl, by simp [push_state, hstate, Op.cell]⟩
  | pushConst c => exact ⟨_, rfl, by simp [push_state, hstate, Op.cell]⟩
  | not => exact ⟨_, rfl, by simp [push_state, pop_state, hstate, Op.cell]⟩
  | buy => exact ⟨_, rfl, by split <;> simp [pop_state, hstate, Op.cell]⟩
  | sell => exact ⟨_, rfl, by split <;> simp [pop_state, hstate, Op.cell]⟩
  | _ => exact ⟨_, rfl, by simp [binary_state, hstate, Op.cell]⟩

/-- **An instruction without a buffer** does not. -/
theorem exec_stuck {op : Op F} {m : Machine F} {done rest : List (IndState F)} (h : ¬ op.Sized)
    (hword : op.Word) (hslot : ∀ s, op.slot = some s → s = done.length)
    (hstate : m.state = done ++ (IndState.forOp op).toList ++ rest) (price : F) :
    m.exec price op = none := by
  have hstuck : ∀ {s : IndState F} {update : IndState F → Option (IndState F × F)},
      m.state = done ++ [s] ++ rest → update s = none → m.indicator done.length update = none := by
    intro s update hs hnone
    have hget : m.state[done.length]? = some s := by simp [hs]
    simp only [Machine.indicator, hget, hnone, Option.bind_eq_bind, Option.bind_some,
      Option.bind_none]
  cases op with
  | momentum slot lookback =>
      obtain rfl := hslot slot rfl
      have hmax : lookback + 1 = 2 ^ 64 := Nat.le_antisymm (hword lookback rfl) (Nat.le_of_not_lt h)
      have hlen : momentumLen lookback = 0 := by rw [momentumLen, hmax, Nat.mod_self]
      refine hstuck hstate ?_
      simp [hlen, IndState.momentumUpdate]
  | reversion slot window =>
      obtain rfl := hslot slot rfl
      have hzero : window = 0 := Nat.lt_one_iff.mp (Nat.lt_of_not_le h)
      refine hstuck hstate ?_
      simp [hzero, IndState.reversionUpdate]
  | _ => exact absurd trivial h

/-! ## The stack -/

/-- How many values an instruction pops. -/
def Op.pops : Op F → ℕ
  | Op.pushPrice => 0
  | Op.pushConst _ => 0
  | Op.ema _ _ => 0
  | Op.momentum _ _ => 0
  | Op.reversion _ _ => 0
  | Op.not => 1
  | Op.buy => 1
  | Op.sell => 1
  | _ => 2

/-- Every instruction but the terminal ones pushes a value. -/
def Op.pushes : Op F → Bool
  | Op.buy => false
  | Op.sell => false
  | _ => true

/-- The instruction's push finds the stack full and is dropped. -/
def Machine.Discards (m : Machine F) (op : Op F) : Prop :=
  op.pushes = true ∧ STACK_CAP ≤ m.stack.length - op.pops

/-- Run on `price`, no instruction that completes has its push dropped, and the stack stays within
its capacity. -/
def Machine.Fits (price : F) : Machine F → List (Op F) → Prop
  | _, [] => True
  | m, op :: code => ∀ m', m.exec price op = some m' →
      ¬ m.Discards op ∧ m'.stack.length ≤ STACK_CAP ∧ m'.Fits price code

omit [F64 F] in
theorem depth_eq (op : Op F) (d : ℕ) :
    op.depth d = d - op.pops + if op.pushes then 1 else 0 := by
  cases op <;> rfl

omit [F64 F] in
theorem length_push (m : Machine F) (v : F) : (m.push v).stack.length
    = if m.stack.length < STACK_CAP then m.stack.length + 1 else m.stack.length := by
  rw [Machine.push]
  split <;> rfl

theorem length_pop (m : Machine F) : m.pop.2.stack.length = m.stack.length - 1 := by
  rw [Machine.pop]
  split
  · rename_i hnil
    rw [hnil]
    rfl
  · rename_i hcons
    rw [hcons]
    rfl

/-- What a completed instruction does to the depth. -/
theorem length_exec {op : Op F} {m m' : Machine F} {price : F} (h : m.exec price op = some m') :
    m'.stack.length = if op.pushes = true ∧ m.stack.length - op.pops < STACK_CAP then
      m.stack.length - op.pops + 1 else m.stack.length - op.pops := by
  have hindicator : ∀ {slot : ℕ} {update : IndState F → Option (IndState F × F)},
      m.indicator slot update = some m' → m'.stack.length
        = if m.stack.length < STACK_CAP then m.stack.length + 1 else m.stack.length := by
    intro slot update hsome
    obtain ⟨s, -, hsome⟩ := Option.bind_eq_some_iff.mp hsome
    obtain ⟨r, -, hsome⟩ := Option.bind_eq_some_iff.mp hsome
    rw [← Option.some.inj hsome, length_push]
  cases op with
  | ema slot period => simpa [Op.pushes, Op.pops] using hindicator h
  | momentum slot lookback => simpa [Op.pushes, Op.pops] using hindicator h
  | reversion slot window => simpa [Op.pushes, Op.pops] using hindicator h
  | pushPrice =>
      rw [← Option.some.inj h, length_push]
      simp [Op.pushes, Op.pops]
  | pushConst c =>
      rw [← Option.some.inj h, length_push]
      simp [Op.pushes, Op.pops]
  | not =>
      rw [← Option.some.inj h, length_push, length_pop]
      simp [Op.pushes, Op.pops]
  | buy =>
      rw [← Option.some.inj h]
      split <;> simp [length_pop, Op.pushes, Op.pops]
  | sell =>
      rw [← Option.some.inj h]
      split <;> simp [length_pop, Op.pushes, Op.pops]
  | _ =>
      rw [← Option.some.inj h, Machine.binary, length_push, length_pop, length_pop]
      simp [Op.pushes, Op.pops, Nat.sub_sub]

/-- With room, the depth is the one on a stack without a bound; without, that one is too deep. -/
theorem depth_exec {op : Op F} {m m' : Machine F} {price : F} (h : m.exec price op = some m')
    (hcap : m.stack.length ≤ STACK_CAP) : m'.stack.length ≤ STACK_CAP ∧
      (¬ m.Discards op → m'.stack.length = op.depth m.stack.length) ∧
      (m.Discards op → STACK_CAP < op.depth m.stack.length) := by
  have hlen := length_exec h
  have hdepth := depth_eq op m.stack.length
  unfold Machine.Discards
  cases hpush : op.pushes with
  | false =>
      rw [hpush, if_neg (by simp)] at hlen
      rw [hpush, if_neg (by simp)] at hdepth
      exact ⟨by omega, fun _ => by omega, fun hno => absurd hno.1 (by simp)⟩
  | true =>
      rw [hpush, if_pos rfl] at hdepth
      rw [hpush] at hlen
      simp only [true_and] at hlen ⊢
      split at hlen
      · exact ⟨by omega, fun _ => by omega, fun _ => by omega⟩
      · exact ⟨by omega, fun _ => by omega, fun _ => by omega⟩

/-! ## A piece of code -/

/-- The instructions up to the first one without a buffer. -/
def reachedCode (code : List (Op F)) : List (Op F) := code.takeWhile fun op => decide op.Sized

omit [F64 F] in
theorem reachedCode_cons {op : Op F} (h : op.Sized) (code : List (Op F)) :
    reachedCode (op :: code) = op :: reachedCode code :=
  List.takeWhile_cons_of_pos (decide_eq_true h)

omit [F64 F] in
theorem reachedCode_stuck {op : Op F} (h : ¬ op.Sized) (code : List (Op F)) :
    reachedCode (op :: code) = [] :=
  List.takeWhile_cons_of_neg (by simpa using h)

section Code

variable {hist : List F} (price : F)

/-- The first of some instructions, on the states they find. -/
theorem exec_head {op : Op F} {code : List (Op F)} {m : Machine F} {done : List (IndState F)}
    (hnum : Numbered done.length (op :: code)) (hword : op.Word)
    (hstate : m.state = done ++ (op :: code).filterMap (Op.now hist)) :
    (op.Sized → ∃ m', m.exec price op = some m' ∧
        m'.state = (done ++ (op.cell (price :: hist)).toList) ++ code.filterMap (Op.now hist) ∧
        Numbered (done ++ (op.cell (price :: hist)).toList).length code) ∧
      (¬ op.Sized → m.exec price op = none) := by
  obtain ⟨hslot, hcode⟩ := hnum.cons
  have hsplit : (op :: code).filterMap (Op.now hist)
      = (op.now hist).toList ++ code.filterMap (Op.now hist) := by
    cases hnow : op.now hist with
    | none => rw [List.filterMap_cons_none hnow]; rfl
    | some s => rw [List.filterMap_cons_some hnow]; rfl
  rw [hsplit, ← List.append_assoc] at hstate
  constructor
  · intro hsized
    rw [Op.now, if_pos hsized] at hstate
    obtain ⟨m', hexec, hm'⟩ := exec_sized hsized hslot hstate price
    refine ⟨m', hexec, hm', ?_⟩
    rw [List.length_append, ← length_slot_cell]
    exact hcode
  · intro hbad
    rw [Op.now, if_neg hbad] at hstate
    exact exec_stuck hbad hword hslot hstate price

/-- **Pushes fit** exactly when the part of the code that is reached is not too deep. -/
theorem fits_iff : ∀ {code : List (Op F)} {m : Machine F} {done : List (IndState F)},
    Numbered done.length code → (∀ op ∈ code, op.Word) →
      m.state = done ++ code.filterMap (Op.now hist) → m.stack.length ≤ STACK_CAP →
        (m.Fits price code ↔ peakDepth m.stack.length (reachedCode code) ≤ STACK_CAP)
  | [], _, _, _, _, _, hcap => ⟨fun _ => hcap, fun _ => trivial⟩
  | op :: code, m, done, hnum, hword, hstate, hcap => by
      obtain ⟨hrun, hstuck⟩ := exec_head price hnum (hword op List.mem_cons_self) hstate
      by_cases hsized : op.Sized
      · obtain ⟨m', hexec, hstate', hnum'⟩ := hrun hsized
        obtain ⟨hcap', hroom, hfull⟩ := depth_exec hexec hcap
        have ih := fits_iff hnum' (fun op hop => hword op (List.mem_cons_of_mem _ hop)) hstate' hcap'
        have hpeak : ∀ rest : List (Op F), peakDepth m.stack.length (op :: rest)
            = max m.stack.length (peakDepth (op.depth m.stack.length) rest) := fun _ => rfl
        rw [reachedCode_cons hsized, hpeak, max_le_iff, Machine.Fits]
        constructor
        · intro hfits
          obtain ⟨hno, -, hrest⟩ := hfits m' hexec
          rw [← hroom hno]
          exact ⟨hcap, ih.mp hrest⟩
        · rintro ⟨-, hpeak⟩ m'' hexec'
          obtain rfl := Option.some.inj (hexec.symm.trans hexec')
          have hno : ¬ m.Discards op := fun hdisc => by
            have hstart : op.depth m.stack.length ≤ peakDepth (op.depth m.stack.length)
                (reachedCode code) := Depth.start_le_peak _ _ _
            have hover := hfull hdisc
            omega
          rw [← hroom hno] at hpeak
          exact ⟨hno, hcap', ih.mpr hpeak⟩
      · rw [reachedCode_stuck hsized]
        refine ⟨fun _ => hcap, fun _ m' hexec => ?_⟩
        rw [hstuck hsized] at hexec
        exact absurd hexec (by simp)

/-- **How far code gets**: with all buffers it runs and takes every state one price further, with
one missing it does not. -/
theorem run_cases : ∀ {code : List (Op F)} {m : Machine F} {done : List (IndState F)},
    Numbered done.length code → (∀ op ∈ code, op.Word) →
      m.state = done ++ code.filterMap (Op.now hist) →
        ((∀ op ∈ code, op.Sized) → ∃ m', m.run price code = some m' ∧
          m'.state = done ++ cells (price :: hist) code) ∧
        ((∃ op ∈ code, ¬ op.Sized) → m.run price code = none)
  | [], m, done, _, _, hstate => ⟨fun _ => ⟨m, rfl, hstate⟩, fun ⟨_, hop, _⟩ =>
      absurd hop List.not_mem_nil⟩
  | op :: code, m, done, hnum, hword, hstate => by
      obtain ⟨hrun, hstuck⟩ := exec_head price hnum (hword op List.mem_cons_self) hstate
      by_cases hsized : op.Sized
      · obtain ⟨m', hexec, hstate', hnum'⟩ := hrun hsized
        obtain ⟨hgood, hbad⟩ :=
          run_cases hnum' (fun op hop => hword op (List.mem_cons_of_mem _ hop)) hstate'
        have hcons : m.run price (op :: code) = m'.run price code := by
          rw [Machine.run, List.foldlM_cons, hexec]
          rfl
        rw [hcons]
        constructor
        · intro hall
          obtain ⟨m'', hrest, hm''⟩ := hgood fun op hop => hall op (List.mem_cons_of_mem _ hop)
          refine ⟨m'', hrest, ?_⟩
          rw [hm'', List.append_assoc, cells, cells]
          cases hcell : op.cell (price :: hist) with
          | none => rw [List.filterMap_cons_none hcell]; rfl
          | some s => rw [List.filterMap_cons_some hcell]; rfl
        · rintro ⟨op', hop', hno⟩
          rcases List.mem_cons.mp hop' with rfl | hop'
          · exact absurd hsized hno
          · exact hbad ⟨op', hop', hno⟩
      · refine ⟨fun hall => absurd (hall op List.mem_cons_self) hsized, fun _ => ?_⟩
        rw [Machine.run, List.foldlM_cons, hstuck hsized]
        rfl

end Code

/-! ## Ticks -/

/-- At every tick of the machine on these prices, pushes fit. -/
def Vm.Fits : Vm F → List F → Prop
  | _, [] => True
  | vm, price :: prices => Machine.Fits price ⟨vm.state, [], VmDecision.hold⟩ vm.prog ∧
      ∀ r, vm.run price = some r → r.1.Fits prices

section Ticks

variable {prog : List (Op F)}

/-- The machine after a history. -/
def Vm.at (prog : List (Op F)) (hist : List F) : Vm F := ⟨prog, prog.filterMap (Op.now hist)⟩

theorem new_at (prog : List (Op F)) : Vm.new prog = Vm.at prog [] := by
  have hnow : (Op.now [] : Op F → Option (IndState F)) = IndState.forOp := funext now_nil
  rw [Vm.new, Vm.at, hnow]

/-- One tick, if it completes. -/
theorem run_at (hnum : Numbered 0 prog) (hword : ∀ op ∈ prog, op.Word) (hist : List F) (price : F) :
    ((∀ op ∈ prog, op.Sized) → ∃ d, (Vm.at prog hist).run price
        = some (Vm.at prog (price :: hist), d)) ∧
      ((∃ op ∈ prog, ¬ op.Sized) → (Vm.at prog hist).run price = none) := by
  have hstate : (Machine.mk (Vm.at prog hist).state [] VmDecision.hold).state
      = [] ++ prog.filterMap (Op.now hist) := rfl
  have hnil : Numbered ([] : List (IndState F)).length prog := hnum
  obtain ⟨hgood, hbad⟩ := run_cases price hnil hword hstate
  constructor
  · intro hall
    obtain ⟨m, hrun, hm⟩ := hgood hall
    have hcells : cells (price :: hist) prog = prog.filterMap (Op.now (price :: hist)) := by
      refine List.filterMap_congr fun op hop => ?_
      rw [Op.now, if_pos (hall op hop)]
    refine ⟨m.decision, ?_⟩
    rw [Vm.run, show (Vm.at prog hist).prog = prog from rfl, hrun, Option.bind_eq_bind,
      Option.bind_some, hm, List.nil_append, hcells]
    rfl
  · intro hsome
    rw [Vm.run, show (Vm.at prog hist).prog = prog from rfl, hbad hsome]
    rfl

/-- **Whether pushes fit** on every sequence of prices. -/
theorem vm_fits_iff (hnum : Numbered 0 prog) (hword : ∀ op ∈ prog, op.Word) :
    (∀ prices, (Vm.new prog).Fits prices) ↔ peakDepth 0 (reachedCode prog) ≤ STACK_CAP := by
  have hone : ∀ (hist : List F) (price : F),
      Machine.Fits price ⟨(Vm.at prog hist).state, [], VmDecision.hold⟩ prog ↔
        peakDepth 0 (reachedCode prog) ≤ STACK_CAP := by
    intro hist price
    have hnil : Numbered ([] : List (IndState F)).length prog := hnum
    exact fits_iff price hnil hword rfl (Nat.zero_le _)
  rw [new_at]
  constructor
  · intro h
    exact (hone [] 0.0).mp (h [0.0]).1
  · intro hpeak prices
    -- the machine after any history, by induction on the prices still to come
    suffices hall : ∀ hist, (Vm.at prog hist).Fits prices from hall []
    induction prices with
    | nil => exact fun _ => trivial
    | cons price prices ih =>
        intro hist
        refine ⟨(hone hist price).mpr hpeak, fun r hr => ?_⟩
        obtain ⟨hgood, hbad⟩ := run_at hnum hword hist price
        by_cases hall : ∀ op ∈ prog, op.Sized
        · obtain ⟨d, hrun⟩ := hgood hall
          rw [← Option.some.inj (hrun.symm.trans hr)]
          exact ih (price :: hist)
        · push Not at hall
          rw [hbad hall] at hr
          exact absurd hr (by simp)

/-- **Whether the machine gets through** every sequence of prices. -/
theorem vm_completes_iff (hnum : Numbered 0 prog) (hword : ∀ op ∈ prog, op.Word) :
    (∀ prices, (Vm.new prog).decisions prices ≠ none) ↔ ∀ op ∈ prog, op.Sized := by
  rw [new_at]
  constructor
  · intro h
    by_contra hno
    push Not at hno
    refine h [0.0] ?_
    rw [Vm.decisions, (run_at hnum hword [] 0.0).2 hno]
    rfl
  · intro hall prices
    suffices hsome : ∀ hist, (Vm.at prog hist).decisions prices ≠ none from hsome []
    induction prices with
    | nil => exact fun _ => by simp [Vm.decisions]
    | cons price prices ih =>
        intro hist
        obtain ⟨d, hrun⟩ := (run_at hnum hword hist price).1 hall
        obtain ⟨ds, hds⟩ := Option.ne_none_iff_exists'.mp (ih (price :: hist))
        rw [Vm.decisions, hrun, Option.bind_eq_bind, Option.bind_some, hds]
        simp

end Ticks

end HotpathIpc
