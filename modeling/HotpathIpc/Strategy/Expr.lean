import HotpathIpc.Library.Depth
import HotpathIpc.Strategy.Compiler
import HotpathIpc.Strategy.Indicators

/-!
# Expression trees and their code

Lowering a graph unfolds it into trees: a node used twice is emitted twice, with a slot of its own
each time.  Here are the trees, what they mean on a price history (`Expr.eval`) and the code they
are emitted as (`Expr.code`).

`Runs` is the triple of this machine: code whose indicators have seen `hist` and that is run on one
more price leaves them having seen that price, and changes the stack and the decision as said.
Code is composed by `Runs.append`.

* **`code_runs`** — on a stack with room, the code of a tree pushes its value.
-/

namespace HotpathIpc

variable {F : Type} [F64 F]

/-! ## Trees -/

/-- The binary operators. -/
inductive Binary where
  | gt
  | lt
  | ge
  | le
  | eq
  | and
  | or
deriving DecidableEq, Repr

def Binary.op : Binary → Op F
  | gt => Op.gt
  | lt => Op.lt
  | ge => Op.ge
  | le => Op.le
  | eq => Op.eq
  | and => Op.and
  | or => Op.or

def Binary.holds : Binary → F → F → Bool
  | gt => fun a b => F64.lt b a
  | lt => fun a b => F64.lt a b
  | ge => fun a b => F64.le b a
  | le => fun a b => F64.le a b
  | eq => fun a b => F64.lt (F64.abs (a - b)) 1e-10
  | and => fun a b => F64.lt 0.0 a && F64.lt 0.0 b
  | or => fun a b => F64.lt 0.0 a || F64.lt 0.0 b

/-- A graph node unfolded down to its sources. -/
inductive Expr (F : Type) where
  | price
  | const (c : F)
  | ema (period : ℕ)
  | momentum (lookback : ℕ)
  | reversion (window : ℕ)
  | binary (f : Binary) (e₁ e₂ : Expr F)

namespace Expr

/-- The value of a tree, from the prices up to now, newest first. -/
def eval (hist : List F) : Expr F → F
  | price => hist.headD 0.0
  | const c => c
  | ema period => emaOf period hist
  | momentum lookback => momentumOf lookback hist
  | reversion window => reversionOf window hist
  | binary f e₁ e₂ => boolF64 (f.holds (e₁.eval hist) (e₂.eval hist))

/-- The code of a tree, with slots numbered from `slot`. -/
def code : Expr F → ℕ → Code F
  | price, slot => ([Op.pushPrice], slot)
  | const c, slot => ([Op.pushConst c], slot)
  | ema period, slot => ([Op.ema slot period], slot + 1)
  | momentum lookback, slot => ([Op.momentum slot lookback], slot + 1)
  | reversion window, slot => ([Op.reversion slot window], slot + 1)
  | binary f e₁ e₂, slot =>
      let c₁ := e₁.code slot
      let c₂ := e₂.code c₁.2
      (c₁.1 ++ c₂.1 ++ [f.op], c₂.2)

end Expr

/-! ## Slots and depth -/

/-- The states of the indicators of a piece of code after a history, in slot order. -/
def cells (hist : List F) (code : List (Op F)) : List (IndState F) :=
  code.filterMap (Op.cell hist)

@[simp] theorem cells_append (hist : List F) (c₁ c₂ : List (Op F)) :
    cells hist (c₁ ++ c₂) = cells hist c₁ ++ cells hist c₂ :=
  List.filterMap_append

/-- How many states there are does not depend on the history. -/
theorem length_cells (hist hist' : List F) (code : List (Op F)) :
    (cells hist code).length = (cells hist' code).length := by
  have hsome : (fun op : Op F => (op.cell hist).isSome) = fun op => (op.cell hist').isSome := by
    funext op
    cases op <;> rfl
  rw [cells, cells, List.length_filterMap_eq_countP, List.length_filterMap_eq_countP, hsome]

theorem code_slot (hist : List F) (e : Expr F) (slot : ℕ) :
    (e.code slot).2 = slot + (cells hist (e.code slot).1).length := by
  induction e generalizing slot with
  | binary f e₁ e₂ ih₁ ih₂ =>
      have hop : cells hist [(f.op : Op F)] = [] := by cases f <;> rfl
      simp only [Expr.code, cells_append, hop, List.length_append, List.length_nil]
      rw [ih₂, ih₁]
      omega
  | _ => rfl

/-- The stack depth after an instruction, on a stack without a bound. -/
def Op.depth (d : ℕ) : Op F → ℕ
  | Op.pushPrice => d + 1
  | Op.pushConst _ => d + 1
  | Op.ema _ _ => d + 1
  | Op.momentum _ _ => d + 1
  | Op.reversion _ _ => d + 1
  | Op.not => d - 1 + 1
  | Op.buy => d - 1
  | Op.sell => d - 1
  | _ => d - 1 - 1 + 1

/-- The greatest stack depth of a piece of code run from depth `d`. -/
abbrev peakDepth (d : ℕ) (code : List (Op F)) : ℕ := Depth.peak Op.depth d code

omit [F64 F] in
theorem depth_binary (f : Binary) (d : ℕ) : (f.op : Op F).depth (d + 2) = d + 1 := by
  cases f <;> rfl

omit [F64 F] in
/-- The code of a tree leaves one more value. -/
theorem code_depth (e : Expr F) (slot d : ℕ) : (e.code slot).1.foldl Op.depth d = d + 1 := by
  induction e generalizing slot d with
  | binary f e₁ e₂ ih₁ ih₂ =>
      simp only [Expr.code, List.foldl_append, ih₁, ih₂, List.foldl_cons, List.foldl_nil]
      exact depth_binary f d
  | _ => rfl

/-! ## Running code -/

/-- Run on `price` when its indicators have seen `hist`, the code takes the stack and the decision
from the first to the second. -/
def Runs (hist : List F) (price : F) (slot : ℕ) (code : List (Op F))
    (before after : List F × VmDecision F) : Prop :=
  ∀ done rest : List (IndState F), done.length = slot →
    Machine.run price ⟨done ++ cells hist code ++ rest, before.1, before.2⟩ code
      = some ⟨done ++ cells (price :: hist) code ++ rest, after.1, after.2⟩

variable {hist : List F} {price : F} {slot : ℕ} {stack : List F} {dec : VmDecision F}

theorem Runs.append {c₁ c₂ : List (Op F)} {s₀ s₁ s₂ : List F × VmDecision F}
    (h₁ : Runs hist price slot c₁ s₀ s₁)
    (h₂ : Runs hist price (slot + (cells hist c₁).length) c₂ s₁ s₂) :
    Runs hist price slot (c₁ ++ c₂) s₀ s₂ := by
  intro done rest hdone
  have hrun₁ := h₁ done (cells hist c₂ ++ rest) hdone
  have hrun₂ := h₂ (done ++ cells (price :: hist) c₁) rest (by
    rw [List.length_append, hdone, length_cells (price :: hist) hist])
  rw [Machine.run, cells_append, cells_append, List.foldlM_append]
  simp only [List.append_assoc] at hrun₁ hrun₂ ⊢
  rw [Machine.run] at hrun₁ hrun₂
  rw [hrun₁]
  exact hrun₂

theorem runs_push {op : Op F} {v : F} (hcell : ∀ hist, op.cell hist = none)
    (hexec : ∀ m : Machine F, m.exec price op = some (m.push v))
    (hroom : stack.length < STACK_CAP) :
    Runs hist price slot [op] (stack, dec) (v :: stack, dec) := by
  intro done rest _
  simp [Machine.run, cells, hcell, hexec, Machine.push, hroom]

/-- An indicator is updated in its slot, and its value pushed. -/
theorem runs_indicator {op : Op F} {s s' : IndState F} {v : F}
    {update : IndState F → Option (IndState F × F)} (hcell : op.cell hist = some s)
    (hcell' : op.cell (price :: hist) = some s')
    (hexec : ∀ m : Machine F, m.exec price op = m.indicator slot update)
    (hupdate : update s = some (s', v)) (hroom : stack.length < STACK_CAP) :
    Runs hist price slot [op] (stack, dec) (v :: stack, dec) := by
  intro done rest hdone
  have hget : (done ++ s :: rest)[slot]? = some s := by
    rw [List.getElem?_append_right (Nat.le_of_eq hdone), hdone, Nat.sub_self]
    rfl
  have hset : (done ++ s :: rest).set slot s' = done ++ s' :: rest := by
    rw [List.set_append_right _ _ (Nat.le_of_eq hdone), hdone, Nat.sub_self]
    rfl
  simp [Machine.run, cells, hcell, hcell', hexec, Machine.indicator, hget, hset, hupdate,
    Machine.push, hroom]

theorem exec_binary (f : Binary) (m : Machine F) :
    m.exec price f.op = some (m.binary f.holds) := by
  cases f <;> rfl

theorem runs_binary (f : Binary) (a b : F) (hroom : stack.length < STACK_CAP) :
    Runs hist price slot [(f.op : Op F)] (b :: a :: stack, dec)
      (boolF64 (f.holds a b) :: stack, dec) := by
  intro done rest _
  have hop : ∀ hist : List F, cells hist [(f.op : Op F)] = [] := by
    intro hist
    cases f <;> rfl
  simp [Machine.run, hop, exec_binary, Machine.binary, Machine.pop, Machine.push, hroom]

omit [F64 F] in
theorem room_of_peak {op : Op F} {d : ℕ} (hop : op.depth d = d + 1)
    (h : peakDepth d [op] ≤ STACK_CAP) : d < STACK_CAP := by
  have hle := (max_le_iff.mp h).2
  rwa [Depth.peak, hop] at hle

/-- **The code of a tree pushes its value.** -/
theorem code_runs (e : Expr F) (hsized : ∀ op ∈ (e.code slot).1, op.Sized)
    (hpeak : peakDepth stack.length (e.code slot).1 ≤ STACK_CAP) :
    Runs hist price slot (e.code slot).1 (stack, dec) (e.eval (price :: hist) :: stack, dec) := by
  induction e generalizing slot stack with
  | price => exact runs_push (fun _ => rfl) (fun _ => rfl) (room_of_peak rfl hpeak)
  | const c => exact runs_push (fun _ => rfl) (fun _ => rfl) (room_of_peak rfl hpeak)
  | ema period =>
      exact runs_indicator rfl rfl (fun _ => rfl) (congrArg some (emaUpdate_cell period price hist))
        (room_of_peak rfl hpeak)
  | momentum lookback =>
      exact runs_indicator rfl rfl (fun _ => rfl) (momentumUpdate_cell lookback price hist)
        (room_of_peak rfl hpeak)
  | reversion window =>
      have hw : 1 ≤ window := hsized (Op.reversion slot window) List.mem_cons_self
      exact runs_indicator rfl rfl (fun _ => rfl) (reversionUpdate_cell hw price hist)
        (room_of_peak rfl hpeak)
  | binary f e₁ e₂ ih₁ ih₂ =>
      simp only [Expr.code] at hsized hpeak ⊢
      obtain ⟨hpeak₁₂, hpeakf⟩ := Depth.peak_le_of_append Op.depth hpeak
      obtain ⟨hpeak₁, hpeak₂⟩ := Depth.peak_le_of_append Op.depth hpeak₁₂
      rw [code_depth] at hpeak₂
      rw [List.foldl_append, code_depth, code_depth] at hpeakf
      have hroom : stack.length < STACK_CAP := by
        have hstart := Depth.start_le_peak Op.depth (stack.length + 1 + 1) [(f.op : Op F)]
        omega
      -- the first operand, the second on top of it, then the operator
      refine Runs.append (Runs.append (ih₁ (fun op hop => ?_) hpeak₁) ?_)
        (runs_binary f (e₁.eval (price :: hist)) (e₂.eval (price :: hist)) hroom)
      · exact hsized op (List.mem_append_left _ (List.mem_append_left _ hop))
      · rw [← code_slot hist e₁ slot]
        exact ih₂ (fun op hop => hsized op (List.mem_append_left _ (List.mem_append_right _ hop)))
          hpeak₂

end HotpathIpc
