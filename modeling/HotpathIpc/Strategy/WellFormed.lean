import HotpathIpc.Library.Lists
import HotpathIpc.Library.StackEffect
import HotpathIpc.Strategy.Faithful
import HotpathIpc.Strategy.Steps

/-!
# Emitted code is well formed

The machine's stack is bounded, and a pop from an empty stack is silent.  `Unbounded` is its stack
without a bound, on which such a pop is an error; what the indicators say is given, so nothing here
rests on their states or their buffers.

* **`node_effect`** — the code of a node puts one value on any stack, and does not look below it.
* `signals_effect`, `terminal_ends` — the stack is empty after each terminal instruction.
* `state_of_slot`, `slot_of_index` — the slots the compiler counts are the places of the states that
  the machine makes of the program.
* **`run_unbounded`** — as long as pushes fit, the machine's stack is this one.
-/

namespace HotpathIpc

open Lists (getElem?_filterMap_of_split map_filter_isSome split_of_not_mem)
open StackEffect (Effect)

variable {F : Type} [F64 F]

/-! ## The stack without a bound -/

namespace Unbounded

/-- Pop `b`, pop `a`, push `f a b`. -/
def binary (f : F → F → Bool) : List F → Option (List F)
  | b :: a :: rest => some (boolF64 (f a b) :: rest)
  | _ => none

/-- One instruction, for a price and what the indicators say, by slot.  There is no result if a
value is popped from an empty stack. -/
def exec (price : F) (reading : ℕ → F) (stack : List F) : Op F → Option (List F)
  | Op.pushPrice => some (price :: stack)
  | Op.pushConst c => some (c :: stack)
  | Op.ema slot _ => some (reading slot :: stack)
  | Op.momentum slot _ => some (reading slot :: stack)
  | Op.reversion slot _ => some (reading slot :: stack)
  | Op.gt => binary (fun a b => F64.lt b a) stack
  | Op.lt => binary (fun a b => F64.lt a b) stack
  | Op.ge => binary (fun a b => F64.le b a) stack
  | Op.le => binary (fun a b => F64.le a b) stack
  | Op.eq => binary (fun a b => F64.lt (F64.abs (a - b)) 1e-10) stack
  | Op.and => binary (fun a b => F64.lt 0.0 a && F64.lt 0.0 b) stack
  | Op.or => binary (fun a b => F64.lt 0.0 a || F64.lt 0.0 b) stack
  | Op.not =>
      match stack with
      | [] => none
      | a :: rest => some (boolF64 (F64.le a 0.0) :: rest)
  | Op.buy =>
      match stack with
      | [] => none
      | _ :: rest => some rest
  | Op.sell =>
      match stack with
      | [] => none
      | _ :: rest => some rest

def run (price : F) (reading : ℕ → F) (stack : List F) (code : List (Op F)) : Option (List F) :=
  code.foldlM (exec price reading) stack

end Unbounded

/-! ## The effect of code -/

section Effects

variable (price : F) (reading : ℕ → F)

theorem binary_effect (f : Binary) (a b : F) :
    Effect (Unbounded.exec price reading) [(f.op : Op F)] [b, a] [boolF64 (f.holds a b)] := by
  refine Effect.single fun below => ?_
  cases f <;> rfl

theorem terminal_effect (t : Terminal) (v : F) :
    Effect (Unbounded.exec price reading) [(t.op : Op F)] [v] [] := by
  refine Effect.single fun below => ?_
  cases t <;> rfl

/-- The code of a tree leaves one value. -/
theorem tree_effect (e : Expr F) (slot : ℕ) :
    ∃ v, Effect (Unbounded.exec price reading) (e.code slot).1 [] [v] := by
  induction e generalizing slot with
  | binary f e₁ e₂ ih₁ ih₂ =>
      obtain ⟨a, ha⟩ := ih₁ slot
      obtain ⟨b, hb⟩ := ih₂ (e₁.code slot).2
      -- the second operand is computed on top of the first
      have hop := binary_effect price reading f a b
      exact ⟨boolF64 (f.holds a b), (ha.append (hb.frame [a])).append hop⟩
  | _ => exact ⟨_, Effect.single fun _ => rfl⟩

/-- **The code of a node leaves one value** on any stack, and finds what it pops above it. -/
theorem node_effect {spec : GraphSpec F} {bound : ℕ} {onStack : List String} {id : String}
    {slot : ℕ} {c : Code F} (h : emitNode spec bound onStack id slot = .ok c) :
    ∃ v, Effect (Unbounded.exec price reading) c.1 [] [v] := by
  rw [emitNode_eq] at h
  obtain ⟨e, -, rfl⟩ := Fallible.map_eq_ok h
  exact tree_effect price reading e slot

/-- Signals leave the stack as it was. -/
theorem signals_effect : ∀ (signals : List (Terminal × Expr F)) (slot : ℕ),
    Effect (Unbounded.exec price reading) (codeSignals signals slot).1 [] []
  | [], _ => Effect.nil []
  | s :: signals, slot => by
      obtain ⟨v, hv⟩ := tree_effect price reading s.2 slot
      have hrest := signals_effect signals (s.2.code slot).2
      exact hv.append ((terminal_effect price reading s.1 v).append hrest)

end Effects

/-! ## Terminal instructions -/

omit [F64 F] in
/-- Inside the code of a tree there is none: every instruction pushes. -/
theorem tree_pushes (e : Expr F) (slot : ℕ) : ∀ op ∈ (e.code slot).1, op.pushes = true := by
  induction e generalizing slot with
  | binary f e₁ e₂ ih₁ ih₂ =>
      intro op hop
      rcases List.mem_append.mp hop with hop | hop
      · rcases List.mem_append.mp hop with hop | hop
        · exact ih₁ slot op hop
        · exact ih₂ (e₁.code slot).2 op hop
      · rw [List.mem_singleton.mp hop]
        cases f <;> rfl
  | _ =>
      intro op hop
      rw [List.mem_singleton.mp hop]
      rfl

omit [F64 F] in
/-- **A terminal instruction ends the code of a signal**: up to it, the code is that of the first
few signals. -/
theorem terminal_ends : ∀ {signals : List (Terminal × Expr F)} {slot : ℕ} {pre post : List (Op F)}
    {op : Op F}, (codeSignals signals slot).1 = pre ++ op :: post → op.pushes = false →
      ∃ done, pre ++ [op] = (codeSignals done slot).1
  | [], _, pre, _, _, h, _ => absurd h.symm (List.append_ne_nil_of_right_ne_nil pre (by simp))
  | s :: signals, slot, pre, post, op, h, hop => by
      have hnot : op ∉ (s.2.code slot).1 := by
        intro hmem
        rw [tree_pushes s.2 slot op hmem] at hop
        exact absurd hop (by decide)
      rcases split_of_not_mem h hnot with ⟨hpre, hop'⟩ | ⟨mid, hpre, hrest⟩
      · exact ⟨[s], by rw [hpre, hop']; rfl⟩
      · obtain ⟨done, hdone⟩ := terminal_ends hrest hop
        refine ⟨s :: done, ?_⟩
        rw [hpre, List.append_assoc, List.cons_append, hdone]
        rfl

/-! ## Slots and states -/

/-- The instructions with a slot are those that get a state. -/
theorem slot_isSome (op : Op F) : op.slot.isSome = (IndState.forOp op).isSome := by
  cases op <;> rfl

omit [F64 F] in
theorem Numbered.slot_eq {slot k s : ℕ} {code : List (Op F)} (h : Numbered slot code)
    (hs : (code.filterMap Op.slot)[k]? = some s) : s = slot + k := by
  rw [h] at hs
  obtain ⟨_, hval⟩ := List.getElem?_eq_some_iff.mp hs
  rw [← hval, List.getElem_range', Nat.one_mul]

section Slots

variable {prog : List (Op F)} (hnum : Numbered 0 prog)

include hnum

omit [F64 F] in
/-- A slot is the number of slots before it. -/
theorem slot_eq_length {pre post : List (Op F)} {op : Op F} {s : ℕ}
    (hprog : prog = pre ++ op :: post) (hs : op.slot = some s) :
    s = (pre.filterMap Op.slot).length := by
  have hget : (prog.filterMap Op.slot)[(pre.filterMap Op.slot).length]? = some s := by
    rw [hprog]
    exact getElem?_filterMap_of_split (fun _ => rfl) hs
  rw [hnum.slot_eq hget, Nat.zero_add]

/-- **The state of an instruction is in its slot.** -/
theorem state_of_slot {op : Op F} (hop : op ∈ prog) {s : ℕ} (hs : op.slot = some s) :
    ∃ state, IndState.forOp op = some state ∧ (Vm.new prog).state[s]? = some state := by
  obtain ⟨pre, post, hprog⟩ := List.append_of_mem hop
  have hsome : (IndState.forOp op).isSome := by rw [← slot_isSome, hs]; rfl
  obtain ⟨state, hstate⟩ := Option.isSome_iff_exists.mp hsome
  refine ⟨state, hstate, ?_⟩
  rw [slot_eq_length hnum hprog hs, Vm.new, hprog]
  exact getElem?_filterMap_of_split slot_isSome hstate

/-- **The instructions with a state have their slots in order.** -/
theorem slot_of_index {k : ℕ} {op : Op F}
    (hop : (prog.filter fun op => (IndState.forOp op).isSome)[k]? = some op) :
    op.slot = some k := by
  have hslots : (prog.filter fun op => (IndState.forOp op).isSome).map Op.slot
      = (prog.filterMap Op.slot).map some := by
    rw [← map_filter_isSome, ← funext slot_isSome]
  have hget : ((prog.filterMap Op.slot).map some)[k]? = some op.slot := by
    rw [← hslots, List.getElem?_map, hop]
    rfl
  rw [List.getElem?_map] at hget
  obtain ⟨s, hs, hval⟩ := Option.map_eq_some_iff.mp hget
  rw [← hval, hnum.slot_eq hs, Nat.zero_add]

omit [F64 F] in
theorem slots_distinct :
    prog.Pairwise fun op op' => ∀ s, op.slot = some s → op'.slot ≠ some s := by
  have hnodup : (prog.filterMap Op.slot).Nodup := by
    rw [hnum]
    exact List.nodup_range'
  refine (List.pairwise_filterMap.mp hnodup).imp fun hne s hs hs' => ?_
  exact hne s hs s hs' rfl

end Slots

/-! ## The machine's own stack -/

section Bounded

variable {price : F}

omit [F64 F] in
theorem push_stack {m : Machine F} (hroom : m.stack.length < STACK_CAP) (v : F) :
    (m.push v).stack = v :: m.stack := by
  rw [Machine.push, if_pos hroom]

theorem binary_unbounded {m : Machine F} (f : F → F → Bool) (hpops : 2 ≤ m.stack.length)
    (hroom : m.stack.length - 2 < STACK_CAP) :
    Unbounded.binary f m.stack = some (m.binary f).stack := by
  obtain ⟨state, stack, decision⟩ := m
  match stack, hpops with
  | b :: a :: rest, _ =>
      exact congrArg some (push_stack (m := ⟨state, rest, decision⟩) hroom _).symm

/-- An instruction finds what it pops. -/
theorem pops_le_of_exec {reading : ℕ → F} {stack stack' : List F} {op : Op F}
    (h : Unbounded.exec price reading stack op = some stack') : op.pops ≤ stack.length := by
  cases op with
  | pushPrice | pushConst | ema | momentum | reversion => exact Nat.zero_le _
  | not | buy | sell =>
      match stack, h with
      | _ :: _, _ => exact Nat.succ_le_succ (Nat.zero_le _)
  | _ =>
      match stack, h with
      | _ :: _ :: _, _ => exact Nat.succ_le_succ (Nat.succ_le_succ (Nat.zero_le _))

/-- **An instruction that has its operands and room** does to the stack what it does without a
bound, the indicator saying what it says. -/
theorem exec_unbounded {m m' : Machine F} {op : Op F} (h : m.exec price op = some m')
    (hpops : op.pops ≤ m.stack.length) (hroom : ¬ m.Discards op) :
    ∃ v, ∀ reading : ℕ → F, (∀ s, op.slot = some s → reading s = v) →
      Unbounded.exec price reading m.stack op = some m'.stack := by
  have hindicator : ∀ {slot : ℕ} {update : IndState F → Option (IndState F × F)},
      m.stack.length < STACK_CAP → m.indicator slot update = some m' →
        ∃ v, v :: m.stack = m'.stack := by
    intro s₀ update hlen hsome
    obtain ⟨s, -, hsome⟩ := Option.bind_eq_some_iff.mp hsome
    obtain ⟨r, -, hsome⟩ := Option.bind_eq_some_iff.mp hsome
    refine ⟨r.2, ?_⟩
    rw [← Option.some.inj hsome]
    exact (push_stack (m := ⟨m.state.set s₀ r.1, m.stack, m.decision⟩) hlen _).symm
  have hlen : op.pushes = true → m.stack.length - op.pops < STACK_CAP := fun hpush =>
    Nat.lt_of_not_le fun hle => hroom ⟨hpush, hle⟩
  cases op with
  | pushPrice | pushConst =>
      refine ⟨price, fun _ _ => ?_⟩
      rw [← Option.some.inj h, push_stack (hlen rfl)]
      rfl
  | ema slot _ | momentum slot _ | reversion slot _ =>
      obtain ⟨v, hv⟩ := hindicator (hlen rfl) h
      refine ⟨v, fun reading hreading => ?_⟩
      rw [← hv, ← hreading slot rfl]
      rfl
  | not =>
      obtain ⟨state, stack, decision⟩ := m
      match stack, hpops with
      | a :: rest, _ =>
          refine ⟨price, fun _ _ => ?_⟩
          rw [← Option.some.inj h]
          exact congrArg some (push_stack (m := ⟨state, rest, decision⟩) (hlen rfl) _).symm
  | buy | sell =>
      obtain ⟨state, stack, decision⟩ := m
      match stack, hpops with
      | a :: rest, _ =>
          refine ⟨price, fun _ _ => ?_⟩
          rw [← Option.some.inj h]
          split <;> rfl
  | _ =>
      refine ⟨price, fun _ _ => ?_⟩
      rw [← Option.some.inj h]
      exact binary_unbounded _ hpops (hlen rfl)

omit [F64 F] in
/-- The slots of numbered code start where they are said to. -/
theorem Numbered.le_slot {slot s : ℕ} {code : List (Op F)} {op : Op F} (h : Numbered slot code)
    (hop : op ∈ code) (hs : op.slot = some s) : slot ≤ s := by
  have hmem : s ∈ code.filterMap Op.slot := List.mem_filterMap.mpr ⟨op, hop, hs⟩
  rw [h] at hmem
  exact (List.mem_range'_1.mp hmem).1

/-- What other slots say has no part in a run. -/
theorem run_congr {reading reading' : ℕ → F} : ∀ {code : List (Op F)} {stack : List F},
    (∀ op ∈ code, ∀ s, op.slot = some s → reading s = reading' s) →
      Unbounded.run price reading stack code = Unbounded.run price reading' stack code
  | [], _, _ => rfl
  | op :: code, stack, h => by
      have hop : Unbounded.exec price reading stack op
          = Unbounded.exec price reading' stack op := by
        have hsame := h op List.mem_cons_self
        cases op with
        | ema slot _ | momentum slot _ | reversion slot _ =>
            exact congrArg (fun v => some (v :: stack)) (hsame slot rfl)
        | _ => rfl
      rw [Unbounded.run, Unbounded.run, List.foldlM_cons, List.foldlM_cons, hop]
      refine congrArg _ (funext fun stack' => ?_)
      exact run_congr fun op' hop' => h op' (List.mem_cons_of_mem _ hop')

/-- **As long as pushes fit, the machine's stack is the one without a bound**, for code that finds
what it pops whatever the indicators say. -/
theorem run_unbounded : ∀ {code : List (Op F)} {slot : ℕ} {m m' : Machine F}, Numbered slot code →
    (∀ reading, Unbounded.run price reading m.stack code ≠ none) → m.Fits price code →
      m.run price code = some m' →
        ∃ reading, Unbounded.run price reading m.stack code = some m'.stack
  | [], _, m, m', _, _, _, hrun => ⟨fun _ => price, by
      rw [← Option.some.inj hrun]
      rfl⟩
  | op :: code, slot, m, m', hnum, hpops, hfits, hrun => by
      rw [Machine.run, List.foldlM_cons] at hrun
      obtain ⟨m₁, hexec, hrest⟩ := Option.bind_eq_some_iff.mp hrun
      obtain ⟨hroom, -, hfits₁⟩ := hfits m₁ hexec
      obtain ⟨hslot, hnum₁⟩ := hnum.cons
      have hcons : ∀ reading, Unbounded.run price reading m.stack (op :: code)
          = (Unbounded.exec price reading m.stack op).bind
            fun stack => Unbounded.run price reading stack code := fun _ => List.foldlM_cons
      have hops : op.pops ≤ m.stack.length := by
        have hsome := hpops fun _ => price
        rw [hcons] at hsome
        cases hstack : Unbounded.exec price (fun _ => price) m.stack op with
        | none =>
            rw [hstack] at hsome
            exact absurd rfl hsome
        | some stack => exact pops_le_of_exec hstack
      obtain ⟨v, hv⟩ := exec_unbounded hexec hops hroom
      -- the value is what the first slot says, and no later instruction reads that slot
      have hfirst : ∀ reading : ℕ → F, ∃ reading', Unbounded.run price reading' m.stack (op :: code)
          = Unbounded.run price reading m₁.stack code := by
        intro reading
        refine ⟨fun s => if op.slot = some s then v else reading s, ?_⟩
        rw [hcons, hv _ fun s hs => if_pos hs, Option.bind_some]
        refine run_congr fun op' hop' s hs => if_neg fun hsame => ?_
        have hle := hnum₁.le_slot hop' hs
        rw [hsame, hslot s hsame, Option.toList_some, List.length_singleton] at hle
        omega
      have hpops₁ : ∀ reading, Unbounded.run price reading m₁.stack code ≠ none := by
        intro reading hnone
        obtain ⟨reading', hreading'⟩ := hfirst reading
        exact hpops reading' (hreading'.trans hnone)
      obtain ⟨reading, hreading⟩ := run_unbounded hnum₁ hpops₁ hfits₁ hrest
      obtain ⟨reading', hreading'⟩ := hfirst reading
      exact ⟨reading', hreading'.trans hreading⟩

end Bounded

/-! ## Programs -/

/-- **Emitted code is well formed.**  The code of a node puts one value on any stack and finds what
it pops above it.  On a stack without a bound a program runs without popping an empty stack, and the
stack is empty behind every `Buy` and `Sell` and at the end.  The instructions with a state have the
slots from 0 on, in order; a new machine has in the slot of each the state that is made for it; and
no two have the same slot. -/
theorem compile_well_formed {spec : GraphSpec F} {prog : List (Op F)}
    (h : compile spec = .ok prog) :
    (∀ bound onStack id slot c, emitNode spec bound onStack id slot = .ok c → ∀ price reading,
      ∃ v, ∀ below, Unbounded.run price reading below c.1 = some (v :: below)) ∧
    (∀ price reading, Unbounded.run price reading [] prog = some []) ∧
    (∀ pre op post, prog = pre ++ op :: post → op = Op.buy ∨ op = Op.sell → ∀ price reading,
      Unbounded.run price reading [] (pre ++ [op]) = some []) ∧
    (∀ (k : ℕ) (op : Op F),
      (prog.filter fun op => (IndState.forOp op).isSome)[k]? = some op → op.slot = some k) ∧
    (∀ op ∈ prog, ∀ s, op.slot = some s →
      ∃ state, IndState.forOp op = some state ∧ (Vm.new prog).state[s]? = some state) ∧
    prog.Pairwise fun op op' => ∀ s, op.slot = some s → op'.slot ≠ some s := by
  obtain ⟨-, signals, -, rfl⟩ := compile_eq h
  have hnum := numbered_signals signals 0
  refine ⟨fun bound onStack id slot c hc price reading => node_effect price reading hc,
    fun price reading => (signals_effect price reading signals 0).alone,
    fun pre op post hprog hop price reading => ?_, fun k op => slot_of_index hnum,
    fun op hop s => state_of_slot hnum hop, slots_distinct hnum⟩
  have hterminal : op.pushes = false := by rcases hop with rfl | rfl <;> rfl
  obtain ⟨done, hdone⟩ := terminal_ends hprog hterminal
  rw [hdone]
  exact (signals_effect price reading done 0).alone

/-- A node that two conditions read gets two slots, each with a state of its own. -/
theorem compile_well_formed_kept : letI : F64 ℚ := F64.exact fun x => x
    ∃ state, IndState.forOp (Op.ema 1 3 : Op ℚ) = some state ∧
      (Vm.new [(Op.ema 0 3 : Op ℚ), Op.pushConst 100, Op.gt, Op.ema 1 3, Op.pushConst 50, Op.lt,
        Op.or, Op.buy]).state[1]? = some state := by
  let _ : F64 ℚ := F64.exact fun x => x
  exact (compile_well_formed kept_compiles).2.2.2.2.1 (Op.ema 1 3) (by simp) 1 rfl

/-- Within its capacity, the machine's own stack is empty after a run too. -/
theorem run_leaves_empty {spec : GraphSpec F} {prog : List (Op F)} (h : compile spec = .ok prog)
    {price : F} {m m' : Machine F} (hstack : m.stack = []) (hfits : m.Fits price prog)
    (hrun : m.run price prog = some m') : m'.stack = [] := by
  obtain ⟨-, signals, -, rfl⟩ := compile_eq h
  have hempty := fun reading => (signals_effect price reading signals 0).alone
  obtain ⟨reading, hreading⟩ := run_unbounded (numbered_signals signals 0)
    (fun reading => by
      rw [hstack, Unbounded.run, hempty reading]
      exact Option.some_ne_none _) hfits hrun
  rw [hstack, Unbounded.run, hempty reading] at hreading
  exact (Option.some.inj hreading).symm

end HotpathIpc
