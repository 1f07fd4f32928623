import Mathlib.Algebra.BigOperators.Group.List.Basic
import Mathlib.Data.List.Induction

/-!
# Runs of a deterministic machine

A machine is a function `step : σ → α → σ × β`: from a state and an input to the next state and
an answer.  This file is about its runs on lists of inputs.

* `trace` records a run step by step, each `Entry` with the state before, the input, the answer
  and the state after; `exec` is the state at the end and `outs` the answers alone.
* **`invariant`** and **`history_invariant`** — what a step preserves, a run preserves.  A guard
  on the steps is stated over the trace, so "every input was admissible when it was given" is
  one `∀ e ∈ trace …`; `preserved` is the case without a guard.
* **`conserve`** — a potential that every step balances is balanced over the run.
* **`fifo`** — what leaves a queue is what entered it, in order.
* **`messages`** — what relates the messages sent so far to the state, for a machine that sends
  some.
* **`macro_steps`** — a machine whose steps are runs of another one.
* **`translation`**, **`simulation`** — two machines whose steps stay related make related runs,
  on inputs of their own or on the same ones.
-/

namespace Mealy

variable {σ τ α α' β γ δ : Type*}

/-- One step of a run. -/
structure Entry (σ α β : Type*) where
  pre : σ
  input : α
  out : β
  post : σ

/-- The steps a machine takes on a list of inputs. -/
def trace (step : σ → α → σ × β) : σ → List α → List (Entry σ α β)
  | _, [] => []
  | s, a :: as => ⟨s, a, (step s a).2, (step s a).1⟩ :: trace step (step s a).1 as

/-- The state a run ends in. -/
def exec (step : σ → α → σ × β) : σ → List α → σ
  | s, [] => s
  | s, a :: as => exec step (step s a).1 as

/-- The answers of a run. -/
def outs (step : σ → α → σ × β) (s : σ) (as : List α) : List β :=
  (trace step s as).map Entry.out

section Basic

variable (step : σ → α → σ × β)

@[simp] theorem trace_nil (s : σ) : trace step s [] = [] := rfl

@[simp] theorem trace_cons (s : σ) (a : α) (as : List α) :
    trace step s (a :: as)
      = ⟨s, a, (step s a).2, (step s a).1⟩ :: trace step (step s a).1 as := rfl

@[simp] theorem exec_nil (s : σ) : exec step s [] = s := rfl

@[simp] theorem exec_cons (s : σ) (a : α) (as : List α) :
    exec step s (a :: as) = exec step (step s a).1 as := rfl

@[simp] theorem outs_nil (s : σ) : outs step s [] = [] := rfl

@[simp] theorem outs_cons (s : σ) (a : α) (as : List α) :
    outs step s (a :: as) = (step s a).2 :: outs step (step s a).1 as := rfl

theorem exec_append : ∀ (s : σ) (as bs : List α),
    exec step s (as ++ bs) = exec step (exec step s as) bs
  | _, [], _ => rfl
  | s, a :: as, bs => exec_append (step s a).1 as bs

theorem trace_append : ∀ (s : σ) (as bs : List α),
    trace step s (as ++ bs) = trace step s as ++ trace step (exec step s as) bs
  | _, [], _ => rfl
  | s, a :: as, bs => congrArg _ (trace_append (step s a).1 as bs)

theorem map_input_trace : ∀ (s : σ) (as : List α), (trace step s as).map Entry.input = as
  | _, [] => rfl
  | s, a :: as => congrArg _ (map_input_trace (step s a).1 as)

end Basic

variable {step : σ → α → σ × β}

/-- Every entry of a trace is a step of the machine. -/
theorem step_of_mem_trace {e : Entry σ α β} : ∀ {s : σ} {as : List α},
    e ∈ trace step s as → step e.pre e.input = (e.post, e.out)
  | _, [], h => absurd h List.not_mem_nil
  | _, _ :: _, h => by
      rcases List.mem_cons.mp h with rfl | h
      · rfl
      · exact step_of_mem_trace h

/-- **A trace cut at one entry** is the trace of the inputs before it, the entry, and the trace
of the inputs after it from the state it left. -/
theorem trace_split {e : Entry σ α β} {h₁ h₂ : List (Entry σ α β)} :
    ∀ {s : σ} {as : List α}, trace step s as = h₁ ++ e :: h₂ →
      ∃ as₁ as₂, as = as₁ ++ e.input :: as₂ ∧ h₁ = trace step s as₁ ∧
        e.pre = exec step s as₁ ∧ h₂ = trace step e.post as₂ ∧
        step e.pre e.input = (e.post, e.out) := by
  induction h₁ with
  | nil =>
      intro s as h
      cases as with
      | nil => exact absurd h (by simp)
      | cons a as =>
          obtain ⟨rfl, rfl⟩ := List.cons.inj h
          exact ⟨[], as, rfl, rfl, rfl, rfl, rfl⟩
  | cons e₀ h₁ ih =>
      intro s as h
      cases as with
      | nil => exact absurd h (by simp)
      | cons a as =>
          obtain ⟨rfl, htail⟩ := List.cons.inj h
          obtain ⟨as₁, as₂, rfl, rfl, hpre, hpost, hs⟩ := ih htail
          exact ⟨a :: as₁, as₂, rfl, rfl, hpre, hpost, hs⟩

/-- **Invariants.**  A property that every guarded step preserves holds before and after each
step of a guarded run, and at its end. -/
theorem invariant {I : σ → Prop} {g : σ → α → Prop}
    (hstep : ∀ s a, I s → g s a → I (step s a).1) :
    ∀ {s : σ} {as : List α}, I s → (∀ e ∈ trace step s as, g e.pre e.input) →
      I (exec step s as) ∧ ∀ e ∈ trace step s as, I e.pre ∧ I e.post
  | s, [], h, _ => ⟨h, fun _ he => absurd he List.not_mem_nil⟩
  | s, a :: as, h, hg => by
      have hs : I (step s a).1 := hstep s a h (hg _ List.mem_cons_self)
      obtain ⟨hend, hall⟩ := invariant hstep hs fun e he => hg e (List.mem_cons_of_mem _ he)
      refine ⟨hend, fun e he => ?_⟩
      rcases List.mem_cons.mp he with rfl | he
      · exact ⟨h, hs⟩
      · exact hall e he

/-- What every step preserves holds all along, whatever the inputs. -/
theorem preserved {I : σ → Prop} (hstep : ∀ s a, I s → I (step s a).1) {s : σ} (h : I s)
    (as : List α) : I (exec step s as) ∧ ∀ e ∈ trace step s as, I e.pre ∧ I e.post :=
  invariant (g := fun _ _ => True) (fun s a hs _ => hstep s a hs) h fun _ _ => trivial

/-- **Invariants that speak of the past.**  `J h s` relates the entries so far to the state they
led to; a step may use its whole history, and so may its guard. -/
theorem history_invariant {J : List (Entry σ α β) → σ → Prop}
    {g : List (Entry σ α β) → σ → α → Prop}
    (hstep : ∀ h s a, J h s → g h s a →
      J (h ++ [⟨s, a, (step s a).2, (step s a).1⟩]) (step s a).1) :
    ∀ {s : σ} (as : List α), J [] s →
      (∀ h₁ e h₂, trace step s as = h₁ ++ e :: h₂ → g h₁ e.pre e.input) →
      J (trace step s as) (exec step s as) := by
  intro s as h0
  induction as using List.reverseRecOn with
  | nil => intro _; exact h0
  | append_singleton as a ih =>
      intro hg
      rw [trace_append, exec_append]
      refine hstep _ _ _ (ih fun h₁ e h₂ he => ?_) ?_
      · refine hg h₁ e (h₂ ++ trace step (exec step s as) [a]) ?_
        rw [trace_append, he, List.append_assoc, List.cons_append]
      · exact hg _ ⟨_, a, _, _⟩ [] (by rw [trace_append]; rfl)

/-- **Conservation.**  If every step balances a potential `Φ` against what it `gains` and
`pays`, so does the whole run. -/
theorem conserve {M : Type*} [AddCommMonoid M] (Φ : σ → M) (gains pays : Entry σ α β → M) :
    ∀ {s : σ} {as : List α},
      (∀ e ∈ trace step s as, Φ e.post + pays e = Φ e.pre + gains e) →
      Φ (exec step s as) + ((trace step s as).map pays).sum
        = Φ s + ((trace step s as).map gains).sum
  | s, [], _ => by simp
  | s, a :: as, h => by
      have ih : Φ (exec step (step s a).1 as) + ((trace step (step s a).1 as).map pays).sum
          = Φ (step s a).1 + ((trace step (step s a).1 as).map gains).sum :=
        conserve Φ gains pays fun e he => h e (List.mem_cons_of_mem _ he)
      have h0 := h _ List.mem_cons_self
      dsimp only at h0
      rw [exec_cons, trace_cons, List.map_cons, List.map_cons, List.sum_cons, List.sum_cons,
        add_left_comm, ih, ← add_assoc, add_comm (pays _), h0, add_assoc]

/-- **Queues.**  If every step takes what it `pays` off the front of a queue and puts what it
`gains` at its back, then what the run took off, followed by what is left, is what was there
followed by what the run put in. -/
theorem fifo (q : σ → List γ) (gains pays : Entry σ α β → List γ) : ∀ {s : σ} {as : List α},
    (∀ e ∈ trace step s as, pays e ++ q e.post = q e.pre ++ gains e) →
      (trace step s as).flatMap pays ++ q (exec step s as)
        = q s ++ (trace step s as).flatMap gains
  | s, [], _ => (List.append_nil (q s)).symm
  | s, a :: as, h => by
      have ih : (trace step (step s a).1 as).flatMap pays ++ q (exec step (step s a).1 as)
          = q (step s a).1 ++ (trace step (step s a).1 as).flatMap gains :=
        fifo q gains pays fun e he => h e (List.mem_cons_of_mem _ he)
      have h0 := h _ List.mem_cons_self
      dsimp only at h0
      rw [exec_cons, trace_cons, List.flatMap_cons, List.flatMap_cons, List.append_assoc, ih,
        ← List.append_assoc, h0, List.append_assoc]

/-- The messages of a run and of one more step, if the answers are messages that may be sent. -/
theorem filterMap_outs_concat {step : σ → α → σ × Option β} (s : σ) (as : List α) (a : α) :
    (outs step s (as ++ [a])).filterMap id
      = (outs step s as).filterMap id ++ (step (exec step s as) a).2.toList := by
  rw [outs, trace_append, List.map_append, List.filterMap_append]
  refine congrArg _ ?_
  rw [trace_cons, trace_nil, List.map_singleton]
  cases (step (exec step s as) a).2 with
  | none => rfl
  | some m => rfl

/-- **Messages.**  `J ms s` relates the messages sent so far to the state they led to. -/
theorem messages {step : σ → α → σ × Option β} {J : List β → σ → Prop}
    (hstep : ∀ ms s a, J ms s → J (ms ++ (step s a).2.toList) (step s a).1) {s : σ} (h : J [] s)
    (as : List α) : J ((outs step s as).filterMap id) (exec step s as) := by
  induction as using List.reverseRecOn with
  | nil => exact h
  | append_singleton as a ih =>
      rw [filterMap_outs_concat, exec_append]
      exact hstep _ _ a ih

/-- **Macro steps.**  If each step of a machine is a run of another one on some inputs, its runs
are runs of the other one on all those inputs. -/
theorem macro_steps {step' : τ → γ → τ × δ} (π : σ → τ) (cs : σ → α → List γ)
    (h : ∀ s a, π (step s a).1 = exec step' (π s) (cs s a)) : ∀ (s : σ) (as : List α),
      exec step' (π s) ((trace step s as).flatMap fun e => cs e.pre e.input)
          = π (exec step s as) ∧
        trace step' (π s) ((trace step s as).flatMap fun e => cs e.pre e.input)
          = (trace step s as).flatMap fun e => trace step' (π e.pre) (cs e.pre e.input)
  | _, [] => ⟨rfl, rfl⟩
  | s, a :: as => by
      obtain ⟨hexec, htrace⟩ := macro_steps π cs h (step s a).1 as
      rw [h s a] at hexec htrace
      rw [trace_cons, List.flatMap_cons, List.flatMap_cons, exec_append, trace_append]
      exact ⟨hexec, congrArg _ htrace⟩

/-- **Translation.**  If the second machine, on translated inputs, keeps up with every guarded step
of the first one, the runs end in related states and their entries are related one by one. -/
theorem translation {step' : τ → α' → τ × γ} (f : α → α') {R : σ → τ → Prop}
    {Q : Entry σ α β → Entry τ α' γ → Prop} {g : σ → α → Prop}
    (hstep : ∀ s t a, R s t → g s a → R (step s a).1 (step' t (f a)).1 ∧
      Q ⟨s, a, (step s a).2, (step s a).1⟩
        ⟨t, f a, (step' t (f a)).2, (step' t (f a)).1⟩) :
    ∀ {s : σ} {t : τ} {as : List α}, R s t → (∀ e ∈ trace step s as, g e.pre e.input) →
      R (exec step s as) (exec step' t (as.map f)) ∧
        List.Forall₂ Q (trace step s as) (trace step' t (as.map f))
  | _, _, [], h, _ => ⟨h, List.Forall₂.nil⟩
  | s, t, a :: as, h, hg => by
      obtain ⟨hR, hQ⟩ := hstep s t a h (hg _ List.mem_cons_self)
      obtain ⟨hend, hall⟩ := translation f hstep hR fun e he => hg e (List.mem_cons_of_mem _ he)
      exact ⟨hend, List.Forall₂.cons hQ hall⟩

/-- **Simulation.**  Two machines on the same inputs whose steps keep the states related by `R`
and the answers by `Q`, as long as the first one's steps are guarded, give related answers. -/
theorem simulation {step' : τ → α → τ × γ} {R : σ → τ → Prop} {Q : β → γ → Prop}
    {g : σ → α → Prop}
    (hstep : ∀ s t a, R s t → g s a →
      R (step s a).1 (step' t a).1 ∧ Q (step s a).2 (step' t a).2)
    {s : σ} {t : τ} {as : List α} (h : R s t) (hg : ∀ e ∈ trace step s as, g e.pre e.input) :
    R (exec step s as) (exec step' t as) ∧
      List.Forall₂ Q (outs step s as) (outs step' t as) := by
  have hrun := translation (Q := fun e e' => Q e.out e'.out) id hstep h hg
  rw [List.map_id] at hrun
  exact ⟨hrun.1, List.forall₂_map_left_iff.mpr (List.forall₂_map_right_iff.mpr hrun.2)⟩

/-- **Refinement.**  If every step of a machine, seen through `π`, is a step of another one on some
input, then every run is a run of that one on some inputs. -/
theorem refinement {step' : τ → α' → τ × β} (π : σ → τ) {Q : σ → α → α' → Prop}
    (hstep : ∀ s a, ∃ a', Q s a a' ∧ step' (π s) a' = (π (step s a).1, (step s a).2)) :
    ∀ (s : σ) (as : List α), ∃ as' : List α',
      exec step' (π s) as' = π (exec step s as) ∧
        List.Forall₂ (fun e e' => Q e.pre e.input e'.input ∧ e'.pre = π e.pre ∧ e'.out = e.out ∧
          e'.post = π e.post) (trace step s as) (trace step' (π s) as')
  | _, [] => ⟨[], rfl, List.Forall₂.nil⟩
  | s, a :: as => by
      obtain ⟨a', hQ, hs⟩ := hstep s a
      obtain ⟨as', hend, hall⟩ := refinement π hstep (step s a).1 as
      have hpost : (step' (π s) a').1 = π (step s a).1 := congrArg Prod.fst hs
      refine ⟨a' :: as', ?_, ?_⟩
      · rw [exec_cons, exec_cons, hpost]
        exact hend
      · rw [trace_cons, trace_cons, hpost]
        exact List.Forall₂.cons ⟨hQ, rfl, congrArg Prod.snd hs, rfl⟩ hall

end Mealy
