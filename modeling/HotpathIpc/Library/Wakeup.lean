import HotpathIpc.Library.Mealy
import HotpathIpc.Library.Overflow

/-!
# Sleeping on an event

A producer and a consumer, joined by a queue that drops its oldest entry when it is full and by an
event.  The producer sends an entry and then, if it notifies at all, notifies; the consumer takes
the entries one by one, and when it finds none it may sleep until the event wakes it.  The two run
freely: between two steps of one, anything of the other can happen.

* `Event` — an event may count notifications or merge them.  What is assumed of it is that nothing
  is pending at first, and that something is after a notification.
* `Consumer` — what it does with an entry and without one.  A timed sleep ends by itself.
* `step` — one step of either side; `Heard` — what keeps a wake-up from being lost.

What an entry is worked on with, and whether the consumer sleeps, may depend on an input of its own
for each step.  Two results are established.

* **`drains_iff`** — from wherever a run has got to, the consumer alone empties the queue, in one
  step more than it holds entries: if and only if it is notified, or its sleep is timed, or it never
  sleeps.
* **`latest_run`** — the entry sent last is never dropped: it is in the queue, or it was the last
  one worked on.
-/

namespace Wakeup

open Overflow (kept spilled)

/-- Something to sleep on. -/
structure Event (ε : Type*) where
  idle : ε
  notify : ε → ε
  /-- take a notification, if one is pending -/
  wait : ε → Option ε
  wait_idle : wait idle = none
  wait_notify : ∀ e, (wait (notify e)).isSome

/-- An event that merges its notifications. -/
def Event.flag : Event Bool where
  idle := false
  notify _ := true
  wait e := if e then some false else none
  wait_idle := rfl
  wait_notify _ := rfl

structure Consumer (σ α ι : Type*) where
  work : σ → α → ι → σ
  /-- what it does when there is no entry -/
  idle : σ → ι → σ
  live : σ → Bool
  /-- does it sleep when there is no entry? -/
  sleeps : ι → Bool
  /-- a sleep that ends by itself -/
  timed : Bool

structure State (σ α ε : Type*) where
  queue : List α
  event : ε
  /-- the notification of the last entry is still to come -/
  owed : Bool
  asleep : Bool
  consumer : σ

inductive Action (α ι : Type*) where
  | send (a : α)
  | notify
  | consume (i : ι)

/-- What a step did. -/
inductive Seen (α ι : Type*) where
  | nothing
  | sent (a : α) (lost : List α)
  | worked (a : α) (i : ι)

namespace Seen

variable {α ι : Type*}

@[simp] def entered : Seen α ι → List α
  | sent a _ => [a]
  | _ => []

@[simp] def taken : Seen α ι → List (α × ι)
  | worked a i => [(a, i)]
  | _ => []

/-- What left the queue, to be worked on or dropped. -/
@[simp] def left : Seen α ι → List α
  | sent _ lost => lost
  | worked a _ => [a]
  | nothing => []

end Seen

variable {σ α ι ε : Type*}

section Step

variable (E : Event ε) (C : Consumer σ α ι) (capacity : ℕ) (notifies : Bool)

def start (c : σ) : State σ α ε := ⟨[], E.idle, false, false, c⟩

/-- One step of the consumer. -/
def consume (s : State σ α ε) (i : ι) : State σ α ε × Seen α ι :=
  if s.asleep then
    match E.wait s.event with
    | some e => ({ s with event := e, asleep := false }, Seen.nothing)
    | none => ({ s with asleep := !C.timed }, Seen.nothing)
  else if !C.live s.consumer then (s, Seen.nothing)
  else match s.queue with
    | [] => ({ s with asleep := C.sleeps i, consumer := C.idle s.consumer i }, Seen.nothing)
    | a :: q => ({ s with queue := q, consumer := C.work s.consumer a i }, Seen.worked a i)

/-- One step of either side.  The producer's next entry comes after its notification. -/
def step (s : State σ α ε) : Action α ι → State σ α ε × Seen α ι
  | Action.send a =>
      if s.owed then (s, Seen.nothing)
      else ({ s with queue := kept capacity (s.queue ++ [a]), owed := notifies },
        Seen.sent a (spilled capacity (s.queue ++ [a])))
  | Action.notify =>
      if s.owed then ({ s with event := E.notify s.event, owed := false }, Seen.nothing)
      else (s, Seen.nothing)
  | Action.consume i => consume E C s i

/-- The state after a run. -/
abbrev after (c : σ) (as : List (Action α ι)) : State σ α ε :=
  Mealy.exec (step E C capacity notifies) (start E c) as

/-- What a run saw, step by step. -/
abbrev seen (c : σ) (as : List (Action α ι)) : List (Seen α ι) :=
  Mealy.outs (step E C capacity notifies) (start E c) as

end Step

variable {E : Event ε} {C : Consumer σ α ι} {capacity : ℕ} {notifies : Bool}

/-- Everything a step can do. -/
inductive Moves (E : Event ε) (C : Consumer σ α ι) (capacity : ℕ) (notifies : Bool)
    (s : State σ α ε) : Action α ι → State σ α ε × Seen α ι → Prop where
  /-- the producer has nothing to notify of, or must notify first -/
  | refused {x : Action α ι} (hx : ∀ i, x ≠ Action.consume i) :
      Moves E C capacity notifies s x (s, Seen.nothing)
  | sent (a : α) (h : s.owed = false) : Moves E C capacity notifies s (Action.send a)
      ({ s with queue := kept capacity (s.queue ++ [a]), owed := notifies },
        Seen.sent a (spilled capacity (s.queue ++ [a])))
  | notified (h : s.owed = true) : Moves E C capacity notifies s Action.notify
      ({ s with event := E.notify s.event, owed := false }, Seen.nothing)
  | woken (i : ι) (e : ε) (h : s.asleep = true) (he : E.wait s.event = some e) :
      Moves E C capacity notifies s (Action.consume i)
        ({ s with event := e, asleep := false }, Seen.nothing)
  | expired (i : ι) (h : s.asleep = true) (he : E.wait s.event = none) :
      Moves E C capacity notifies s (Action.consume i)
        ({ s with asleep := !C.timed }, Seen.nothing)
  | stopped (i : ι) (h : s.asleep = false) (hlive : C.live s.consumer = false) :
      Moves E C capacity notifies s (Action.consume i) (s, Seen.nothing)
  | idled (i : ι) (h : s.asleep = false) (hlive : C.live s.consumer = true) (hq : s.queue = []) :
      Moves E C capacity notifies s (Action.consume i)
        ({ s with asleep := C.sleeps i, consumer := C.idle s.consumer i }, Seen.nothing)
  | worked (i : ι) (a : α) (q : List α) (h : s.asleep = false) (hlive : C.live s.consumer = true)
      (hq : s.queue = a :: q) : Moves E C capacity notifies s (Action.consume i)
        ({ s with queue := q, consumer := C.work s.consumer a i }, Seen.worked a i)

variable (E C capacity notifies) in
theorem moves_step (s : State σ α ε) (x : Action α ι) :
    Moves E C capacity notifies s x (step E C capacity notifies s x) := by
  obtain ⟨queue, event, owed, asleep, consumer⟩ := s
  cases x with
  | send a =>
      cases owed with
      | true => exact Moves.refused nofun
      | false => exact Moves.sent a rfl
  | notify =>
      cases owed with
      | true => exact Moves.notified rfl
      | false => exact Moves.refused nofun
  | consume i =>
      rw [step, consume]
      cases asleep with
      | true =>
          dsimp only
          rw [if_pos rfl]
          cases he : E.wait event with
          | some e => exact Moves.woken i e rfl he
          | none => exact Moves.expired i rfl he
      | false =>
          dsimp only
          rw [if_neg Bool.false_ne_true]
          cases hlive : C.live consumer with
          | false => exact Moves.stopped i rfl hlive
          | true =>
              rw [Bool.not_true, if_neg Bool.false_ne_true]
              cases queue with
              | nil => exact Moves.idled i rfl hlive rfl
              | cons a q => exact Moves.worked i a q rfl hlive rfl

/-! ## No wake-up is lost -/

/-- A sleeper that has work to do will be woken. -/
def Heard (E : Event ε) (s : State σ α ε) : Prop :=
  s.asleep = true → s.queue ≠ [] → s.owed = true ∨ (E.wait s.event).isSome

theorem heard_step {s : State σ α ε} (h : Heard E s) (x : Action α ι) :
    Heard E (step E C capacity true s x).1 := by
  have hmoves := moves_step E C capacity true s x
  generalize step E C capacity true s x = r at hmoves ⊢
  cases hmoves with
  | refused => exact h
  | sent => exact fun _ _ => Or.inl rfl
  | notified => exact fun _ _ => Or.inr (E.wait_notify s.event)
  | woken => exact fun hasleep => absurd hasleep Bool.false_ne_true
  | expired i hasleep => exact fun _ hq => h hasleep hq
  | stopped => exact h
  | idled i _ _ hq => exact fun _ hne => absurd hq hne
  | worked i a q hawake => exact fun hasleep => absurd hasleep (ne_true_of_eq_false hawake)

theorem heard_start (E : Event ε) (c : σ) : Heard E (start E c : State σ α ε) :=
  fun hasleep => absurd hasleep Bool.false_ne_true

theorem heard_run (c : σ) (xs : List (Action α ι)) : Heard E (after E C capacity true c xs) :=
  (Mealy.preserved (I := Heard E) (fun _ x h => heard_step h x) (heard_start E c) xs).1

/-- Who never sleeps is awake. -/
theorem awake_run (hsleeps : ∀ i, C.sleeps i = false) (c : σ) (xs : List (Action α ι)) :
    (after E C capacity notifies c xs).asleep = false := by
  refine (Mealy.preserved (I := fun s : State σ α ε => s.asleep = false) (fun s x h => ?_) rfl xs).1
  have hmoves := moves_step E C capacity notifies s x
  generalize step E C capacity notifies s x = r at hmoves ⊢
  cases hmoves with
  | refused => exact h
  | sent => exact h
  | notified => exact h
  | woken => rfl
  | expired _ hasleep => exact absurd hasleep (ne_true_of_eq_false h)
  | stopped => exact h
  | idled i => exact hsleeps i
  | worked => exact h

/-! ## The consumer alone -/

section Alone

/-- The state after steps of the consumer alone. -/
abbrev alone (E : Event ε) (C : Consumer σ α ι) (capacity : ℕ) (notifies : Bool)
    (s : State σ α ε) (is : List ι) : State σ α ε :=
  Mealy.exec (step E C capacity notifies) s (is.map Action.consume)

theorem alone_cons (s : State σ α ε) (i : ι) (is : List ι) :
    alone E C capacity notifies s (i :: is)
      = alone E C capacity notifies (consume E C s i).1 is := rfl

theorem after_append_consume (c : σ) (xs : List (Action α ι)) (is : List ι) :
    after E C capacity notifies c (xs ++ is.map Action.consume)
      = alone E C capacity notifies (after E C capacity notifies c xs) is :=
  Mealy.exec_append _ _ xs _

theorem alone_empty : ∀ {s : State σ α ε}, s.queue = [] → ∀ is : List ι,
    (alone E C capacity notifies s is).queue = []
  | _, h, [] => h
  | s, h, i :: is => by
      refine alone_empty (s := (consume E C s i).1) ?_ is
      have hmoves := moves_step E C capacity notifies s
        (Action.consume i)
      rw [step] at hmoves
      generalize consume E C s i = r at hmoves ⊢
      cases hmoves with
      | refused => exact h
      | woken => exact h
      | expired => exact h
      | stopped => exact h
      | idled => exact h
      | worked _ _ _ _ _ hq => exact absurd (h.symm.trans hq) (List.cons_ne_nil _ _).symm

/-- A consumer that has stopped does nothing. -/
theorem alone_stopped {s : State σ α ε} (hawake : s.asleep = false)
    (hlive : C.live s.consumer = false) : ∀ is : List ι, alone E C capacity notifies s is = s
  | [] => rfl
  | i :: is => by
      have hstay : (consume E C s i).1 = s := by
        rw [consume, if_neg (ne_true_of_eq_false hawake), if_pos (by rw [hlive]; rfl)]
      rw [alone_cons, hstay, alone_stopped hawake hlive is]

/-- Someone awake empties the queue, or stops on the way. -/
theorem drain_awake : ∀ {s : State σ α ε} {is : List ι}, s.asleep = false →
    s.queue.length ≤ is.length → C.live (alone E C capacity notifies s is).consumer = false ∨
      (alone E C capacity notifies s is).queue = []
  | s, [], _, hlen => Or.inr (List.length_eq_zero_iff.mp (Nat.le_zero.mp hlen))
  | s, i :: is, hawake, hlen => by
      cases hlive : C.live s.consumer with
      | false => exact Or.inl (by rw [alone_stopped hawake hlive]; exact hlive)
      | true =>
          cases hq : s.queue with
          | nil => exact Or.inr (alone_empty hq (i :: is))
          | cons a q =>
              have hstep : (consume E C s i).1
                  = { s with queue := q, consumer := C.work s.consumer a i } := by
                rw [consume, if_neg (ne_true_of_eq_false hawake), if_neg (by rw [hlive]; decide),
                  hq]
              rw [hq, List.length_cons, List.length_cons] at hlen
              rw [alone_cons, hstep]
              exact drain_awake hawake (Nat.le_of_succ_le_succ hlen)

/-- **Draining.**  A sleeper is awake after its first step, if anything is there to wake it. -/
theorem drain {s : State σ α ε} (hwake : s.asleep = true → s.queue ≠ [] →
      C.timed = true ∨ (E.wait s.event).isSome) {is : List ι} (hlen : s.queue.length < is.length) :
    C.live (alone E C capacity notifies s is).consumer = false ∨
      (alone E C capacity notifies s is).queue = [] := by
  by_cases hq : s.queue = []
  · exact Or.inr (alone_empty hq is)
  · cases hasleep : s.asleep with
    | false => exact drain_awake hasleep (Nat.le_of_lt hlen)
    | true =>
        cases is with
        | nil => exact absurd hlen (Nat.not_lt_zero _)
        | cons i is =>
            have hstep : (consume E C s i).1.asleep = false ∧
                (consume E C s i).1.queue = s.queue := by
              rw [consume, if_pos hasleep]
              cases hw : E.wait s.event with
              | some e => exact ⟨rfl, rfl⟩
              | none =>
                  have htimed := (hwake hasleep hq).resolve_right (by rw [hw]; exact Bool.false_ne_true)
                  exact ⟨by rw [htimed]; rfl, rfl⟩
            rw [alone_cons]
            refine drain_awake hstep.1 ?_
            rw [hstep.2]
            exact Nat.le_of_lt_succ hlen

/-- A sleeper that nothing will wake. -/
theorem alone_asleep {s : State σ α ε} (htimed : C.timed = false) (hasleep : s.asleep = true)
    (hwait : E.wait s.event = none) : ∀ is : List ι, alone E C capacity notifies s is = s
  | [] => rfl
  | i :: is => by
      have hstay : (consume E C s i).1 = s := by
        obtain ⟨queue, event, owed, asleep, consumer⟩ := s
        obtain rfl : asleep = true := hasleep
        obtain hwait : E.wait event = none := hwait
        rw [consume, if_pos rfl, hwait, htimed]
        rfl
      rw [alone_cons, hstay, alone_asleep htimed hasleep hwait is]

end Alone

variable (E C notifies) in
/-- **When the queue is emptied.**  The consumer's steps alone empty it from wherever a run has got
to, if every entry's notification was made: exactly when there are notifications, or it never
sleeps, or only for a time. -/
theorem drains_iff [Nonempty α] (hcapacity : 0 < capacity) {c : σ} (hc : C.live c = true)
    (hidle : ∀ i, C.live (C.idle c i) = true) :
    (∀ (xs : List (Action α ι)) (is : List ι),
      (after E C capacity notifies c xs).owed = false →
      (after E C capacity notifies c xs).queue.length < is.length →
        C.live (alone E C capacity notifies (after E C capacity notifies c xs) is).consumer = false
          ∨ (alone E C capacity notifies (after E C capacity notifies c xs) is).queue = [])
      ↔ (notifies = true ∨ C.timed = true ∨ ∀ i, C.sleeps i = false) := by
  refine ⟨fun h => ?_, fun h xs is howed hlen => drain (fun hasleep hq => ?_) hlen⟩
  · by_contra hnone
    obtain ⟨hnotifies, htimed, hsleeps⟩ := not_or.mp hnone |>.imp_right not_or.mp
    obtain ⟨i, hi⟩ := not_forall.mp hsleeps
    obtain ⟨a⟩ := ‹Nonempty α›
    -- it goes to sleep before the entry is sent
    let s : State σ α ε := ⟨kept capacity [a], E.idle, notifies, true, C.idle c i⟩
    have hrun : after E C capacity notifies c [Action.consume i, Action.send a] = s := by
      have hfirst : (step E C capacity notifies (start E c) (Action.consume i)).1
          = ⟨[], E.idle, false, true, C.idle c i⟩ := by
        rw [Bool.not_eq_false] at hi
        rw [start, step, consume, if_neg Bool.false_ne_true, hc, Bool.not_true, if_neg Bool.false_ne_true, hi]
      rw [after, Mealy.exec_cons, hfirst]
      rfl
    have hs : s.queue = [a] := Overflow.kept_of_le hcapacity
    have hkeep := h [Action.consume i, Action.send a] [i, i]
    rw [hrun, alone_asleep (Bool.not_eq_true _ |>.mp htimed) rfl E.wait_idle, hs] at hkeep
    rcases hkeep (Bool.not_eq_true _ |>.mp hnotifies) (Nat.lt_succ_self 1) with hstop | hempty
    · exact absurd ((hidle i).symm.trans hstop) (by decide)
    · exact absurd hempty (List.cons_ne_nil _ _)
  · rcases h with rfl | htimed | hsleeps
    · exact Or.inr ((heard_run c xs hasleep hq).resolve_left (ne_true_of_eq_false howed))
    · exact Or.inl htimed
    · exact absurd hasleep (ne_true_of_eq_false (awake_run hsleeps c xs))

/-! ## What is sent and what is worked on -/

section Totals

variable (E : Event ε) (C : Consumer σ α ι) (capacity : ℕ) (notifies : Bool)

/-- The entries that a run sent. -/
abbrev sentBy (c : σ) (xs : List (Action α ι)) : List α :=
  (Mealy.trace (step E C capacity notifies) (start E c) xs).flatMap fun e => e.out.entered

/-- The entries that a run worked on, with what they were worked on with. -/
abbrev workedBy (c : σ) (xs : List (Action α ι)) : List (α × ι) :=
  (Mealy.trace (step E C capacity notifies) (start E c) xs).flatMap fun e => e.out.taken

end Totals

variable (E C capacity notifies) in
/-- What leaves the queue is what entered it, in order. -/
theorem queued_step (s : State σ α ε) (x : Action α ι) :
    let r := step E C capacity notifies s x
    r.2.left ++ r.1.queue = s.queue ++ r.2.entered := by
  have hmoves := moves_step E C capacity notifies s x
  generalize step E C capacity notifies s x = r at hmoves ⊢
  cases hmoves with
  | sent a => exact Overflow.spilled_append_kept capacity (s.queue ++ [a])
  | worked i a q _ _ hq =>
      dsimp only [Seen.left, Seen.entered]
      rw [hq, List.append_nil, List.singleton_append]
  | refused => exact (List.append_nil _).symm
  | notified => exact (List.append_nil _).symm
  | woken => exact (List.append_nil _).symm
  | expired => exact (List.append_nil _).symm
  | stopped => exact (List.append_nil _).symm
  | idled => exact (List.append_nil _).symm

theorem taken_sublist (o : Seen α ι) : (o.taken.map Prod.fst).Sublist o.left := by
  cases o with
  | nothing => exact List.Sublist.refl _
  | sent a lost => exact List.nil_sublist _
  | worked a i => exact List.Sublist.refl _

/-- **Entries are worked on in the order they were sent**, each at most once. -/
theorem worked_sublist (c : σ) (xs : List (Action α ι)) :
    ((workedBy E C capacity notifies c xs).map Prod.fst).Sublist
      (sentBy E C capacity notifies c xs) := by
  have hfifo := Mealy.fifo State.queue (fun e => e.out.entered) (fun e => e.out.left)
    (fun e (he : e ∈ Mealy.trace (step E C capacity notifies) (start E c) xs) => by
      have h := queued_step E C capacity notifies e.pre e.input
      rwa [Mealy.step_of_mem_trace he] at h)
  rw [start, List.nil_append] at hfifo
  rw [workedBy, sentBy, start, ← hfifo, List.map_flatMap]
  refine List.Sublist.trans ?_ (List.sublist_append_left _ _)
  generalize Mealy.trace (step E C capacity notifies) _ xs = es
  induction es with
  | nil => exact List.Sublist.refl _
  | cons e es ih =>
      rw [List.flatMap_cons, List.flatMap_cons]
      exact (taken_sublist e.out).append ih

variable (E C notifies) in
/-- **The latest entry is never dropped.**  It is the last one in the queue, or the queue is empty
and it was worked on last. -/
theorem latest_run (hcapacity : 0 < capacity) (c : σ) (xs : List (Action α ι)) :
    (after E C capacity notifies c xs).queue.getLast?.or
        ((workedBy E C capacity notifies c xs).map Prod.fst).getLast?
      = (sentBy E C capacity notifies c xs).getLast? := by
  refine Mealy.history_invariant (g := fun _ _ _ => True)
    (J := fun (h : List (Mealy.Entry (State σ α ε) (Action α ι) (Seen α ι))) (s : State σ α ε) =>
      s.queue.getLast?.or ((h.flatMap fun e => e.out.taken).map Prod.fst).getLast?
        = (h.flatMap fun e => e.out.entered).getLast?) (fun h s x hJ _ => ?_) xs rfl
    fun _ _ _ _ => trivial
  rw [List.flatMap_append, List.flatMap_append, List.flatMap_singleton, List.flatMap_singleton]
  dsimp only
  have hmoves := moves_step E C capacity notifies s x
  generalize step E C capacity notifies s x = r at hmoves ⊢
  cases hmoves with
  | sent a =>
      change (kept capacity (s.queue ++ [a])).getLast?.or _ = (_ ++ [a]).getLast?
      rw [Overflow.getLast?_kept_concat hcapacity, List.getLast?_concat, Option.some_or]
  | worked i a q _ _ hq =>
      change q.getLast?.or ((_ ++ [(a, i)]).map Prod.fst).getLast? = (_ ++ []).getLast?
      rw [List.map_append, List.map_singleton, List.getLast?_concat, List.append_nil, ← hJ, hq,
        List.getLast?_cons, Option.some_or]
      cases q.getLast? with
      | none => rfl
      | some b => rfl
  | refused => simpa using hJ
  | notified => simpa using hJ
  | woken => simpa using hJ
  | expired => simpa using hJ
  | stopped => simpa using hJ
  | idled => simpa using hJ

/-- The state of a consumer that only changes when it works. -/
theorem consumer_run (hidle : ∀ c i, C.idle c i = c) (c : σ) (xs : List (Action α ι)) :
    (after E C capacity notifies c xs).consumer
      = (workedBy E C capacity notifies c xs).foldl (fun c p => C.work c p.1 p.2) c := by
  refine Mealy.history_invariant (g := fun _ _ _ => True)
    (J := fun (h : List (Mealy.Entry (State σ α ε) (Action α ι) (Seen α ι))) (s : State σ α ε) =>
      s.consumer = (h.flatMap fun e => e.out.taken).foldl (fun c p => C.work c p.1 p.2) c)
    (fun h s x hJ _ => ?_) xs rfl fun _ _ _ _ => trivial
  rw [List.flatMap_append, List.flatMap_singleton, List.foldl_append, ← hJ]
  dsimp only
  have hmoves := moves_step E C capacity notifies s x
  generalize step E C capacity notifies s x = r at hmoves ⊢
  cases hmoves with
  | idled i => exact hidle s.consumer i
  | worked => rfl
  | sent => rfl
  | refused => rfl
  | notified => rfl
  | woken => rfl
  | expired => rfl
  | stopped => rfl

end Wakeup
