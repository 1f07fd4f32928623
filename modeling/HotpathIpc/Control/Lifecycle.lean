import HotpathIpc.Control.Server
import HotpathIpc.Library.Mealy
import Mathlib.Data.Finset.Card

/-!
# Which stages live

Results on all runs of the control server, however requests, launches and exits are interleaved.

* **`runs_as_asked`** — every living stage was asked for, and runs with the knobs of its request.
* **`unregistered_stages`** — which stages can live without being registered as running, out of
  reach of a stop: those of launches in flight, of launches that failed, and of launches that were
  registered and then displaced.
* **`stop_ends_all`** — none, if launches neither overlap nor fail.
* **`stages_bounded`** — if no more than `k` launches are ever in flight at a time, no more than `k`
  processes of one stage ever live: one, if launches do not overlap.
-/

namespace HotpathIpc

variable {F : Type}

/-! ## Two runs to look at -/

/-- Every file is there, and every process can be spawned. -/
def allFound : Found := ⟨fun _ => true, none⟩

/-- A launch, and another one when it is registered. -/
def twoInTurn : List ControlAction :=
  ControlAction.request Method.post "/run" ""
    :: List.replicate 6 (ControlAction.advance 0 allFound)
    ++ ControlAction.request Method.post "/run?again" ""
      :: List.replicate 6 (ControlAction.advance 0 allFound)

/-- Two launches that go side by side, up to their first stages. -/
def twoAtOnce : List ControlAction :=
  [ControlAction.request Method.post "/run" "", ControlAction.request Method.post "/run" ""]
    ++ (List.replicate 3
      [ControlAction.advance 0 allFound, ControlAction.advance 1 allFound]).flatten

/-! ## Every stage was asked for -/

section Runs

variable [ConsoleF64 F]

/-- A step of a run of the server. -/
abbrev ServerEntry (F : Type) := Mealy.Entry (ControlServer F) ControlAction Emitted

/-- A run of the server from its start. -/
def serverTrace (F : Type) [ConsoleF64 F] (manifest : String) (acts : List ControlAction) :
    List (ServerEntry F) :=
  Mealy.trace (ControlServer.step manifest) ControlServer.new acts

/-- Where it ends. -/
def serverEnd (F : Type) [ConsoleF64 F] (manifest : String) (acts : List ControlAction) :
    ControlServer F :=
  Mealy.exec (ControlServer.step manifest) ControlServer.new acts

/-- This step is the run request that starts the launch of this number, with these knobs. -/
def Asks (e : ServerEntry F) (launch : ℕ) (params : StrategyParams F) : Prop :=
  ∃ method url body, e.input = ControlAction.request method url body ∧
    handle method url = Route.run ∧ e.pre.next = launch ∧
    params = StrategyParams.fromParamsJson body

/-- All that is asked for so far. -/
structure ControlServer.Asked (h : List (ServerEntry F)) (s : ControlServer F) : Prop where
  launches : ∀ l ∈ s.launches, ∃ e ∈ h, Asks e l.id l.params
  processes : ∀ p ∈ s.processes, ∃ e ∈ h, ∃ params graph, Asks e p.launch params ∧
    p.envs = params.envs graph p.stage

variable {manifest : String} {acts : List ControlAction}

theorem tracked_serverEnd : (serverEnd F manifest acts).Tracked := by
  have hstep : ∀ (s : ControlServer F) a, s.Tracked → (s.step manifest a).1.Tracked :=
    fun s a h => tracked_move h (move_step manifest s a)
  exact (Mealy.preserved hstep tracked_new acts).1

theorem ControlServer.Asked.mono {h : List (ServerEntry F)} {s t : ControlServer F}
    (ha : ControlServer.Asked h s) (e : ServerEntry F)
    (hl : ∀ l ∈ t.launches, ∃ m ∈ s.launches, m.id = l.id ∧ m.params = l.params)
    (hp : ∀ p ∈ t.processes, p ∈ s.processes) : ControlServer.Asked (h ++ [e]) t where
  launches l hmem := by
    obtain ⟨m, hm, hid, hparams⟩ := hl l hmem
    obtain ⟨e', he', hasks⟩ := ha.launches m hm
    exact ⟨e', List.mem_append_left _ he', hid ▸ hparams ▸ hasks⟩
  processes p hmem := by
    obtain ⟨e', he', params, graph, hasks, henvs⟩ := ha.processes p (hp p hmem)
    exact ⟨e', List.mem_append_left _ he', params, graph, hasks, henvs⟩

theorem asked_step {h : List (ServerEntry F)} {s : ControlServer F} {a : ControlAction}
    {r : ControlServer F × Emitted} (ha : ControlServer.Asked h s) (hmove : s.Move a r) :
    ControlServer.Asked (h ++ [⟨s, a, r.2, r.1⟩]) r.1 := by
  cases hmove with
  | idle => exact ha.mono _ (fun l hl => ⟨l, hl, rfl, rfl⟩) fun _ hp => hp
  | exits j =>
      exact ha.mono _ (fun l hl => ⟨l, hl, rfl, rfl⟩) fun _ hp => List.mem_of_mem_eraseIdx hp
  | stopped _ =>
      exact ha.mono _ (fun l hl => ⟨l, (launches_kill s).1 ▸ hl, rfl, rfl⟩) fun _ => mem_kill
  | fails _ =>
      exact ha.mono _ (fun l hl => ⟨l, List.mem_of_mem_eraseIdx hl, rfl, rfl⟩) fun _ hp => hp
  | registers _ _ _ =>
      exact ha.mono _ (fun l hl => ⟨l, List.mem_of_mem_eraseIdx hl, rfl, rfl⟩) fun _ hp => hp
  | stops hl _ =>
      refine ha.mono _ (fun l hmem => ?_) fun _ => mem_kill
      obtain ⟨m, hm, hsame⟩ := params_goesOn (s := s.kill) ((launches_kill s).1 ▸ hl) _ l hmem
      exact ⟨m, (launches_kill s).1 ▸ hm, hsame⟩
  | cleans hl _ =>
      exact ha.mono _ (params_goesOn (s := s.sweep) hl _) fun _ hp => (List.mem_filter.mp hp).1
  | @spawns i _ l children p hl _ hlaunch _ _ henvs =>
      refine ⟨fun m hm => ?_, fun q hq => ?_⟩
      · obtain ⟨m', hm', hid, hparams⟩ := params_goesOn (s := s) hl _ m hm
        obtain ⟨e, he, hasks⟩ := ha.launches m' hm'
        exact ⟨e, List.mem_append_left _ he, hid ▸ hparams ▸ hasks⟩
      rcases List.mem_append.mp hq with hq | hq
      · obtain ⟨e, he, hasks⟩ := ha.processes q hq
        exact ⟨e, List.mem_append_left _ he, hasks⟩
      · obtain rfl := List.mem_singleton.mp hq
        obtain ⟨graph, hgraph⟩ := henvs
        obtain ⟨e, he, hasks⟩ := ha.launches l (List.mem_of_getElem? hl)
        exact ⟨e, List.mem_append_left _ he, l.params, graph, hlaunch.symm ▸ hasks, hgraph⟩
  | @asked method url body _ hroute =>
      refine ⟨fun l hl => ?_, fun p hp => ?_⟩
      · rcases List.mem_append.mp hl with hl | hl
        · obtain ⟨e, he, hasks⟩ := ha.launches l hl
          exact ⟨e, List.mem_append_left _ he, hasks⟩
        · rw [List.mem_singleton.mp hl]
          exact ⟨_, List.mem_append_right _ List.mem_cons_self, method, url, body, rfl, hroute,
            rfl, rfl⟩
      · obtain ⟨e, he, hasks⟩ := ha.processes p hp
        exact ⟨e, List.mem_append_left _ he, hasks⟩

/-- **Every living stage was asked for.**  Whatever the interleaving of requests, launches and
exits, each living process was spawned for one run request of the run, runs with the knobs of that
request in its environment, and is the only one of its stage for that request. -/
theorem runs_as_asked (manifest : String) (acts : List ControlAction) :
    let s := serverEnd F manifest acts
    (s.processes.map fun p => (p.launch, p.stage)).Nodup ∧
      ∀ p ∈ s.processes, ∃ e ∈ serverTrace F manifest acts, ∃ params graph,
        Asks e p.launch params ∧ p.envs = params.envs graph p.stage := by
  have hasked : ControlServer.Asked (serverTrace F manifest acts) (serverEnd F manifest acts) :=
    Mealy.history_invariant (J := ControlServer.Asked) (g := fun _ _ _ => True)
      (fun _ s a ha _ => asked_step ha (move_step manifest s a)) acts
      ⟨fun _ h => absurd h List.not_mem_nil, fun _ h => absurd h List.not_mem_nil⟩
      fun _ _ _ _ => trivial
  exact ⟨tracked_serverEnd.keys, hasked.processes⟩

/-! ## Out of reach of a stop -/

/-- The launch of this number fails at this step. -/
def Fails (e : ServerEntry F) (launch : ℕ) : Prop :=
  ∃ error, e.out.reply = some (Reply.failed launch error)

/-- At this step a launch is registered in place of one with this child. -/
def Displaces (e : ServerEntry F) (p : Process) : Prop :=
  ∃ children launch, e.pre.running = some children ∧ p ∈ children ∧
    e.out.reply = some (Reply.launched launch)

def ControlServer.Accounted (h : List (ServerEntry F)) (s : ControlServer F) : Prop :=
  ∀ p ∈ s.processes, (∃ children, s.running = some children ∧ p ∈ children) ∨
    (∃ l ∈ s.launches, l.id = p.launch) ∨ (∃ e ∈ h, Fails e p.launch) ∨ ∃ e ∈ h, Displaces e p

theorem accounted_step {h : List (ServerEntry F)} {s : ControlServer F} {a : ControlAction}
    {r : ControlServer F × Emitted} (ht : s.Tracked) (ha : ControlServer.Accounted h s)
    (hmove : s.Move a r) : ControlServer.Accounted (h ++ [⟨s, a, r.2, r.1⟩]) r.1 := by
  have hpast : ∀ {p : Process} {e : ServerEntry F},
      ((∃ e' ∈ h, Fails e' p.launch) ∨ ∃ e' ∈ h, Displaces e' p) →
        (∃ e' ∈ h ++ [e], Fails e' p.launch) ∨ ∃ e' ∈ h ++ [e], Displaces e' p := by
    rintro p e (⟨e', he', hfails⟩ | ⟨e', he', hdisplaces⟩)
    · exact Or.inl ⟨e', List.mem_append_left _ he', hfails⟩
    · exact Or.inr ⟨e', List.mem_append_left _ he', hdisplaces⟩
  have hkill : ∀ t : ControlServer F, t.processes = s.kill.processes →
      (∀ l ∈ s.launches, ∃ m ∈ t.launches, m.id = l.id) → t.running = s.kill.running →
        ControlServer.Accounted (h ++ [⟨s, a, r.2, r.1⟩]) t := by
    intro t hp hl hr p hmem
    cases hrunning : s.running with
    | some children =>
        rw [hp, (kill_some ht hrunning).1] at hmem
        cases hmem
    | none =>
        rw [hp, kill_none hrunning] at hmem
        rcases ha p hmem with ⟨children, hc, -⟩ | ⟨l, hlmem, hid⟩ | hrest
        · rw [hrunning] at hc
          cases hc
        · obtain ⟨m, hm, hmid⟩ := hl l hlmem
          exact Or.inr (Or.inl ⟨m, hm, hmid.trans hid⟩)
        · exact Or.inr (Or.inr (hpast hrest))
  have hgoesOn : ∀ {t : ControlServer F} {i : ℕ} {l : Launch F} (phase : Launch.Phase),
      t.launches[i]? = some l → ∀ m ∈ t.launches,
        ∃ m' ∈ (t.goesOn i l phase).launches, m'.id = m.id := by
    intro t i l phase hl m hm
    have hid : m.id ∈ (t.goesOn i l phase).launches.map Launch.id :=
      ids_goesOn hl phase ▸ List.mem_map_of_mem hm
    exact List.mem_map.mp hid
  cases hmove with
  | idle =>
      intro p hp
      rcases ha p hp with hr | hl | hrest
      · exact Or.inl hr
      · exact Or.inr (Or.inl hl)
      · exact Or.inr (Or.inr (hpast hrest))
  | exits j =>
      intro p hp
      rcases ha p (List.mem_of_mem_eraseIdx hp) with hr | hl | hrest
      · exact Or.inl hr
      · exact Or.inr (Or.inl hl)
      · exact Or.inr (Or.inr (hpast hrest))
  | asked _ =>
      intro p hp
      rcases ha p hp with hr | ⟨l, hl, hid⟩ | hrest
      · exact Or.inl hr
      · exact Or.inr (Or.inl ⟨l, List.mem_append_left _ hl, hid⟩)
      · exact Or.inr (Or.inr (hpast hrest))
  | stopped _ =>
      exact hkill _ rfl (fun l hl => ⟨l, (launches_kill s).1.symm ▸ hl, rfl⟩) rfl
  | stops hl _ =>
      refine hkill _ rfl (fun m hm => ?_) rfl
      exact hgoesOn (t := s.kill) _ ((launches_kill s).1.symm ▸ hl) m
        ((launches_kill s).1.symm ▸ hm)
  | cleans hl _ =>
      intro p hp
      have hnone : p ∈ s.sweep.processes := hp
      rw [processes_sweep ht] at hnone
      cases hnone
  | @spawns i _ l children q hl _ hlaunch _ _ _ =>
      have hin : ∀ m ∈ s.launches, ∃ m' ∈ (s.goesOn i l
          (Launch.Phase.spawning (children ++ [q]))).launches, m'.id = m.id := hgoesOn _ hl
      intro p hp
      rcases List.mem_append.mp hp with hp | hp
      · rcases ha p hp with hr | ⟨m, hm, hid⟩ | hrest
        · exact Or.inl hr
        · obtain ⟨m', hm', hmid⟩ := hin m hm
          exact Or.inr (Or.inl ⟨m', hm', hmid.trans hid⟩)
        · exact Or.inr (Or.inr (hpast hrest))
      · obtain rfl := List.mem_singleton.mp hp
        obtain ⟨m', hm', hmid⟩ := hin l (List.mem_of_getElem? hl)
        exact Or.inr (Or.inl ⟨m', hm', hmid.trans hlaunch.symm⟩)
  | @fails i _ l _ error hl =>
      intro p hp
      rcases ha p hp with hr | ⟨m, hm, hid⟩ | hrest
      · exact Or.inl hr
      · by_cases hown : m.id = l.id
        · refine Or.inr (Or.inr (Or.inl ⟨_, List.mem_append_right _ List.mem_cons_self, error, ?_⟩))
          rw [← hid, hown]
        · exact Or.inr (Or.inl ⟨m, mem_ends hl hm hown, hid⟩)
      · exact Or.inr (Or.inr (hpast hrest))
  | @registers i _ l children hl hphase _ =>
      intro p hp
      rcases ha p hp with ⟨old, hr, hmem⟩ | ⟨m, hm, hid⟩ | hrest
      · exact Or.inr (Or.inr (Or.inr ⟨_, List.mem_append_right _ List.mem_cons_self, old, l.id, hr,
          hmem, rfl⟩))
      · by_cases hown : m.id = l.id
        · obtain ⟨children', hphase', hchild⟩ :=
            ht.held l (List.mem_of_getElem? hl) p hp (hid.symm.trans hown)
          rw [hphase] at hphase'
          cases hphase'
          exact Or.inl ⟨children, rfl, hchild⟩
        · exact Or.inr (Or.inl ⟨m, mem_ends (s := s) hl hm hown, hid⟩)
      · exact Or.inr (Or.inr (hpast hrest))

theorem accounted_run (manifest : String) (acts : List ControlAction) :
    ControlServer.Accounted (serverTrace F manifest acts) (serverEnd F manifest acts) := by
  have hstart : ControlServer.Accounted [] (ControlServer.new : ControlServer F) :=
    fun _ h => absurd h List.not_mem_nil
  have hrun := Mealy.history_invariant (J := fun h s => s.Tracked ∧ ControlServer.Accounted h s)
    (g := fun _ _ _ => True)
    (fun _ s a h _ => ⟨tracked_move h.1 (move_step manifest s a),
      accounted_step h.1 h.2 (move_step manifest s a)⟩) acts
    ⟨tracked_new, hstart⟩ fun _ _ _ _ => trivial
  exact hrun.2

/-- **Out of reach of a stop.**  In every state of every run, a living stage is a child of the
pipeline that is registered, so that a stop ends it, unless its launch is still in flight, or
failed after it was spawned, or was registered and then displaced by another one. -/
theorem unregistered_stages (manifest : String) (acts : List ControlAction) :
    let s := serverEnd F manifest acts
    ∀ p ∈ s.processes, (∃ children, s.running = some children ∧ p ∈ children) ∨
      (∃ l ∈ s.launches, l.id = p.launch) ∨
      (∃ e ∈ serverTrace F manifest acts, Fails e p.launch) ∨
      ∃ e ∈ serverTrace F manifest acts, Displaces e p :=
  accounted_run manifest acts

/-- While a launch is under way, nothing is registered. -/
def ControlServer.Exclusive (s : ControlServer F) : Prop :=
  ∀ l ∈ s.launches, l.phase ≠ Launch.Phase.stopping → s.running = none

theorem exclusive_move {s : ControlServer F} {a : ControlAction} {r : ControlServer F × Emitted}
    (hone : s.launches.length ≤ 1) (h : s.Exclusive) (hmove : s.Move a r) : r.1.Exclusive := by
  cases hmove with
  | idle => exact h
  | exits j => exact h
  | stopped _ => exact fun _ _ _ => running_kill s
  | stops _ _ => exact fun _ _ _ => running_kill s
  | fails _ => exact fun m hm => h m (List.mem_of_mem_eraseIdx hm)
  | cleans hl hphase =>
      have hnone := h _ (List.mem_of_getElem? hl) (by rw [hphase]; exact fun heq => by cases heq)
      exact fun _ _ _ => hnone
  | spawns hl hphase _ _ _ _ =>
      have hnone := h _ (List.mem_of_getElem? hl) (by rw [hphase]; exact fun heq => by cases heq)
      exact fun _ _ _ => hnone
  | registers hl _ _ =>
      -- the one launch in flight is this one
      obtain ⟨hlt, -⟩ := List.getElem?_eq_some_iff.mp hl
      intro m hm
      have hpos : 0 < (s.launches.eraseIdx _).length := List.length_pos_of_mem hm
      rw [List.length_eraseIdx_of_lt hlt] at hpos
      omega
  | asked _ =>
      intro m hm hne
      rcases List.mem_append.mp hm with hm | hm
      · exact h m hm hne
      · rw [List.mem_singleton.mp hm] at hne
        exact absurd rfl hne

/-- A launch that is registered displaces nothing. -/
theorem running_of_launched {s : ControlServer F} {a : ControlAction}
    {r : ControlServer F × Emitted} {launch : ℕ} (h : s.Exclusive) (hmove : s.Move a r)
    (hreply : r.2.reply = some (Reply.launched launch)) : s.running = none := by
  cases hmove with
  | registers hl hphase _ =>
      exact h _ (List.mem_of_getElem? hl) (by rw [hphase]; exact fun heq => by cases heq)
  | idle => cases hreply
  | exits _ => cases hreply
  | stopped _ => cases hreply
  | stops _ _ => cases hreply
  | cleans _ _ => cases hreply
  | spawns _ _ _ _ _ _ => cases hreply
  | fails _ => cases hreply
  | asked _ => cases hreply

/-- **A stop ends everything**, if no two launches overlap and none fails: when no launch is in
flight, nothing lives behind it, whatever was launched, stopped or exited before. -/
theorem stop_ends_all (manifest : String) (acts : List ControlAction)
    (hone : ∀ e ∈ serverTrace F manifest acts, e.pre.launches.length ≤ 1)
    (hok : ∀ e ∈ serverTrace F manifest acts, ∀ launch, ¬ Fails e launch)
    (hidle : (serverEnd F manifest acts).launches = []) :
    (serverEnd F manifest acts).kill.processes = [] ∧
      (serverEnd F manifest acts).kill.running = none := by
  refine ⟨?_, running_kill _⟩
  cases hrunning : (serverEnd F manifest acts).running with
  | some children => exact (kill_some tracked_serverEnd hrunning).1
  | none =>
      have hexclusive : ∀ e ∈ serverTrace F manifest acts, e.pre.Exclusive := by
        have hrun := (Mealy.invariant (I := ControlServer.Exclusive)
          (g := fun s _ => s.launches.length ≤ 1)
          (fun s a h hlen => exclusive_move hlen h (move_step manifest s a))
          (fun _ h => absurd h List.not_mem_nil) hone).2
        exact fun e he => (hrun e he).1
      rw [kill_none hrunning]
      refine List.eq_nil_iff_forall_not_mem.mpr fun p hp => ?_
      rcases accounted_run manifest acts p hp with
        ⟨children, hc, -⟩ | ⟨l, hl, -⟩ | ⟨e, he, hfails⟩ | ⟨e, he, hdisplaces⟩
      · rw [hrunning] at hc
        cases hc
      · rw [hidle] at hl
        cases hl
      · exact hok e he _ hfails
      · obtain ⟨children, launch, hsome, -, hreply⟩ := hdisplaces
        have hmove : e.pre.Move e.input (e.post, e.out) :=
          Mealy.step_of_mem_trace he ▸ move_step manifest e.pre e.input
        have hnone := running_of_launched (hexclusive e he) hmove hreply
        rw [hsome] at hnone
        cases hnone

/-- A stop after two launches in turn. -/
theorem stop_ends_all_two :
    let _ := ConsoleF64.exact printed
    (serverEnd ℚ "/srv" twoInTurn).processes.length = 3 ∧
      (serverEnd ℚ "/srv" twoInTurn).kill.processes = [] := by
  let _ := ConsoleF64.exact printed
  have hreplies : ∀ e ∈ serverTrace ℚ "/srv" twoInTurn, e.out.reply = none ∨
      e.out.reply = some (Reply.launched 0) ∨ e.out.reply = some (Reply.launched 1) := by
    decide +kernel
  have hok : ∀ e ∈ serverTrace ℚ "/srv" twoInTurn, ∀ launch, ¬ Fails e launch := by
    rintro e he launch ⟨error, hreply⟩
    have hreply' := hreplies e he
    rw [hreply] at hreply'
    rcases hreply' with h | h | h <;> cases h
  have hidle : (serverEnd ℚ "/srv" twoInTurn).launches = [] :=
    List.eq_nil_of_length_eq_zero (by decide +kernel)
  exact ⟨by decide +kernel, (stop_ends_all "/srv" twoInTurn (by decide +kernel) hok hidle).1⟩

/-! ## How many live -/

/-- All living stages, and all launches that may spawn one, are of these launches. -/
structure ControlServer.Within (launches : Finset ℕ) (s : ControlServer F) : Prop where
  processes : ∀ p ∈ s.processes, p.launch ∈ launches
  spawning : ∀ l ∈ s.launches, ∀ children, l.phase = Launch.Phase.spawning children →
    l.id ∈ launches

theorem within_move {k : ℕ} {s : ControlServer F} {a : ControlAction}
    {r : ControlServer F × Emitted} (ht : s.Tracked) (hk : s.launches.length ≤ k)
    (h : ∃ launches : Finset ℕ, launches.card ≤ k ∧ ControlServer.Within launches s)
    (hmove : s.Move a r) :
    ∃ launches : Finset ℕ, launches.card ≤ k ∧ ControlServer.Within launches r.1 := by
  obtain ⟨roster, hcard, hp, hl⟩ := h
  cases hmove with
  | idle => exact ⟨roster, hcard, hp, hl⟩
  | exits j => exact ⟨roster, hcard, fun p hmem => hp p (List.mem_of_mem_eraseIdx hmem), hl⟩
  | stopped _ =>
      refine ⟨roster, hcard, fun p hmem => hp p (mem_kill hmem), fun m hm => ?_⟩
      exact hl m ((launches_kill s).1 ▸ hm)
  | fails _ => exact ⟨roster, hcard, hp, fun m hm => hl m (List.mem_of_mem_eraseIdx hm)⟩
  | registers _ _ _ =>
      exact ⟨roster, hcard, hp, fun m hm => hl m (List.mem_of_mem_eraseIdx hm)⟩
  | asked _ =>
      refine ⟨roster, hcard, hp, fun m hm children hphase => ?_⟩
      rcases List.mem_append.mp hm with hm | hm
      · exact hl m hm children hphase
      · rw [List.mem_singleton.mp hm] at hphase
        cases hphase
  | stops hi _ =>
      refine ⟨roster, hcard, fun p hmem => hp p (mem_kill hmem), fun m hm children hphase => ?_⟩
      rcases List.mem_or_eq_of_mem_set hm with hm | rfl
      · exact hl m ((launches_kill s).1 ▸ hm) children hphase
      · cases hphase
  | cleans hi _ =>
      -- nothing lives now, so only the launches in flight matter
      refine ⟨(s.launches.map Launch.id).toFinset, ?_, fun p hmem => ?_, fun m hm _ _ => ?_⟩
      · refine (List.toFinset_card_le _).trans ?_
        rwa [List.length_map]
      · have hnone : p ∈ s.sweep.processes := hmem
        rw [processes_sweep ht] at hnone
        cases hnone
      · obtain ⟨m', hm', hid, -⟩ := params_goesOn (s := s.sweep) hi _ m hm
        exact List.mem_toFinset.mpr (hid ▸ List.mem_map_of_mem hm')
  | @spawns i _ l children p hi hphase hlaunch _ _ _ =>
      have hown : l.id ∈ roster := hl l (List.mem_of_getElem? hi) children hphase
      refine ⟨roster, hcard, fun q hq => ?_, fun m hm children' hphase' => ?_⟩
      · rcases List.mem_append.mp hq with hq | hq
        · exact hp q hq
        · exact List.mem_singleton.mp hq ▸ hlaunch ▸ hown
      · rcases List.mem_or_eq_of_mem_set hm with hm | rfl
        · exact hl m hm children' hphase'
        · exact hown

/-- **How many live.**  If no more than `k` launches are in flight before any step of a run, then
the living stages are of `k` launches at most, and there are at most `k` processes of each stage.
Launches that do not overlap leave one pipeline at most. -/
theorem stages_bounded (manifest : String) (acts : List ControlAction) (k : ℕ)
    (hk : ∀ e ∈ serverTrace F manifest acts, e.pre.launches.length ≤ k) :
    let s := serverEnd F manifest acts
    (s.processes.map Process.launch).toFinset.card ≤ k ∧
      ∀ stage, s.processes.countP (fun p => p.stage = stage) ≤ k := by
  intro s
  have hstart : ∃ launches : Finset ℕ, launches.card ≤ k ∧
      ControlServer.Within launches (ControlServer.new : ControlServer F) :=
    ⟨∅, Nat.zero_le k, fun _ h => absurd h List.not_mem_nil, fun _ h => absurd h List.not_mem_nil⟩
  have hrun := (Mealy.invariant
    (I := fun s => s.Tracked ∧ ∃ launches : Finset ℕ, launches.card ≤ k ∧
      ControlServer.Within launches s) (g := fun s _ => s.launches.length ≤ k)
    (fun s a h hlen => ⟨tracked_move h.1 (move_step manifest s a),
      within_move h.1 hlen h.2 (move_step manifest s a)⟩) ⟨tracked_new, hstart⟩ hk).1
  obtain ⟨ht, roster, hcard, hwithin⟩ := hrun
  have hroster : ∀ {ps : List Process}, (∀ p ∈ ps, p ∈ s.processes) →
      (ps.map Process.launch).toFinset ⊆ roster := by
    intro ps hps i hi
    obtain ⟨p, hp, rfl⟩ := List.mem_map.mp (List.mem_toFinset.mp hi)
    exact hwithin.processes p (hps p hp)
  refine ⟨(Finset.card_le_card (hroster fun _ h => h)).trans hcard, fun stage => ?_⟩
  have hsame : ((s.processes.filter fun p => p.stage = stage).map Process.launch).Nodup := by
    have hkeys : ((s.processes.filter fun p => p.stage = stage).map Process.key).Nodup :=
      ht.keys.sublist (List.filter_sublist.map _)
    have hpair : (s.processes.filter fun p => p.stage = stage).map Process.key
        = ((s.processes.filter fun p => p.stage = stage).map Process.launch).map (·, stage) := by
      rw [List.map_map]
      refine List.map_congr_left fun p hp => ?_
      exact congrArg (p.launch, ·) (of_decide_eq_true (List.mem_filter.mp hp).2)
    rw [hpair] at hkeys
    exact hkeys.of_map _
  calc s.processes.countP (fun p => p.stage = stage)
      = ((s.processes.filter fun p => p.stage = stage).map Process.launch).length := by
        rw [List.countP_eq_length_filter, List.length_map]
    _ = ((s.processes.filter fun p => p.stage = stage).map Process.launch).toFinset.card :=
        (List.toFinset_card_of_nodup hsame).symm
    _ ≤ roster.card := Finset.card_le_card (hroster fun _ h => (List.mem_filter.mp h).1)
    _ ≤ k := hcard

/-- In turn, the second launch has ended the first one; side by side, there are two stages. -/
theorem stages_bounded_two :
    let _ := ConsoleF64.exact printed
    let s := serverEnd ℚ "/srv" twoInTurn
    s.processes.map Process.key
        = [(1, Stage.execution), (1, Stage.strategy), (1, Stage.exchange)] ∧
      (s.processes.map Process.launch).toFinset.card ≤ 1 ∧
      (serverEnd ℚ "/srv" twoAtOnce).processes.map Process.key
        = [(0, Stage.execution), (1, Stage.execution)] ∧
      (serverEnd ℚ "/srv" twoAtOnce).processes.countP (fun p => p.stage = Stage.execution) ≤ 2 := by
  let _ := ConsoleF64.exact printed
  exact ⟨by decide +kernel, (stages_bounded "/srv" twoInTurn 1 (by decide +kernel)).1,
    by decide +kernel, (stages_bounded "/srv" twoAtOnce 2 (by decide +kernel)).2 Stage.execution⟩

end Runs

end HotpathIpc
