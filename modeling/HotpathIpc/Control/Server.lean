import HotpathIpc.Control.Params
import Mathlib.Data.List.Nodup

/-!
# The control server

`src/bin/control_server.rs` launches the pipeline for `POST /run` and tears it down for
`POST /stop`.  Every request has a thread of its own, and only `Hub::running` is behind a lock, so
launches may overlap, with each other and with stops.

* A step is a request that comes in, the next step of a launch in flight, or a stage that exits.
  What a launch finds when it takes a step (which files there are, whether a process can be spawned)
  is part of the step.
* A kill and a sweep are one step.  They end every stage of any launch, since the pattern of the
  sweep matches the path of every stage (`sweepable_exe`).
* `Process.launch` says which launch spawned a process; nothing reads it.
* `ControlServer.Tracked` — the bookkeeping of launches, their children and what lives;
  `ControlServer.Move` — all that a step can do.
-/

namespace HotpathIpc

/-! ## Stages and their processes -/

namespace Stage

/-- Consumers first. -/
def order : List Stage := [execution, strategy, exchange]

/-- The name of the binary. -/
def name : Stage → String
  | execution => "execution"
  | strategy => "strategy"
  | exchange => "exchange"

end Stage

structure Process where
  launch : ℕ
  stage : Stage
  path : String
  envs : List (String × String)
deriving DecidableEq

/-- What a launch finds at a step. -/
structure Found where
  /-- which files there are -/
  present : String → Bool
  /-- why a process cannot be spawned -/
  error : Option String

/-- The first candidate that is there, or else the last one. -/
def Found.file (found : Found) (manifest name : String) : String :=
  ([name, "./" ++ name, manifest ++ "/" ++ name].find? found.present).getD (manifest ++ "/" ++ name)

/-- The closure `exe` of `launch`. -/
def exe (manifest : String) (found : Found) (name : String) : String :=
  found.file manifest ("target/release/" ++ name)

/-- `pkill -9 -f 'target/release/(exchange|strategy|execution)'` matches this command line. -/
def sweepable (path : String) : Bool :=
  Stage.order.any fun stage =>
    decide (("target/release/" ++ stage.name).toList <:+: path.toList)

/-- Wherever a stage is found, the sweep matches it. -/
theorem sweepable_exe (manifest : String) (found : Found) (stage : Stage) :
    sweepable (exe manifest found stage.name) = true := by
  have hinfix : ∀ before : String, ("target/release/" ++ stage.name).toList
      <:+: (before ++ ("target/release/" ++ stage.name)).toList := by
    intro before
    have happend : (before ++ ("target/release/" ++ stage.name)).toList
        = before.toList ++ ("target/release/" ++ stage.name).toList := String.toList_append
    rw [happend]
    exact (List.suffix_append _ _).isInfix
  have hfile : ("target/release/" ++ stage.name).toList
      <:+: (exe manifest found stage.name).toList := by
    rw [exe, Found.file]
    cases hfind : List.find? found.present _ with
    | none => exact String.append_assoc ▸ hinfix (manifest ++ "/")
    | some path =>
        have hmem := List.mem_of_find?_eq_some hfind
        simp only [List.mem_cons, List.not_mem_nil, or_false] at hmem
        rcases hmem with rfl | rfl | rfl
        · exact List.infix_rfl
        · exact hinfix "./"
        · exact String.append_assoc ▸ hinfix (manifest ++ "/")
  exact List.any_eq_true.mpr ⟨stage, by cases stage <;> decide, decide_eq_true hfile⟩

/-! ## Requests -/

inductive Method where
  | get
  | post
  | other
deriving DecidableEq, Repr

inductive Route where
  | index
  | events
  | run
  | stop
  | notFound
deriving DecidableEq, Repr

/-- `handle`. -/
def handle (method : Method) (url : String) : Route :=
  let path := String.ofList (url.toList.takeWhile fun c => c ≠ '?')
  match method with
  | Method.get =>
      if path = "/" ∨ path = "/index.html" then Route.index
      else if path = "/events" then Route.events
      else Route.notFound
  | Method.post =>
      if path = "/run" then Route.run
      else if path = "/stop" then Route.stop
      else Route.notFound
  | Method.other => Route.notFound

/-- The answers to `/run` and `/stop`. -/
inductive Reply where
  | launched (launch : ℕ)
  | failed (launch : ℕ) (error : String)
  | stopped
deriving DecidableEq, Repr

def Reply.body : Reply → String
  | launched _ => "\x7b\"ok\":true\x7d"
  | failed _ error => "\x7b\"ok\":false,\"error\":\"" ++ error ++ "\"\x7d"
  | stopped => "\x7b\"ok\":true\x7d"

/-- What a step logs and answers. -/
structure Emitted where
  lines : List String
  reply : Option Reply
deriving DecidableEq, Repr

def Emitted.silent : Emitted := ⟨[], none⟩

/-! ## The server -/

/-- How far `run_pipeline` is. -/
inductive Launch.Phase where
  /-- about to stop what runs -/
  | stopping
  /-- about to clean up -/
  | cleaning
  /-- has these children so far -/
  | spawning (children : List Process)

structure Launch (F : Type) where
  id : ℕ
  params : StrategyParams F
  phase : Launch.Phase

structure ControlServer (F : Type) where
  /-- the stages that live -/
  processes : List Process
  /-- `Hub::running`: the children of the pipeline that is registered -/
  running : Option (List Process)
  /-- the launches in flight -/
  launches : List (Launch F)
  next : ℕ

inductive ControlAction where
  | request (method : Method) (url body : String)
  /-- The launch at this place takes its next step. -/
  | advance (i : ℕ) (found : Found)
  /-- The process at this place exits. -/
  | exits (j : ℕ)

variable {F : Type}

namespace ControlServer

def new : ControlServer F := ⟨[], none, [], 0⟩

def sweep (s : ControlServer F) : ControlServer F :=
  { s with processes := s.processes.filter fun p => !sweepable p.path }

/-- `if let Some(mut p) = h.running.take() { p.kill(); }`. -/
def kill (s : ControlServer F) : ControlServer F :=
  match s.running with
  | none => s
  | some children =>
      { s with
        running := none
        processes := s.processes.filter fun p => p ∉ children }.sweep

def goesOn (s : ControlServer F) (i : ℕ) (l : Launch F) (phase : Launch.Phase) : ControlServer F :=
  { s with launches := s.launches.set i { l with phase } }

def ends (s : ControlServer F) (i : ℕ) : ControlServer F :=
  { s with launches := s.launches.eraseIdx i }

variable [ConsoleF64 F]

/-- `spawn_stage`. -/
def spawnStage (manifest : String) (found : Found) (l : Launch F) (stage : Stage) :
    Except String Process :=
  let path := exe manifest found stage.name
  match found.error with
  | none => .ok ⟨l.id, stage, path, l.params.envs (found.file manifest "examples/gates.json") stage⟩
  | some e => .error ("spawn " ++ path ++ ": " ++ e)

/-- The next step of `run_pipeline`. -/
def advance (manifest : String) (s : ControlServer F) (i : ℕ) (found : Found) :
    ControlServer F × Emitted :=
  match s.launches[i]? with
  | none => (s, Emitted.silent)
  | some l =>
      match l.phase with
      | Launch.Phase.stopping => (s.kill.goesOn i l Launch.Phase.cleaning, Emitted.silent)
      | Launch.Phase.cleaning => (s.sweep.goesOn i l (Launch.Phase.spawning []), Emitted.silent)
      | Launch.Phase.spawning children =>
          match Stage.order[children.length]? with
          | none =>
              ({ s with running := some children }.ends i, ⟨[], some (Reply.launched l.id)⟩)
          | some stage =>
              match spawnStage manifest found l stage with
              | .ok p =>
                  ({ s with processes := s.processes ++ [p] }.goesOn i l
                    (Launch.Phase.spawning (children ++ [p])), Emitted.silent)
              | .error e =>
                  -- the children that were spawned before are dropped, and live on
                  (s.ends i, ⟨["[control] launch failed: " ++ e], some (Reply.failed l.id e)⟩)

def step (manifest : String) (s : ControlServer F) : ControlAction → ControlServer F × Emitted
  | ControlAction.request method url body =>
      match handle method url with
      | Route.run =>
          let params : StrategyParams F := StrategyParams.fromParamsJson body
          ({ s with
              launches := s.launches ++ [⟨s.next, params, Launch.Phase.stopping⟩]
              next := s.next + 1 },
            ⟨["[control] launching pipeline: " ++ params.describe], none⟩)
      | Route.stop => (s.kill, ⟨["[control] pipeline stopped"], some Reply.stopped⟩)
      | _ => (s, Emitted.silent)
  | ControlAction.advance i found => s.advance manifest i found
  | ControlAction.exits j => ({ s with processes := s.processes.eraseIdx j }, Emitted.silent)

end ControlServer

/-! ## Which children a launch has -/

/-- What tells processes apart. -/
def Process.key (p : Process) : ℕ × Stage := (p.launch, p.stage)

/-- The bookkeeping of launches and processes. -/
structure ControlServer.Tracked (s : ControlServer F) : Prop where
  idsFresh : ∀ l ∈ s.launches, l.id < s.next
  launchFresh : ∀ p ∈ s.processes, p.launch < s.next
  ids : (s.launches.map Launch.id).Nodup
  keys : (s.processes.map Process.key).Nodup
  swept : ∀ p ∈ s.processes, sweepable p.path = true
  /-- a living stage of a launch in flight is one of its children -/
  held : ∀ l ∈ s.launches, ∀ p ∈ s.processes, p.launch = l.id →
    ∃ children, l.phase = Launch.Phase.spawning children ∧ p ∈ children
  /-- the children are the first stages, in order -/
  inOrder : ∀ l ∈ s.launches, ∀ children, l.phase = Launch.Phase.spawning children →
    children.map Process.key = (Stage.order.take children.length).map (l.id, ·)

section Tracked

variable {s : ControlServer F}

/-- Fewer processes, and fewer launches. -/
theorem ControlServer.Tracked.sub {t : ControlServer F} (h : s.Tracked)
    (hp : t.processes.Sublist s.processes) (hl : t.launches.Sublist s.launches)
    (hn : t.next = s.next) : t.Tracked where
  idsFresh l hmem := hn ▸ h.idsFresh l (hl.subset hmem)
  launchFresh p hmem := hn ▸ h.launchFresh p (hp.subset hmem)
  ids := h.ids.sublist (hl.map _)
  keys := h.keys.sublist (hp.map _)
  swept p hmem := h.swept p (hp.subset hmem)
  held l hmem p hpmem := h.held l (hl.subset hmem) p (hp.subset hpmem)
  inOrder l hmem := h.inOrder l (hl.subset hmem)

theorem processes_sweep (h : s.Tracked) : s.sweep.processes = [] := by
  refine List.filter_eq_nil_iff.mpr fun p hp => ?_
  rw [h.swept p hp]
  decide

theorem kill_none (h : s.running = none) : s.kill = s := by
  rw [ControlServer.kill, h]

theorem kill_some (h : s.Tracked) {children : List Process} (hr : s.running = some children) :
    s.kill.processes = [] ∧ s.kill.running = none := by
  rw [ControlServer.kill, hr]
  refine ⟨List.filter_eq_nil_iff.mpr fun p hp => ?_, rfl⟩
  rw [h.swept p (List.mem_filter.mp hp).1]
  decide

theorem launches_kill (s : ControlServer F) :
    s.kill.launches = s.launches ∧ s.kill.next = s.next := by
  rw [ControlServer.kill]
  cases s.running <;> exact ⟨rfl, rfl⟩

theorem running_kill (s : ControlServer F) : s.kill.running = none := by
  rw [ControlServer.kill]
  cases hr : s.running with
  | none => exact hr
  | some children => rfl

theorem mem_kill {p : Process} (hp : p ∈ s.kill.processes) :
    p ∈ s.processes := by
  rw [ControlServer.kill] at hp
  cases hr : s.running with
  | none => rw [hr] at hp; exact hp
  | some children =>
      rw [hr] at hp
      exact (List.mem_filter.mp (List.mem_filter.mp hp).1).1

theorem tracked_kill (h : s.Tracked) : s.kill.Tracked := by
  cases hr : s.running with
  | none => exact (kill_none hr).symm ▸ h
  | some children =>
      obtain ⟨hl, hn⟩ := launches_kill s
      refine h.sub ?_ (hl ▸ List.Sublist.refl _) hn
      rw [(kill_some h hr).1]
      exact List.nil_sublist _

theorem tracked_sweep (h : s.Tracked) : s.sweep.Tracked :=
  h.sub List.filter_sublist (List.Sublist.refl _) rfl

/-- The launches, after one of them took a step. -/
theorem mem_goesOn (hids : (s.launches.map Launch.id).Nodup) {i : ℕ} {l : Launch F}
    (hl : s.launches[i]? = some l) (phase : Launch.Phase) {m : Launch F}
    (hm : m ∈ (s.goesOn i l phase).launches) :
    m = { l with phase } ∨ (m ∈ s.launches ∧ m.id ≠ l.id) := by
  obtain ⟨j, hj⟩ := List.mem_iff_getElem?.mp hm
  have hset : (s.launches.set i { l with phase })[j]? = some m := hj
  by_cases hij : i = j
  · subst hij
    obtain ⟨hlt, -⟩ := List.getElem?_eq_some_iff.mp hl
    rw [List.getElem?_set_self hlt] at hset
    exact Or.inl (Option.some.inj hset).symm
  · rw [List.getElem?_set_ne hij] at hset
    refine Or.inr ⟨List.mem_iff_getElem?.mpr ⟨j, hset⟩, fun hid => hij ?_⟩
    obtain ⟨hi, rfl⟩ := List.getElem?_eq_some_iff.mp hl
    obtain ⟨hlt, rfl⟩ := List.getElem?_eq_some_iff.mp hset
    have hi' : i < (s.launches.map Launch.id).length := by simpa using hi
    have hj' : j < (s.launches.map Launch.id).length := by simpa using hlt
    have hget : (s.launches.map Launch.id)[i] = (s.launches.map Launch.id)[j] := by
      simpa using hid.symm
    exact (List.Nodup.getElem_inj_iff hids).mp hget

theorem ids_goesOn {i : ℕ} {l : Launch F} (hl : s.launches[i]? = some l) (phase : Launch.Phase) :
    (s.goesOn i l phase).launches.map Launch.id = s.launches.map Launch.id := by
  obtain ⟨hlt, rfl⟩ := List.getElem?_eq_some_iff.mp hl
  have hlt' : i < (s.launches.map Launch.id).length := by simpa using hlt
  have hid : (s.launches[i]).id = (s.launches.map Launch.id)[i] := by simp
  have hset : (s.goesOn i s.launches[i] phase).launches.map Launch.id
      = (s.launches.map Launch.id).set i (s.launches[i]).id := List.map_set
  rw [hset, hid, List.set_getElem_self]

/-- A launch that takes a step knows which living stages are its own. -/
theorem tracked_goesOn (h : s.Tracked) {i : ℕ} {l : Launch F} (hl : s.launches[i]? = some l)
    {phase : Launch.Phase}
    (hheld : ∀ p ∈ s.processes, p.launch = l.id →
      ∃ children, phase = Launch.Phase.spawning children ∧ p ∈ children)
    (horder : ∀ children, phase = Launch.Phase.spawning children →
      children.map Process.key = (Stage.order.take children.length).map (l.id, ·)) :
    (s.goesOn i l phase).Tracked where
  idsFresh m hm := by
    rcases mem_goesOn h.ids hl phase hm with rfl | ⟨hm, -⟩
    · exact h.idsFresh l (List.mem_of_getElem? hl)
    · exact h.idsFresh m hm
  launchFresh := h.launchFresh
  ids := (ids_goesOn hl phase).symm ▸ h.ids
  keys := h.keys
  swept := h.swept
  held m hm p hp hlaunch := by
    rcases mem_goesOn h.ids hl phase hm with rfl | ⟨hm, -⟩
    · exact hheld p hp hlaunch
    · exact h.held m hm p hp hlaunch
  inOrder m hm children hphase := by
    rcases mem_goesOn h.ids hl phase hm with rfl | ⟨hm, -⟩
    · exact horder children hphase
    · exact h.inOrder m hm children hphase

theorem not_mem_take_order : ∀ {n : ℕ} {stage : Stage}, Stage.order[n]? = some stage →
    stage ∉ Stage.order.take n
  | 0, _, _ => List.not_mem_nil
  | 1, _, h => by obtain rfl := Option.some.inj h; decide
  | 2, _, h => by obtain rfl := Option.some.inj h; decide
  | _ + 3, _, h => by cases h

/-- A launch spawns the next stage. -/
theorem tracked_spawn (h : s.Tracked) {i : ℕ} {l : Launch F} (hl : s.launches[i]? = some l)
    {children : List Process} (hphase : l.phase = Launch.Phase.spawning children) {p : Process}
    (hlaunch : p.launch = l.id) (hstage : Stage.order[children.length]? = some p.stage)
    (hswept : sweepable p.path = true) :
    ({ s with processes := s.processes ++ [p] }.goesOn i l
      (Launch.Phase.spawning (children ++ [p]))).Tracked := by
  have hmem := List.mem_of_getElem? hl
  have hown : ∀ q ∈ s.processes, q.launch = l.id → q ∈ children := by
    intro q hq hqlaunch
    obtain ⟨children', hphase', hq'⟩ := h.held l hmem q hq hqlaunch
    rw [hphase] at hphase'
    cases hphase'
    exact hq'
  have horder := h.inOrder l hmem children hphase
  have hkey : p.key ∉ s.processes.map Process.key := by
    intro hp
    obtain ⟨q, hq, hqkey⟩ := List.mem_map.mp hp
    have hqchild := hown q hq ((congrArg Prod.fst hqkey).trans hlaunch)
    have hqmem : q.key ∈ (Stage.order.take children.length).map (l.id, ·) :=
      horder ▸ List.mem_map_of_mem hqchild
    obtain ⟨stage, hearlier, heq⟩ := List.mem_map.mp hqmem
    have hsame : stage = p.stage := by
      have hsnd : stage = q.stage := congrArg Prod.snd heq
      exact hsnd.trans (congrArg Prod.snd hqkey)
    exact not_mem_take_order hstage (hsame ▸ hearlier)
  constructor
  · intro m hm
    rcases mem_goesOn h.ids hl _ hm with rfl | ⟨hm, -⟩
    · exact h.idsFresh l hmem
    · exact h.idsFresh m hm
  · intro q hq
    rcases List.mem_append.mp hq with hq | hq
    · exact h.launchFresh q hq
    · rw [List.mem_singleton.mp hq, hlaunch]
      exact h.idsFresh l hmem
  · exact (ids_goesOn (s := s) hl _).symm ▸ h.ids
  · have hkeys : (s.processes ++ [p]).map Process.key = s.processes.map Process.key ++ [p.key] :=
      List.map_append
    show ((s.processes ++ [p]).map Process.key).Nodup
    rw [hkeys]
    exact List.nodup_append.mpr ⟨h.keys, List.nodup_singleton _, fun a ha b hb hab =>
      hkey (List.mem_singleton.mp hb ▸ hab ▸ ha)⟩
  · intro q hq
    rcases List.mem_append.mp hq with hq | hq
    · exact h.swept q hq
    · exact List.mem_singleton.mp hq ▸ hswept
  · intro m hm q hq hqlaunch
    rcases List.mem_append.mp hq with hq | hq
    · rcases mem_goesOn h.ids hl _ hm with rfl | ⟨hm, -⟩
      · exact ⟨_, rfl, List.mem_append_left _ (hown q hq hqlaunch)⟩
      · exact h.held m hm q hq hqlaunch
    · obtain rfl := List.mem_singleton.mp hq
      rcases mem_goesOn h.ids hl _ hm with rfl | ⟨-, hne⟩
      · exact ⟨_, rfl, List.mem_append_right _ List.mem_cons_self⟩
      · exact absurd (hqlaunch.symm.trans hlaunch) hne
  · intro m hm children' hphase'
    rcases mem_goesOn h.ids hl _ hm with rfl | ⟨hm, -⟩
    · cases hphase'
      have hpair : p.key = (l.id, p.stage) := congrArg (·, p.stage) hlaunch
      rw [List.length_append, List.length_singleton, List.take_add_one, hstage, List.map_append,
        List.map_append, horder]
      exact congrArg (_ ++ [·]) hpair
    · exact h.inOrder m hm children' hphase'

theorem params_goesOn {i : ℕ} {l : Launch F} (hl : s.launches[i]? = some l)
    (phase : Launch.Phase) : ∀ m ∈ (s.goesOn i l phase).launches,
      ∃ m' ∈ s.launches, m'.id = m.id ∧ m'.params = m.params := by
  intro m hm
  rcases List.mem_or_eq_of_mem_set hm with hm | rfl
  · exact ⟨m, hm, rfl, rfl⟩
  · exact ⟨l, List.mem_of_getElem? hl, rfl, rfl⟩

theorem mem_ends {i : ℕ} {l m : Launch F} (hl : s.launches[i]? = some l) (hm : m ∈ s.launches)
    (hne : m.id ≠ l.id) : m ∈ (s.ends i).launches := by
  obtain ⟨j, hj⟩ := List.mem_iff_getElem?.mp hm
  refine List.mem_eraseIdx_iff_getElem?.mpr ⟨j, ?_, hj⟩
  rintro rfl
  rw [hl] at hj
  exact hne (congrArg Launch.id (Option.some.inj hj)).symm

theorem tracked_new : (ControlServer.new : ControlServer F).Tracked :=
  ⟨fun _ h => absurd h List.not_mem_nil, fun _ h => absurd h List.not_mem_nil, List.nodup_nil,
    List.nodup_nil, fun _ h => absurd h List.not_mem_nil, fun _ h => absurd h List.not_mem_nil,
    fun _ h => absurd h List.not_mem_nil⟩

end Tracked

/-! ## What a step can do -/

section Moves

variable [ConsoleF64 F]

/-- The moves of the server. -/
inductive ControlServer.Move (s : ControlServer F) :
    ControlAction → ControlServer F × Emitted → Prop
  | idle {a : ControlAction} : Move s a (s, Emitted.silent)
  | exits (j : ℕ) : Move s (ControlAction.exits j)
      ({ s with processes := s.processes.eraseIdx j }, Emitted.silent)
  | asked {method : Method} {url body : String} {lines : List String} :
      handle method url = Route.run → Move s (ControlAction.request method url body)
        ({ s with
            launches := s.launches
              ++ [⟨s.next, StrategyParams.fromParamsJson body, Launch.Phase.stopping⟩]
            next := s.next + 1 }, ⟨lines, none⟩)
  | stopped {method : Method} {url body : String} {lines : List String} :
      handle method url = Route.stop →
        Move s (ControlAction.request method url body) (s.kill, ⟨lines, some Reply.stopped⟩)
  | stops {i : ℕ} {found : Found} {l : Launch F} : s.launches[i]? = some l →
      l.phase = Launch.Phase.stopping → Move s (ControlAction.advance i found)
        (s.kill.goesOn i l Launch.Phase.cleaning, Emitted.silent)
  | cleans {i : ℕ} {found : Found} {l : Launch F} : s.launches[i]? = some l →
      l.phase = Launch.Phase.cleaning → Move s (ControlAction.advance i found)
        (s.sweep.goesOn i l (Launch.Phase.spawning []), Emitted.silent)
  | spawns {i : ℕ} {found : Found} {l : Launch F} {children : List Process} {p : Process} :
      s.launches[i]? = some l → l.phase = Launch.Phase.spawning children →
      p.launch = l.id → Stage.order[children.length]? = some p.stage →
      sweepable p.path = true → (∃ graph, p.envs = l.params.envs graph p.stage) →
        Move s (ControlAction.advance i found)
          ({ s with processes := s.processes ++ [p] }.goesOn i l
            (Launch.Phase.spawning (children ++ [p])), Emitted.silent)
  | fails {i : ℕ} {found : Found} {l : Launch F} {lines : List String} {e : String} :
      s.launches[i]? = some l → Move s (ControlAction.advance i found)
        (s.ends i, ⟨lines, some (Reply.failed l.id e)⟩)
  | registers {i : ℕ} {found : Found} {l : Launch F} {children : List Process} :
      s.launches[i]? = some l → l.phase = Launch.Phase.spawning children →
      Stage.order[children.length]? = none → Move s (ControlAction.advance i found)
        ({ s with running := some children }.ends i, ⟨[], some (Reply.launched l.id)⟩)

theorem move_step (manifest : String) (s : ControlServer F) (a : ControlAction) :
    s.Move a (s.step manifest a) := by
  cases a with
  | exits j => exact ControlServer.Move.exits j
  | request method url body =>
      rw [ControlServer.step]
      cases hroute : handle method url with
      | run => exact ControlServer.Move.asked hroute
      | stop => exact ControlServer.Move.stopped hroute
      | index => exact ControlServer.Move.idle
      | events => exact ControlServer.Move.idle
      | notFound => exact ControlServer.Move.idle
  | advance i found =>
      rw [ControlServer.step, ControlServer.advance]
      cases hl : s.launches[i]? with
      | none => exact ControlServer.Move.idle
      | some l =>
          dsimp only
          cases hphase : l.phase with
          | stopping => exact ControlServer.Move.stops hl hphase
          | cleaning => exact ControlServer.Move.cleans hl hphase
          | spawning children =>
              dsimp only
              cases hstage : Stage.order[children.length]? with
              | none => exact ControlServer.Move.registers hl hphase hstage
              | some stage =>
                  dsimp only
                  rw [ControlServer.spawnStage]
                  cases found.error with
                  | none =>
                      exact ControlServer.Move.spawns hl hphase rfl hstage
                        (sweepable_exe manifest found stage) ⟨_, rfl⟩
                  | some e => exact ControlServer.Move.fails hl

theorem tracked_move {s : ControlServer F} (h : s.Tracked) {a : ControlAction}
    {r : ControlServer F × Emitted} (hmove : s.Move a r) : r.1.Tracked := by
  cases hmove with
  | idle => exact h
  | exits j =>
      exact h.sub (List.eraseIdx_sublist _ _) (List.Sublist.refl _) rfl
  | stopped _ => exact tracked_kill h
  | fails _ => exact h.sub (List.Sublist.refl _) (List.eraseIdx_sublist _ _) rfl
  | registers _ _ _ => exact h.sub (List.Sublist.refl _) (List.eraseIdx_sublist _ _) rfl
  | spawns hl hphase hlaunch hstage hswept _ =>
      exact tracked_spawn h hl hphase hlaunch hstage hswept
  | @stops i _ l hl hphase =>
      have hl' : s.kill.launches[i]? = some l := (launches_kill s).1 ▸ hl
      refine tracked_goesOn (tracked_kill h) hl' (fun p hp hlaunch => ?_) fun _ hc => by cases hc
      obtain ⟨children, hspawning, -⟩ :=
        (tracked_kill h).held l (List.mem_of_getElem? hl') p hp hlaunch
      rw [hphase] at hspawning
      cases hspawning
  | @cleans i _ l hl hphase =>
      refine tracked_goesOn (tracked_sweep h) hl (fun p hp _ => ?_) fun children hc => ?_
      · rw [processes_sweep h] at hp
        cases hp
      · cases hc
        rfl
  | asked _ =>
      constructor
      · intro l hl
        rcases List.mem_append.mp hl with hl | hl
        · exact Nat.lt_succ_of_lt (h.idsFresh l hl)
        · rw [List.mem_singleton.mp hl]
          exact Nat.lt_succ_self s.next
      · exact fun p hp => Nat.lt_succ_of_lt (h.launchFresh p hp)
      · rw [List.map_append]
        refine List.nodup_append.mpr ⟨h.ids, List.nodup_singleton _, fun i hi j hj hij => ?_⟩
        obtain ⟨l, hl, rfl⟩ := List.mem_map.mp hi
        have hnext : j = s.next := List.mem_singleton.mp hj
        exact Nat.lt_irrefl _ (hnext ▸ hij ▸ h.idsFresh l hl)
      · exact h.keys
      · exact h.swept
      · intro l hl p hp hlaunch
        rcases List.mem_append.mp hl with hl | hl
        · exact h.held l hl p hp hlaunch
        · rw [List.mem_singleton.mp hl] at hlaunch
          exact absurd (h.launchFresh p hp) (hlaunch ▸ Nat.lt_irrefl _)
      · intro l hl children hphase
        rcases List.mem_append.mp hl with hl | hl
        · exact h.inOrder l hl children hphase
        · rw [List.mem_singleton.mp hl] at hphase
          cases hphase

end Moves

end HotpathIpc
