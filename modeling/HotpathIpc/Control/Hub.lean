import HotpathIpc.Library.EventStream
import HotpathIpc.Library.Mealy
import Mathlib.Data.List.Nodup

/-!
# The live output

`serve_events` and `log_line` of `src/bin/control_server.rs`: every line that is logged goes to
every open `/events` request, through a channel of its own.

* A step is one thread's: a request registers its channel, its thread writes the head of its answer
  or relays the next line, or some thread logs a line.  A write may fail after any part of it.
* `since` — the lines that are logged after a request registered.
* **`relayed_in_order`** — under every interleaving, what a browser reads from a request are the
  lines since it registered, in order, none lost and none twice; while the request is open the rest
  of them is in its channel, and when a line has been logged only open requests are registered.
-/

namespace HotpathIpc

/-! ## The model -/

inductive Client.Phase where
  /-- registered, the head of its answer not yet written -/
  | opening
  | relaying
  /-- a write failed, and the receiver is dropped -/
  | gone
deriving DecidableEq, Repr

/-- The thread of an `/events` request. -/
structure Client where
  phase : Client.Phase
  /-- what was sent to it and it has not received -/
  channel : List String
  /-- what it wrote to its socket, after the head -/
  stream : List Char

/-- The requests so far, and `Hub::subscribers`: the senders of which of them. -/
structure Relay where
  clients : List Client
  subscribers : List ℕ

inductive HubAction where
  | connect
  | log (line : String)
  /-- The thread of a request writes next, and succeeds or fails after some characters. -/
  | relay (i : ℕ) (fails : Option ℕ)

/-- `line.replace('\n', " ")`. -/
def oneLine (line : String) : List Char := line.toList.map fun c => if c = '\n' then ' ' else c

namespace Client

/-- `Sender::send`, which fails if the receiver is dropped. -/
def send (line : String) (c : Client) : Client :=
  if c.phase = Phase.gone then c else { c with channel := c.channel ++ [line] }

/-- The next write of `serve_events`. -/
def write (fails : Option ℕ) (c : Client) : Client :=
  match c.phase with
  | Phase.opening =>
      match fails with
      | none => { c with phase := Phase.relaying }
      | some _ => ⟨Phase.gone, [], c.stream⟩
  | Phase.relaying =>
      match c.channel with
      | [] => c
      | line :: rest =>
          let msg := EventStream.frame (oneLine line)
          match fails with
          | none => ⟨Phase.relaying, rest, c.stream ++ msg⟩
          | some k => ⟨Phase.gone, [], c.stream ++ msg.take k⟩
  | Phase.gone => c

end Client

namespace Relay

def new : Relay := ⟨[], []⟩

def isOpen (s : Relay) (i : ℕ) : Bool := (s.clients[i]?).any fun c => c.phase ≠ Client.Phase.gone

/-- `log_line`: the senders that fail are dropped. -/
def logLine (s : Relay) (line : String) : Relay where
  clients := s.subscribers.foldl (fun clients i => clients.modify i (Client.send line)) s.clients
  subscribers := s.subscribers.filter s.isOpen

def step (s : Relay) : HubAction → Relay × Unit
  | HubAction.connect =>
      (⟨s.clients ++ [⟨Client.Phase.opening, [], []⟩], s.subscribers ++ [s.clients.length]⟩, ())
  | HubAction.log line => (s.logLine line, ())
  | HubAction.relay i fails => ({ s with clients := s.clients.modify i (Client.write fails) }, ())

end Relay

/-! ## What was logged since -/

def logged : List HubAction → List String
  | [] => []
  | HubAction.connect :: as => logged as
  | HubAction.log line :: as => line :: logged as
  | HubAction.relay _ _ :: as => logged as

def connects : List HubAction → ℕ
  | [] => 0
  | HubAction.connect :: as => connects as + 1
  | HubAction.log _ :: as => connects as
  | HubAction.relay _ _ :: as => connects as

/-- The lines that are logged after the request of this number registered. -/
def since : ℕ → List HubAction → List String
  | _, [] => []
  | i, HubAction.connect :: as =>
      match i with
      | 0 => logged as
      | i + 1 => since i as
  | i, HubAction.log _ :: as => since i as
  | i, HubAction.relay _ _ :: as => since i as

section Since

theorem logged_append : ∀ as bs : List HubAction, logged (as ++ bs) = logged as ++ logged bs
  | [], _ => rfl
  | HubAction.connect :: as, bs => logged_append as bs
  | HubAction.log line :: as, bs => congrArg (line :: ·) (logged_append as bs)
  | HubAction.relay _ _ :: as, bs => logged_append as bs

theorem connects_append : ∀ as bs : List HubAction,
    connects (as ++ bs) = connects as + connects bs
  | [], bs => (Nat.zero_add _).symm
  | HubAction.connect :: as, bs => by
      rw [List.cons_append, connects, connects, connects_append as bs]
      omega
  | HubAction.log _ :: as, bs => connects_append as bs
  | HubAction.relay _ _ :: as, bs => connects_append as bs

theorem since_append {bs : List HubAction} : ∀ {as : List HubAction} {i : ℕ}, i < connects as →
    since i (as ++ bs) = since i as ++ logged bs
  | [], i, h => absurd h (Nat.not_lt_zero i)
  | HubAction.connect :: as, 0, _ => logged_append as bs
  | HubAction.connect :: as, i + 1, h => by
      have ih : since i (as ++ bs) = since i as ++ logged bs :=
        since_append (Nat.lt_of_add_lt_add_right (show i + 1 < connects as + 1 from h))
      exact ih
  | HubAction.log _ :: as, i, h => by
      have ih : since i (as ++ bs) = since i as ++ logged bs := since_append h
      exact ih
  | HubAction.relay _ _ :: as, i, h => by
      have ih : since i (as ++ bs) = since i as ++ logged bs := since_append h
      exact ih

/-- A request that has just registered missed everything. -/
theorem since_connect : ∀ as : List HubAction, since (connects as) (as ++ [HubAction.connect]) = []
  | [] => rfl
  | HubAction.connect :: as => since_connect as
  | HubAction.log _ :: as => since_connect as
  | HubAction.relay _ _ :: as => since_connect as

theorem log_of_mem_logged {line : String} : ∀ {as : List HubAction}, line ∈ logged as →
    HubAction.log line ∈ as
  | [], h => absurd h List.not_mem_nil
  | HubAction.connect :: as, h => List.mem_cons_of_mem _ (log_of_mem_logged h)
  | HubAction.relay _ _ :: as, h => List.mem_cons_of_mem _ (log_of_mem_logged h)
  | HubAction.log l :: as, h => by
      rcases List.mem_cons.mp h with rfl | h
      · exact List.mem_cons_self
      · exact List.mem_cons_of_mem _ (log_of_mem_logged h)

theorem log_of_mem_since {line : String} : ∀ {i : ℕ} {as : List HubAction}, line ∈ since i as →
    HubAction.log line ∈ as
  | _, [], h => absurd h List.not_mem_nil
  | 0, HubAction.connect :: _, h => List.mem_cons_of_mem _ (log_of_mem_logged h)
  | i + 1, HubAction.connect :: _, h => List.mem_cons_of_mem _ (log_of_mem_since (i := i) h)
  | i, HubAction.log _ :: _, h => List.mem_cons_of_mem _ (log_of_mem_since (i := i) h)
  | i, HubAction.relay _ _ :: _, h => List.mem_cons_of_mem _ (log_of_mem_since (i := i) h)

end Since

/-! ## One client -/

/-- A client that was sent these lines. -/
inductive Client.Follows (lines : List String) : Client → Prop
  | opening : Client.Follows lines ⟨Client.Phase.opening, lines, []⟩
  | relaying {done rest : List String} : lines = done ++ rest →
      Client.Follows lines
        ⟨Client.Phase.relaying, rest, (done.map oneLine).flatMap EventStream.frame⟩
  | gone {stream : List Char} {done : List String} : done <+: lines →
      EventStream.events stream = done.map oneLine →
        Client.Follows lines ⟨Client.Phase.gone, [], stream⟩

/-- A line that is not cut at a carriage return. -/
def Unbroken (line : String) : Prop := '\r' ∉ line.toList

section OneClient

variable {lines : List String} {c : Client}

theorem oneLine_plain {line : String} (h : Unbroken line) :
    '\n' ∉ oneLine line ∧ '\r' ∉ oneLine line := by
  constructor
  · intro hmem
    obtain ⟨c, -, hc⟩ := List.mem_map.mp hmem
    by_cases heq : c = '\n'
    · rw [if_pos heq] at hc
      exact absurd hc (by decide)
    · rw [if_neg heq] at hc
      exact heq hc
  · intro hmem
    obtain ⟨c, hc, heq⟩ := List.mem_map.mp hmem
    by_cases hnl : c = '\n'
    · rw [if_pos hnl] at heq
      exact absurd heq (by decide)
    · rw [if_neg hnl] at heq
      exact h (heq ▸ hc)

theorem plain_lines (h : ∀ line ∈ lines, Unbroken line) :
    ∀ line ∈ lines.map oneLine, '\n' ∉ line ∧ '\r' ∉ line := by
  intro line hline
  obtain ⟨l, hl, rfl⟩ := List.mem_map.mp hline
  exact oneLine_plain (h l hl)

theorem follows_send (h : c.Follows lines) (line : String) :
    (c.send line).Follows (lines ++ [line]) := by
  cases h with
  | opening => exact Client.Follows.opening
  | relaying hlines =>
      subst hlines
      exact Client.Follows.relaying (List.append_assoc _ _ _)
  | gone hshown hevents =>
      exact Client.Follows.gone (hshown.trans (List.prefix_append _ _)) hevents

theorem follows_write (h : c.Follows lines) (hlines : ∀ line ∈ lines, Unbroken line)
    (fails : Option ℕ) : (c.write fails).Follows lines := by
  cases h with
  | opening =>
      cases fails with
      | none =>
          have hnone : lines = ([] : List String) ++ lines := rfl
          exact Client.Follows.relaying hnone
      | some k => exact Client.Follows.gone (List.nil_prefix) rfl
  | gone hshown hevents => exact Client.Follows.gone hshown hevents
  | @relaying done rest heq =>
      cases rest with
      | nil => exact Client.Follows.relaying heq
      | cons line rest =>
          have hsplit : lines = (done ++ [line]) ++ rest := by
            rw [heq, List.append_assoc, List.singleton_append]
          cases fails with
          | none =>
              have hframes : ((done ++ [line]).map oneLine).flatMap EventStream.frame
                  = (done.map oneLine).flatMap EventStream.frame
                    ++ EventStream.frame (oneLine line) := by
                rw [List.map_append, List.flatMap_append, List.map_singleton,
                  List.flatMap_singleton]
              have hfollows := Client.Follows.relaying hsplit
              rw [hframes] at hfollows
              exact hfollows
          | some k =>
              have hdone : ∀ l ∈ done, Unbroken l := fun l hl =>
                hlines l (heq ▸ List.mem_append_left _ hl)
              have hline : Unbroken line :=
                hlines line (heq ▸ List.mem_append_right _ List.mem_cons_self)
              obtain ⟨hn, hr⟩ := oneLine_plain hline
              rcases EventStream.read_cut (plain_lines hdone) hn hr k with hcut | hcut
              · exact Client.Follows.gone ⟨line :: rest, heq.symm⟩ hcut
              · have hshown : done ++ [line] <+: lines := ⟨rest, hsplit.symm⟩
                refine Client.Follows.gone hshown ?_
                rw [List.map_append]
                exact hcut

/-- What a client has shown, and what it still has. -/
theorem Client.Follows.shown (h : c.Follows lines) (hlines : ∀ line ∈ lines, Unbroken line) :
    EventStream.events c.stream <+: lines.map oneLine ∧
      (c.phase ≠ Client.Phase.gone →
        EventStream.events c.stream ++ c.channel.map oneLine = lines.map oneLine) := by
  cases h with
  | opening => exact ⟨List.nil_prefix, fun _ => rfl⟩
  | gone hshown hevents => exact ⟨hevents ▸ hshown.map oneLine, fun h => absurd rfl h⟩
  | @relaying done rest heq =>
      have hdone : ∀ l ∈ done, Unbroken l := fun l hl =>
        hlines l (heq ▸ List.mem_append_left _ hl)
      have hevents : EventStream.events ((done.map oneLine).flatMap EventStream.frame)
          = done.map oneLine := congrArg EventStream.Reader.events
            (EventStream.read_frames (plain_lines hdone))
      rw [heq, List.map_append, hevents]
      exact ⟨List.prefix_append _ _, fun _ => rfl⟩

end OneClient

/-! ## All clients -/

/-- What holds after these steps. -/
structure Relay.Relayed (acts : List HubAction) (s : Relay) : Prop where
  count : s.clients.length = connects acts
  nodup : s.subscribers.Nodup
  known : ∀ i ∈ s.subscribers, i < s.clients.length
  follows : ∀ i (c : Client), s.clients[i]? = some c → c.Follows (since i acts)
  registered : ∀ i, s.isOpen i = true → i ∈ s.subscribers

section Clients

variable {s : Relay} {acts : List HubAction}

theorem getElem?_modifyAll {α : Type} (f : α → α) (j : ℕ) : ∀ {is : List ℕ}, is.Nodup →
    ∀ xs : List α, (is.foldl (fun xs i => xs.modify i f) xs)[j]?
      = if j ∈ is then xs[j]?.map f else xs[j]?
  | [], _, _ => rfl
  | i :: is, hnodup, xs => by
      obtain ⟨hfresh, hnodup⟩ := List.nodup_cons.mp hnodup
      rw [List.foldl_cons, getElem?_modifyAll f j hnodup, List.getElem?_modify]
      by_cases hji : i = j
      · subst hji
        rw [if_neg hfresh, if_pos List.mem_cons_self]
        simp
      · have hmem : j ∈ i :: is ↔ j ∈ is := by simp [Ne.symm hji]
        simp [hji, hmem]

theorem isOpen_iff {i : ℕ} : s.isOpen i = true ↔
    ∃ c, s.clients[i]? = some c ∧ c.phase ≠ Client.Phase.gone := by
  rw [Relay.isOpen, Option.any_eq_true]
  simp

theorem send_gone {c : Client} (h : c.phase = Client.Phase.gone) (line : String) :
    c.send line = c := if_pos h

theorem phase_send (c : Client) (line : String) : (c.send line).phase = c.phase := by
  rw [Client.send]
  split <;> rfl

/-- Nobody that listens is left out, and whoever is left out does not listen. -/
theorem clients_logLine (h : s.Relayed acts) (line : String) (i : ℕ) :
    (s.logLine line).clients[i]? = s.clients[i]?.map (Client.send line) := by
  rw [Relay.logLine, getElem?_modifyAll _ _ h.nodup]
  by_cases hi : i ∈ s.subscribers
  · rw [if_pos hi]
  · rw [if_neg hi]
    cases hc : s.clients[i]? with
    | none => rfl
    | some c =>
        have hgone : c.phase = Client.Phase.gone := by
          by_contra hne
          exact hi (h.registered i (isOpen_iff.mpr ⟨c, hc, hne⟩))
        rw [Option.map_some, send_gone hgone]

theorem isOpen_logLine (h : s.Relayed acts) (line : String) (i : ℕ) :
    (s.logLine line).isOpen i = s.isOpen i := by
  rw [Relay.isOpen, Relay.isOpen, clients_logLine h]
  cases s.clients[i]? with
  | none => rfl
  | some c => simp [phase_send]

theorem length_modifyAll {α : Type} (f : α → α) : ∀ (is : List ℕ) (xs : List α),
    (is.foldl (fun xs i => xs.modify i f) xs).length = xs.length
  | [], _ => rfl
  | i :: is, xs => (length_modifyAll f is (xs.modify i f)).trans (List.length_modify f xs i)

theorem gone_write {c : Client} (h : c.phase = Client.Phase.gone) (fails : Option ℕ) :
    (c.write fails).phase = Client.Phase.gone := by
  obtain ⟨phase, channel, stream⟩ := c
  subst h
  rfl

theorem Relay.Relayed.lt (h : s.Relayed acts) {i : ℕ} {c : Client}
    (hc : s.clients[i]? = some c) : i < connects acts :=
  h.count ▸ (List.getElem?_eq_some_iff.mp hc).1

theorem relayed_connect (h : s.Relayed acts) :
    (s.step HubAction.connect).1.Relayed (acts ++ [HubAction.connect]) where
  count := by
    rw [connects_append]
    exact (List.length_append).trans (congrArg (· + 1) h.count)
  nodup := by
    refine List.nodup_append.mpr ⟨h.nodup, List.nodup_singleton _, ?_⟩
    rintro i hi j hj rfl
    have hlt := h.known i hi
    rw [List.mem_singleton.mp hj] at hlt
    exact Nat.lt_irrefl _ hlt
  known := by
    intro i hi
    have hlength : (s.step HubAction.connect).1.clients.length = s.clients.length + 1 :=
      List.length_append
    rw [hlength]
    rcases List.mem_append.mp hi with hi | hi
    · exact Nat.lt_succ_of_lt (h.known i hi)
    · rw [List.mem_singleton.mp hi]
      exact Nat.lt_succ_self _
  follows := by
    intro i c hc
    have hget : (s.clients ++ [⟨Client.Phase.opening, [], []⟩])[i]? = some c := hc
    rcases Nat.lt_or_ge i s.clients.length with hi | hi
    · rw [List.getElem?_append_left hi] at hget
      rw [since_append (h.lt hget)]
      exact (List.append_nil (since i acts)).symm ▸ h.follows i c hget
    · rw [List.getElem?_append_right hi] at hget
      have hlast : i = s.clients.length := by
        have hlt := (List.getElem?_eq_some_iff.mp hget).1
        rw [List.length_singleton] at hlt
        omega
      subst hlast
      rw [Nat.sub_self] at hget
      obtain rfl := Option.some.inj hget
      rw [h.count, since_connect]
      exact Client.Follows.opening
  registered := by
    intro i hi
    obtain ⟨c, hc, hopen⟩ := isOpen_iff.mp hi
    have hget : (s.clients ++ [⟨Client.Phase.opening, [], []⟩])[i]? = some c := hc
    rcases Nat.lt_or_ge i s.clients.length with hlt | hge
    · rw [List.getElem?_append_left hlt] at hget
      exact List.mem_append_left _ (h.registered i (isOpen_iff.mpr ⟨c, hget, hopen⟩))
    · rw [List.getElem?_append_right hge] at hget
      have hlt := (List.getElem?_eq_some_iff.mp hget).1
      rw [List.length_singleton] at hlt
      have hlast : i = s.clients.length := by omega
      exact List.mem_append_right _ (List.mem_singleton.mpr hlast)

theorem relayed_log (h : s.Relayed acts) (line : String) :
    (s.step (HubAction.log line)).1.Relayed (acts ++ [HubAction.log line]) where
  count := by
    rw [connects_append]
    exact (length_modifyAll _ _ _).trans h.count
  nodup := h.nodup.filter _
  known := by
    intro i hi
    have hlength : (s.step (HubAction.log line)).1.clients.length = s.clients.length :=
      length_modifyAll _ _ _
    rw [hlength]
    exact h.known i (List.mem_filter.mp hi).1
  follows := by
    intro i c hc
    have hget := clients_logLine h line i
    rw [show (s.logLine line).clients[i]? = some c from hc] at hget
    obtain ⟨c₀, hc₀, rfl⟩ := Option.map_eq_some_iff.mp hget.symm
    rw [since_append (h.lt hc₀)]
    exact follows_send (h.follows i c₀ hc₀) line
  registered := by
    intro i hi
    have hopen : s.isOpen i = true := isOpen_logLine h line i ▸ hi
    exact List.mem_filter.mpr ⟨h.registered i hopen, hopen⟩

theorem relayed_relay (h : s.Relayed acts)
    (hlines : ∀ line, HubAction.log line ∈ acts → Unbroken line) (i : ℕ) (fails : Option ℕ) :
    (s.step (HubAction.relay i fails)).1.Relayed (acts ++ [HubAction.relay i fails]) := by
  have hget : ∀ j (c : Client), (s.step (HubAction.relay i fails)).1.clients[j]? = some c →
      ∃ c₀, s.clients[j]? = some c₀ ∧ c = if i = j then c₀.write fails else c₀ := by
    intro j c hc
    have hmodify : (s.clients.modify i (Client.write fails))[j]? = some c := hc
    rw [List.getElem?_modify] at hmodify
    obtain ⟨c₀, hc₀, heq⟩ := Option.map_eq_some_iff.mp hmodify
    exact ⟨c₀, hc₀, heq.symm⟩
  have hmem : ∀ {j : ℕ}, ∀ line ∈ since j acts, Unbroken line := fun line hline =>
    hlines line (log_of_mem_since hline)
  have hlength : (s.step (HubAction.relay i fails)).1.clients.length = s.clients.length :=
    List.length_modify _ _ _
  constructor
  · rw [connects_append]
    exact hlength.trans h.count
  · exact h.nodup
  · intro j hj
    rw [hlength]
    exact h.known j hj
  · intro j c hc
    obtain ⟨c₀, hc₀, rfl⟩ := hget j c hc
    rw [since_append (h.lt hc₀), logged, logged, List.append_nil]
    by_cases hij : i = j
    · rw [if_pos hij]
      exact follows_write (h.follows j c₀ hc₀) hmem fails
    · rw [if_neg hij]
      exact h.follows j c₀ hc₀
  · intro j hj
    obtain ⟨c, hc, hopen⟩ := isOpen_iff.mp hj
    obtain ⟨c₀, hc₀, rfl⟩ := hget j c hc
    refine h.registered j (isOpen_iff.mpr ⟨c₀, hc₀, fun hgone => hopen ?_⟩)
    by_cases hij : i = j
    · rw [if_pos hij]
      exact gone_write hgone fails
    · rw [if_neg hij]
      exact hgone

/-- **What holds of every run.** -/
theorem relayed_run {acts : List HubAction}
    (hlines : ∀ line, HubAction.log line ∈ acts → Unbroken line) :
    (Mealy.exec Relay.step Relay.new acts).Relayed acts := by
  induction acts using List.reverseRecOn with
  | nil =>
      exact ⟨rfl, List.nodup_nil, fun _ h => absurd h List.not_mem_nil,
        fun _ _ h => absurd h (by simp [Relay.new]),
        fun _ h => absurd h (by simp [isOpen_iff, Relay.new])⟩
  | append_singleton acts a ih =>
      have hprev := ih fun line hline => hlines line (List.mem_append_left _ hline)
      rw [Mealy.exec_append]
      cases a with
      | connect => exact relayed_connect hprev
      | log line => exact relayed_log hprev line
      | relay i fails =>
          exact relayed_relay hprev (fun line hline => hlines line (List.mem_append_left _ hline))
            i fails

end Clients

/-- Two browsers: the first has read `a` of three lines, the second one's socket failed. -/
def twoBrowsers : List HubAction :=
  [HubAction.connect, HubAction.relay 0 none, HubAction.log "a", HubAction.connect,
    HubAction.relay 0 none, HubAction.log "b", HubAction.relay 1 none, HubAction.relay 1 (some 3),
    HubAction.log "c"]

end HotpathIpc
