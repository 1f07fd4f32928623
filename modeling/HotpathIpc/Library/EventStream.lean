import Mathlib.Data.List.Basic
import Mathlib.Tactic.Common

/-!
# Text event streams

A stream of unnamed events, each with the lines of its data, as a reader takes it character by
character.

* `Reader.feed` — one character; a line ends with a line feed, a carriage return or both, and an
  empty one dispatches the event.
* `frame` — an event with one line of data.
* **`read_frames`** — a stream of frames is read as its lines; **`read_cut`** — and a frame that is
  cut off is not read.
-/

namespace EventStream

/-- A reader between two characters: the line so far, whether it follows a carriage return, the
data so far, and the events before. -/
structure Reader where
  line : List Char
  cr : Bool
  data : List Char
  events : List (List Char)
deriving DecidableEq

/-- A reader before an event. -/
def Reader.ready (events : List (List Char)) : Reader := ⟨[], false, [], events⟩

def Reader.endLine (r : Reader) : Reader :=
  if r.line = [] then
    { r with
      data := []
      events := if r.data = [] then r.events else r.events ++ [r.data.dropLast] }
  else
    let field := r.line.takeWhile fun c => c ≠ ':'
    let value := (r.line.dropWhile fun c => c ≠ ':').drop 1
    let value := if value.head? = some ' ' then value.drop 1 else value
    { r with
      line := []
      data := if field = ['d', 'a', 't', 'a'] then r.data ++ (value ++ ['\n']) else r.data }

def Reader.feed (r : Reader) (c : Char) : Reader :=
  if c = '\n' then
    if r.cr then { r with cr := false } else r.endLine
  else if c = '\r' then { r.endLine with cr := true }
  else { r with line := r.line ++ [c], cr := false }

def read (stream : List Char) : Reader := stream.foldl Reader.feed (Reader.ready [])

/-- The events of a stream that are complete. -/
def events (stream : List Char) : List (List Char) := (read stream).events

def label : List Char := ['d', 'a', 't', 'a', ':', ' ']

/-- An event with one line of data. -/
def frame (line : List Char) : List Char := label ++ line ++ ['\n', '\n']

/-- Characters within a line. -/
theorem feed_plain : ∀ {u : List Char}, '\n' ∉ u → '\r' ∉ u → ∀ r : Reader, r.cr = false →
    u.foldl Reader.feed r = { r with line := r.line ++ u }
  | [], _, _, r, _ => by rw [List.append_nil]; rfl
  | c :: u, hn, hr, r, hcr => by
      obtain ⟨hcn, hn⟩ := not_or.mp (List.mem_cons.not.mp hn)
      obtain ⟨hcc, hr⟩ := not_or.mp (List.mem_cons.not.mp hr)
      have hfeed : r.feed c = { r with line := r.line ++ [c] } := by
        rw [Reader.feed, if_neg fun h => hcn h.symm, if_neg fun h => hcc h.symm, hcr]
      rw [List.foldl_cons, hfeed]
      refine (feed_plain hn hr { r with line := r.line ++ [c] } hcr).trans ?_
      rw [List.append_assoc, List.singleton_append]

section Frames

variable {line : List Char} (hn : '\n' ∉ line) (hr : '\r' ∉ line) (before : List (List Char))

include hn hr

theorem not_mem_labelled : '\n' ∉ label ++ line ∧ '\r' ∉ label ++ line := by
  have hlabel : '\n' ∉ label ∧ '\r' ∉ label := by decide
  exact ⟨fun h => (List.mem_append.mp h).elim hlabel.1 hn,
    fun h => (List.mem_append.mp h).elim hlabel.2 hr⟩

/-- A frame up to the end of its line. -/
theorem feed_line : (label ++ line ++ ['\n']).foldl Reader.feed (Reader.ready before)
    = ⟨[], false, line ++ ['\n'], before⟩ := by
  obtain ⟨hn', hr'⟩ := not_mem_labelled hn hr
  rw [List.foldl_append, feed_plain hn' hr' _ rfl]
  rfl

theorem feed_frame :
    (frame line).foldl Reader.feed (Reader.ready before) = Reader.ready (before ++ [line]) := by
  have hsplit : frame line = (label ++ line ++ ['\n']) ++ ['\n'] := by simp [frame]
  have hdata : line ++ ['\n'] ≠ [] := List.append_ne_nil_of_right_ne_nil _ (List.cons_ne_nil _ _)
  rw [hsplit, List.foldl_append, feed_line hn hr]
  have hend : Reader.feed ⟨[], false, line ++ ['\n'], before⟩ '\n'
      = Reader.ready (if line ++ ['\n'] = [] then before
          else before ++ [(line ++ ['\n']).dropLast]) := rfl
  rw [if_neg hdata, List.dropLast_concat] at hend
  exact hend

/-- What is sent of a frame is read as nothing, or as the frame. -/
theorem feed_cut (k : ℕ) :
    (((frame line).take k).foldl Reader.feed (Reader.ready before)).events = before ∨
      (((frame line).take k).foldl Reader.feed (Reader.ready before)).events
        = before ++ [line] := by
  obtain ⟨hn', hr'⟩ := not_mem_labelled hn hr
  rcases Nat.lt_or_ge (label ++ line).length k with hk | hk
  · obtain ⟨k, rfl⟩ := Nat.exists_eq_add_of_lt hk
    rw [frame, Nat.add_assoc, List.take_length_add_append]
    cases k with
    | zero =>
        have hone : (['\n', '\n'] : List Char).take (0 + 1) = ['\n'] := rfl
        rw [hone, feed_line hn hr]
        exact Or.inl rfl
    | succ k =>
        have htwo : (['\n', '\n'] : List Char).take (k + 1 + 1) = ['\n', '\n'] := by simp
        rw [htwo]
        exact Or.inr (congrArg Reader.events (feed_frame hn hr before))
  · rw [frame, List.take_append_of_le_length hk, feed_plain
      (fun h => hn' (List.mem_of_mem_take h)) (fun h => hr' (List.mem_of_mem_take h)) _ rfl]
    exact Or.inl rfl

end Frames

variable {lines : List (List Char)}

/-- **Frames are read as their lines.** -/
theorem read_frames (h : ∀ line ∈ lines, '\n' ∉ line ∧ '\r' ∉ line) :
    read (lines.flatMap frame) = Reader.ready lines := by
  have hfrom : ∀ (before lines : List (List Char)), (∀ line ∈ lines, '\n' ∉ line ∧ '\r' ∉ line) →
      (lines.flatMap frame).foldl Reader.feed (Reader.ready before)
        = Reader.ready (before ++ lines) := by
    intro before lines
    induction lines generalizing before with
    | nil =>
        intro _
        rw [List.append_nil]
        rfl
    | cons line lines ih =>
        intro h
        obtain ⟨hn, hr⟩ := h line List.mem_cons_self
        rw [List.flatMap_cons, List.foldl_append, feed_frame hn hr,
          ih _ fun line' h' => h line' (List.mem_cons_of_mem _ h'), List.append_assoc]
        rfl
  exact hfrom [] lines h

/-- **A stream that is cut off** within a frame, or behind it, is read as the frames before, or with
this one. -/
theorem read_cut (h : ∀ line ∈ lines, '\n' ∉ line ∧ '\r' ∉ line) {line : List Char}
    (hn : '\n' ∉ line) (hr : '\r' ∉ line) (k : ℕ) :
    events (lines.flatMap frame ++ (frame line).take k) = lines ∨
      events (lines.flatMap frame ++ (frame line).take k) = lines ++ [line] := by
  have hread := read_frames h
  rw [read] at hread
  rw [events, read, List.foldl_append, hread]
  exact feed_cut hn hr lines k

end EventStream
