import HotpathIpc.OrderBook.Execution

/-!
# The book is what it shows

A level of a live book with right totals is its queue, and a side is its ladder: cached totals
and the levels' existence follow (`half_eq_of_queues`, `half_eq_of_ladder`).  Two books with the
same ladders and the same index are equal (`book_ext`), which is how equality of books is proved
in the modules after this one.

`Book.Whole` gathers what that needs.  Every book of a run has it, whatever the calls.
-/

namespace HotpathIpc

open Std (ExtTreeMap)
open Greedy (supply)

/-! ## Whole books -/

/-- A sound book whose cached totals are right modulo `2 ^ 64`. -/
structure Book.Whole (b : Book) : Prop where
  sound : b.Sound
  cached : b.CachedLevels

theorem whole_new : Book.new.Whole := ⟨sound_new, fun s px l hl => by simp at hl⟩

theorem whole_step {b : Book} (call : Call) (h : b.Whole) : (b.step call).1.Whole :=
  ⟨sound_step b call h.sound, cached_step call h.sound.live h.cached⟩

theorem whole_run {b : Book} (h : b.Whole) (cs : List Call) :
    (Mealy.exec Book.step b cs).Whole ∧
      ∀ e ∈ Mealy.trace Book.step b cs, e.pre.Whole ∧ e.post.Whole :=
  Mealy.preserved (fun _ call hb => whole_step call hb) h cs

theorem whole_exec (cs : List Call) : (Mealy.exec Book.step Book.new cs).Whole :=
  (whole_run whole_new cs).1

/-! ## Queues and ladders determine a side -/

theorem tag_injective (s : Side) (px : Int) : Function.Injective
    fun m : RestingOrder => (m.tag s px, m.remaining.toNat) := by
  rintro ⟨i, r, f⟩ ⟨j, r', g⟩ h
  simpa [RestingOrder.tag, UInt64.toNat_inj, and_assoc, and_comm, and_left_comm] using h

theorem makers_injective (s : Side) (px : Int) : Function.Injective (makers s px) :=
  List.map_injective_iff.mpr (tag_injective s px)

theorem level_eq_of_queue {l l' : PriceLevel} (h : l.Cached) (h' : l'.Cached)
    (hq : l.queue = l'.queue) : l = l' := by
  cases l
  cases l'
  subst hq
  rw [PriceLevel.mk.injEq]
  exact ⟨h.trans h'.symm, rfl⟩

/-- A live level is there exactly when its queue is not empty. -/
theorem getElem?_eq_none_iff {b : Book} {s : Side} {px : Int} (hlive : b.LiveLevels) :
    (b.half s)[px]? = none ↔ (b.levelMut s px).queue = [] := by
  constructor
  · intro h
    rw [Book.levelMut, h]
    rfl
  · intro h
    rcases levelMut_cases b s px with hl | ⟨hl, -⟩
    · exact absurd h (hlive _ _ _ hl).1
    · exact hl

theorem half_eq_of_queues {b b' : Book} {s : Side} (h : b.Whole) (h' : b'.Whole)
    (hq : ∀ px, (b.levelMut s px).queue = (b'.levelMut s px).queue) : b.half s = b'.half s := by
  refine ExtTreeMap.ext_getElem? fun px => ?_
  rcases levelMut_cases b s px with hl | ⟨hl, -⟩
  · rcases levelMut_cases b' s px with hl' | ⟨hl', -⟩
    · rw [hl, hl', level_eq_of_queue (h.cached _ _ _ hl) (h'.cached _ _ _ hl') (hq px)]
    · have hnil := (getElem?_eq_none_iff h'.sound.live).mp hl'
      exact absurd ((hq px).trans hnil) (h.sound.live _ _ _ hl).1
  · have hnil := (getElem?_eq_none_iff h.sound.live).mp hl
    rw [hl, (getElem?_eq_none_iff h'.sound.live).mpr ((hq px).symm.trans hnil)]

theorem half_eq_of_ladder {b b' : Book} {s : Side} (h : b.Whole) (h' : b'.Whole)
    (hladder : b.ladder s = b'.ladder s) : b.half s = b'.half s := by
  refine half_eq_of_queues h h' fun px => makers_injective s px ?_
  rw [← Book.ladder_filter_price, ← Book.ladder_filter_price, hladder]

/-! ## Some orders of a side only -/

theorem makers_filter (s : Side) (px : Int) (p : UInt64 → Bool) (q : List RestingOrder) :
    makers s px (q.filter fun m => p m.orderId)
      = (makers s px q).filter fun x => p x.1.orderId := by
  rw [makers, makers, List.filter_map]
  rfl

/-- The part of a queue, from the same part of the ladder. -/
theorem makers_queue_filter (b : Book) (s : Side) (px : Int) (p : UInt64 → Bool) :
    makers s px ((b.levelMut s px).queue.filter fun m => p m.orderId)
      = ((b.ladder s).filter fun x => p x.1.orderId).filter fun x => x.1.price = px := by
  rw [makers_filter, ← Book.ladder_filter_price, List.filter_filter, List.filter_filter]
  exact List.filter_congr fun x _ => Bool.and_comm _ _

/-- **Ladders agree where queues do**, on the orders picked from each. -/
theorem filter_ladder_iff {b b' : Book} {s : Side} (p p' : UInt64 → Bool) :
    ((b.ladder s).filter fun x => p x.1.orderId)
        = ((b'.ladder s).filter fun x => p' x.1.orderId)
      ↔ ∀ px, ((b.levelMut s px).queue.filter fun m => p m.orderId)
        = ((b'.levelMut s px).queue.filter fun m => p' m.orderId) := by
  constructor
  · intro h px
    refine makers_injective s px ?_
    rw [makers_queue_filter, makers_queue_filter, h]
  · intro h
    -- two sorted lists with the same orders at each price
    have harr : Priority.Arranged (fun t : MakerTag => s.rank t.price)
        ((b.ladder s).filter fun x => p x.1.orderId)
        ((b'.ladder s).filter fun x => p' x.1.orderId) := by
      refine ⟨(Book.ladder_sorted b s).filter _, fun r => ?_⟩
      obtain ⟨px, hpx⟩ := Book.exists_price_of_rank s r
      have hqueue := congrArg (makers s px) (h px)
      rw [makers_queue_filter, makers_queue_filter] at hqueue
      simp only [hpx]
      exact hqueue
    exact harr.eq_of_sorted ((Book.ladder_sorted b' s).filter _)

theorem book_ext {b b' : Book} (hhalf : ∀ s, b.half s = b'.half s)
    (hloc : b.locate = b'.locate) : b = b' := by
  have hbids := hhalf Side.buy
  have hasks := hhalf Side.sell
  cases b
  cases b'
  exact (Book.mk.injEq ..).mpr ⟨hbids, hasks, hloc⟩

/-! ## What calls do to the queues -/

section Queues

variable {b : Book}

/-- The queue a remainder joins, and those it does not. -/
theorem queue_rest (b : Book) (o : NewOrder) (rem : UInt64) (t : Side) (p : Int) :
    ((b.rest o rem).1.levelMut t p).queue = if t = o.side ∧ p = o.limitPx
      then (b.levelMut t p).queue ++ [⟨o.orderId, rem, o.isSynthetic⟩]
      else (b.levelMut t p).queue := by
  rw [Book.levelMut_eq_of_half (half_rest b o rem t), Book.queue_storeLevel]
  split
  · rename_i h
    rw [h.1, h.2]
    rfl
  · rfl

/-- The queue a cancelled order leaves, and those it does not. -/
theorem queue_cancel {j : UInt64} {u : Side} {r : Int} (hloc : b.locate[j]? = some (u, r))
    (t : Side) (p : Int) :
    ((b.cancel j).1.levelMut t p).queue = if t = u ∧ p = r
      then (b.levelMut t p).queue.eraseP fun n => decide (n.orderId = j)
      else (b.levelMut t p).queue := by
  rw [Book.levelMut_eq_of_half (half_cancel hloc t), Book.queue_storeLevel]
  split
  · rename_i h
    rw [h.1, h.2, queue_without]
  · rfl

end Queues

/-! ## What an order reaches after another one -/

variable {b : Book} {o : NewOrder}

theorem acceptable_of_mem_residue {q : ℕ} {x : MakerTag × ℕ}
    (hx : x ∈ Greedy.residue q (b.opposing o)) : o.acceptable x.1.price = true := by
  have htag : x.1 ∈ (b.opposing o).map Prod.fst := by
    rw [Greedy.map_fst_eq q]
    exact List.mem_append_right _ (List.mem_map_of_mem hx)
  obtain ⟨y, hy, he⟩ := List.mem_map.mp htag
  rw [← he]
  exact (List.mem_filter.mp hy).2

/-- **After crossing**, an order still reaches what its demand left of what it reached. -/
theorem opposing_crossed {rem : UInt64} {c : Crossed} (h : c.Serves o b rem) :
    c.book.opposing o = Greedy.residue rem.toNat (b.opposing o) ∧
      c.book.outOfReach o = b.outOfReach o := by
  have hin : ∀ x ∈ Greedy.residue rem.toNat (b.opposing o), o.acceptable x.1.price = true :=
    fun x hx => acceptable_of_mem_residue hx
  have hout : ∀ x ∈ b.outOfReach o, (!o.acceptable x.1.price) = true := fun x hx =>
    (List.mem_filter.mp hx).2
  rw [Book.opposing, Book.outOfReach, h.ladder, List.filter_append, List.filter_append,
    List.filter_eq_self.mpr hin, List.filter_eq_self.mpr hout]
  constructor
  · rw [List.filter_eq_nil_iff.mpr fun x hx => by simpa using hout x hx, List.append_nil]
  · rw [List.filter_eq_nil_iff.mpr fun x hx => by simpa using hin x hx, List.nil_append]

/-- Past the crossing phase, a submit leaves the opposite side alone. -/
theorem half_submit_opposite (b : Book) (o : NewOrder) :
    (b.submit o).1.half o.side.opposite = (b.crossAll o).book.half o.side.opposite := by
  rcases submit_cases b o with ⟨-, he⟩ | ⟨-, -, he⟩ | ⟨-, -, he⟩ <;> rw [he]
  exact half_rest_opposite _ _ _

end HotpathIpc
