import HotpathIpc.OrderBook.Crossing

/-!
# The book is never crossed

`Book.Sound` says that no level is empty, that no resting order has nothing left, and that every
bid is below every ask.  Any call keeps it (`sound_step`), with no assumption on ids or
quantities, so every book that calls can lead to has it: `never_crossed`.

The first half of the file is what `rest` and `cancel` do to the two maps.
-/

namespace HotpathIpc

open Std (ExtTreeMap)

/-! ## Resting -/

/-- The level a limit remainder joins, with the remainder at the back of its queue. -/
def Book.joined (b : Book) (o : NewOrder) (rem : UInt64) : PriceLevel :=
  ⟨(b.levelMut o.side o.limitPx).totalSize + rem,
    (b.levelMut o.side o.limitPx).queue ++ [⟨o.orderId, rem, o.isSynthetic⟩]⟩

theorem half_rest (b : Book) (o : NewOrder) (rem : UInt64) (s : Side) :
    (b.rest o rem).1.half s = (b.storeLevel o.side o.limitPx (b.joined o rem)).half s := by
  have hne : (b.joined o rem).queue.isEmpty = false := by simp [Book.joined]
  rw [Book.storeLevel, Book.dropIfEmpty, hne]
  cases s <;> rfl

theorem locate_rest (b : Book) (o : NewOrder) (rem : UInt64) :
    (b.rest o rem).1.locate = b.locate.insert o.orderId (o.side, o.limitPx) := by
  unfold Book.rest Book.putLevel Book.setHalf
  cases o.side <;> rfl

theorem half_rest_opposite (b : Book) (o : NewOrder) (rem : UInt64) :
    (b.rest o rem).1.half o.side.opposite = b.half o.side.opposite := by
  rw [half_rest, Book.half_storeLevel_ne _ _ _ (Side.opposite_ne _)]

/-- `levelMut` returns a level of the book, or an empty one. -/
theorem levelMut_cases (b : Book) (s : Side) (px : Int) :
    (b.half s)[px]? = some (b.levelMut s px) ∨
      (b.half s)[px]? = none ∧ b.levelMut s px = PriceLevel.new := by
  unfold Book.levelMut
  cases (b.half s)[px]? with
  | none => exact Or.inr ⟨rfl, rfl⟩
  | some l => exact Or.inl rfl

theorem remaining_ne_zero_levelMut {b : Book} (h : b.LiveLevels) (s : Side) (px : Int) :
    ∀ m ∈ (b.levelMut s px).queue, m.remaining ≠ 0 := by
  rcases levelMut_cases b s px with hl | ⟨-, hl⟩
  · exact (h _ _ _ hl).2
  · rw [hl]
    exact fun m hm => absurd hm List.not_mem_nil

theorem live_rest {b : Book} {o : NewOrder} {rem : UInt64} (h : b.LiveLevels) (hrem : rem ≠ 0) :
    (b.rest o rem).1.LiveLevels := by
  intro s px l hl
  rw [half_rest] at hl
  refine Book.AllLevels.storeLevel h (fun hne => ⟨hne, fun m hm => ?_⟩) s px l hl
  rcases List.mem_append.mp hm with hm | hm
  · exact remaining_ne_zero_levelMut h _ _ m hm
  · rw [List.mem_singleton.mp hm]
    exact hrem

/-! ## Cancelling -/

/-- The level a cancelled order leaves. -/
def PriceLevel.without (l : PriceLevel) (orderId : UInt64) : PriceLevel :=
  match l.queue.find? (·.orderId = orderId) with
  | some removed => ⟨l.totalSize - removed.remaining, l.queue.eraseP (·.orderId = orderId)⟩
  | none => l

@[simp] theorem queue_without (l : PriceLevel) (id : UInt64) :
    (l.without id).queue = l.queue.eraseP (·.orderId = id) := by
  unfold PriceLevel.without
  split
  · rfl
  · rename_i hnone
    exact (List.eraseP_of_forall_not (by simpa using hnone)).symm

theorem cancel_none {b : Book} {id : UInt64} (h : b.locate[id]? = none) :
    b.cancel id = (b, Outcome.cancelRejected) := by
  unfold Book.cancel
  rw [h]

/-- A cancel that finds the order rewrites one level and forgets the id. -/
theorem cancel_some {b : Book} {id : UInt64} {s : Side} {px : Int}
    (h : b.locate[id]? = some (s, px)) :
    b.cancel id = (({ b with locate := b.locate.erase id } : Book).storeLevel s px
      ((b.levelMut s px).without id), Outcome.cancelled) := by
  unfold Book.cancel
  rw [h]
  cases s <;> rfl

theorem half_cancel {b : Book} {id : UInt64} {s : Side} {px : Int}
    (h : b.locate[id]? = some (s, px)) (t : Side) :
    (b.cancel id).1.half t = (b.storeLevel s px ((b.levelMut s px).without id)).half t := by
  rw [cancel_some h]
  unfold Book.storeLevel Book.dropIfEmpty Book.putLevel Book.removeLevel Book.setHalf Book.half
  cases s <;> cases t <;> dsimp only <;> split <;> rfl

theorem locate_cancel {b : Book} {id : UInt64} {s : Side} {px : Int}
    (h : b.locate[id]? = some (s, px)) : (b.cancel id).1.locate = b.locate.erase id := by
  rw [cancel_some h, Book.locate_storeLevel]

theorem live_cancel {b : Book} (h : b.LiveLevels) (id : UInt64) : (b.cancel id).1.LiveLevels := by
  cases hloc : b.locate[id]? with
  | none =>
      rw [cancel_none hloc]
      exact h
  | some sp =>
      obtain ⟨s, px⟩ := sp
      intro t q l hl
      rw [half_cancel hloc] at hl
      refine Book.AllLevels.storeLevel h (fun hne => ⟨hne, fun m hm => ?_⟩) t q l hl
      rw [queue_without] at hm
      exact remaining_ne_zero_levelMut h s px m (List.mem_of_mem_eraseP hm)

/-- A cancel adds no price to either side. -/
theorem mem_half_of_cancel {b : Book} {id : UInt64} {t : Side} {q : Int}
    (hq : q ∈ (b.cancel id).1.half t) : q ∈ b.half t := by
  cases hloc : b.locate[id]? with
  | none => rwa [cancel_none hloc] at hq
  | some sp =>
      obtain ⟨s, px⟩ := sp
      rw [half_cancel hloc, ExtTreeMap.mem_iff_isSome_getElem?] at hq
      rw [ExtTreeMap.mem_iff_isSome_getElem?]
      by_cases hts : t = s
      · subst hts
        rw [Book.getElem?_storeLevel] at hq
        split at hq
        · rename_i hpx
          split at hq
          · exact absurd hq (by decide)
          · rename_i hne
            rcases levelMut_cases b t px with hl | ⟨-, hl⟩
            · rw [← hpx, hl]
              rfl
            · rw [hl, queue_without] at hne
              exact absurd rfl hne
        · exact hq
      · rwa [Book.half_storeLevel_ne _ _ _ hts] at hq

/-! ## Soundness -/

/-- No empty level, no exhausted order, and every bid below every ask: whatever rests on side `s`
is a strictly better quote for the other side's takers than anything resting there. -/
structure Book.Sound (b : Book) : Prop where
  live : b.LiveLevels
  uncrossed : ∀ s p q, p ∈ b.half s → q ∈ b.half s.opposite → s.opposite.Better p q

theorem sound_new : Book.new.Sound :=
  ⟨fun s px l hl => by simp at hl, fun s p q hp _ => by simp at hp⟩

/-- A price an order does not accept is beyond its limit. -/
theorem better_of_not_acceptable {o : NewOrder} {q : Int} (h : o.acceptable q = false) :
    o.side.opposite.Better o.limitPx q := by
  unfold NewOrder.acceptable at h
  cases hs : o.side <;> simp only [hs, Bool.or_eq_false_iff, decide_eq_false_iff_not] at h <;>
    simp only [Side.opposite, Side.Better] <;> omega

/-- The two statements of an uncrossed pair of prices. -/
theorem Side.Better.swap {s : Side} {p q : Int} (h : s.Better p q) : s.opposite.Better q p := by
  cases s <;> exact h

theorem sound_crossAll {b : Book} (o : NewOrder) (h : b.Sound) : (b.crossAll o).book.Sound := by
  have hs := crossAll_serves o h.live
  refine ⟨hs.live, fun s p q hp hq => ?_⟩
  have hkeys : ∀ t r, r ∈ (b.crossAll o).book.half t → r ∈ b.half t := by
    intro t r hr
    rcases Side.eq_or_eq_opposite t o.side with rfl | rfl
    · rwa [hs.own] at hr
    · exact hs.keys r hr
  exact h.uncrossed s p q (hkeys _ _ hp) (hkeys _ _ hq)

/-- After crossing with a remainder, every opposite price is beyond the order's limit. -/
theorem better_of_mem_opposite {b : Book} {o : NewOrder} (h : b.Sound)
    (hrem : (b.crossAll o).remaining ≠ 0) {q : Int}
    (hq : q ∈ (b.crossAll o).book.half o.side.opposite) : o.side.opposite.Better o.limitPx q := by
  have hs := crossAll_serves o h.live
  refine better_of_not_acceptable ?_
  by_contra hacc
  rw [ExtTreeMap.mem_iff_isSome_getElem?, Option.isSome_iff_exists] at hq
  obtain ⟨l, hl⟩ := hq
  obtain ⟨m, hm⟩ := List.exists_mem_of_ne_nil _ (hs.live _ _ _ hl).1
  have hmem : (m.tag o.side.opposite q, m.remaining.toNat) ∈ (b.crossAll o).book.opposing o :=
    List.mem_filter.mpr
      ⟨Book.mem_ladder.mpr ⟨l, hl, List.mem_map_of_mem hm⟩,
        Bool.not_eq_false _ ▸ hacc⟩
  rw [(cross_done hs).resolve_left hrem] at hmem
  exact absurd hmem List.not_mem_nil

theorem sound_rest {b : Book} {o : NewOrder} (h : b.Sound) (hrem : (b.crossAll o).remaining ≠ 0) :
    ((b.crossAll o).book.rest o (b.crossAll o).remaining).1.Sound := by
  have hc := sound_crossAll o h
  set c := b.crossAll o with hcdef
  refine ⟨live_rest hc.live hrem, ?_⟩
  -- the prices on the order's own side afterwards
  have hown : ∀ p, p ∈ (c.book.rest o c.remaining).1.half o.side →
      p = o.limitPx ∨ p ∈ c.book.half o.side := by
    intro p hp
    rw [half_rest, ExtTreeMap.mem_iff_isSome_getElem?, Book.getElem?_storeLevel] at hp
    split at hp
    · exact Or.inl (Eq.symm ‹_›)
    · exact Or.inr (ExtTreeMap.mem_iff_isSome_getElem?.mpr hp)
  have key : ∀ p q, p ∈ (c.book.rest o c.remaining).1.half o.side →
      q ∈ (c.book.rest o c.remaining).1.half o.side.opposite → o.side.opposite.Better p q := by
    intro p q hp hq
    rw [half_rest_opposite] at hq
    rcases hown p hp with rfl | hp
    · exact better_of_mem_opposite h hrem hq
    · exact hc.uncrossed _ p q hp hq
  intro s p q hp hq
  rcases Side.eq_or_eq_opposite s o.side with rfl | rfl
  · exact key p q hp hq
  · rw [Side.opposite_opposite] at hq ⊢
    exact (key q p hq hp).swap |> fun hb => by rwa [Side.opposite_opposite] at hb

theorem sound_submit {b : Book} (o : NewOrder) (h : b.Sound) : (b.submit o).1.Sound :=
  submit_book (sound_crossAll o h) (sound_rest h)

theorem sound_cancel {b : Book} (id : UInt64) (h : b.Sound) : (b.cancel id).1.Sound :=
  ⟨live_cancel h.live id, fun s p q hp hq =>
    h.uncrossed s p q (mem_half_of_cancel hp) (mem_half_of_cancel hq)⟩

/-- **One call keeps the book sound**, whatever its id and quantity. -/
theorem sound_step (b : Book) (call : Call) (h : b.Sound) : (b.step call).1.Sound := by
  cases call with
  | submit o => exact sound_submit o h
  | cancel id => exact sound_cancel id h

/-- Every book of a run from a sound book is sound. -/
theorem sound_run {b : Book} (h : b.Sound) (cs : List Call) :
    (Mealy.exec Book.step b cs).Sound ∧
      ∀ e ∈ Mealy.trace Book.step b cs, e.pre.Sound ∧ e.post.Sound :=
  Mealy.preserved sound_step h cs

theorem sound_exec (cs : List Call) : (Mealy.exec Book.step Book.new cs).Sound :=
  (sound_run sound_new cs).1

/-- Every book along a run is sound. -/
theorem sound_trace {cs : List Call} : ∀ e ∈ Mealy.trace Book.step Book.new cs,
    e.pre.Sound ∧ e.post.Sound :=
  (sound_run sound_new cs).2

theorem mem_half_of_bestOf {b : Book} {s : Side} {p : Int} (h : b.bestOf s = some p) :
    p ∈ b.half s := by
  rw [Book.bestOf_eq] at h
  cases hls : b.levels s with
  | nil =>
      rw [hls] at h
      exact absurd h (by simp)
  | cons x ls =>
      rw [hls, List.head?_cons, Option.map_some] at h
      rw [← Option.some.inj h, ExtTreeMap.mem_iff_isSome_getElem?, Book.getElem?_of_levels hls]
      rfl

/-- **The book is never crossed or locked and never quotes an empty price**, after any sequence
of calls at all. -/
theorem never_crossed (cs : List Call) :
    let b := Mealy.exec Book.step Book.new cs
    (∀ bid ask, b.bestBid = some bid → b.bestAsk = some ask → bid < ask) ∧
      ∀ (side : Side) (px : Int) (level : PriceLevel), (b.half side)[px]? = some level →
        level.queue ≠ [] ∧ ∀ o ∈ level.queue, 0 < o.remaining := by
  intro b
  have hb : b.Sound := sound_exec cs
  refine ⟨fun bid ask hbid hask => ?_, fun side px level hl => ?_⟩
  · exact hb.uncrossed Side.buy bid ask (mem_half_of_bestOf (s := Side.buy) hbid)
      (mem_half_of_bestOf (s := Side.sell) hask)
  · obtain ⟨hne, hpos⟩ := hb.live side px level hl
    exact ⟨hne, fun o ho => UInt64.pos_iff_ne_zero.mpr (hpos o ho)⟩

end HotpathIpc
