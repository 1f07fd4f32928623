import HotpathIpc.OrderBook.Index

/-!
# Buy/sell symmetry

The two sides of the book are handled by separate branches: the greatest key is the best bid and
the least the best ask, `<=` accepts for one side and `>=` for the other, and five helpers pick
one of the two maps.  Exchanging the sides and complementing the prices exchanges all of these at
once, so a mirrored run is the mirror image of the run.

`complement` is the bitwise complement of an `i64`, which reverses the order of prices and cannot
overflow (`toInt_complement`).

* `Book.Mirrors` — two books whose sides are each other's mirror image.
* `Mirrors.levels`, `Mirrors.bestOf`, `fillQueue_mirror`, `cross_mirrors`, `rest_mirrors`,
  `cancel_mirrors` — one lemma for each helper and loop.
* **`buy_sell_symmetry`** — over whole runs, entry by entry.
-/

namespace HotpathIpc

open Std (ExtTreeMap)

/-! ## Complements -/

/-- The bitwise complement `!px` of a price. -/
def complement (px : Int) : Int := -1 - px

theorem toInt_complement (px : Int64) : (~~~px).toInt = complement px.toInt := by
  have hlo := px.le_toInt
  have hhi := px.toInt_lt
  rw [Int64.toInt_not, Int.bmod_eq_of_le (by omega) (by omega), complement]
  omega

@[simp] theorem complement_complement (px : Int) : complement (complement px) = px := by
  unfold complement
  omega

theorem complement_inj {p q : Int} : complement p = complement q ↔ p = q := by
  unfold complement
  omega

theorem Side.better_complement {s : Side} {p q : Int} (h : s.Better p q) :
    s.opposite.Better (complement p) (complement q) := by
  cases s <;> simp only [Side.Better, Side.opposite, complement] at h ⊢ <;> omega

/-! ## Mirror images -/

def NewOrder.mirror (o : NewOrder) : NewOrder :=
  { o with side := o.side.opposite, limitPx := complement o.limitPx }

def Call.mirror : Call → Call
  | Call.submit o => Call.submit o.mirror
  | Call.cancel orderId => Call.cancel orderId

def Fill.mirror (f : Fill) : Fill := { f with priceTicks := complement f.priceTicks }

def Answer.mirror (a : Answer) : Answer := ⟨a.fills.map Fill.mirror, a.outcome⟩

/-- Each side of `b'` is the other side of `b` at complemented prices, and the index says so. -/
structure Book.Mirrors (b b' : Book) : Prop where
  half : ∀ s px, (b'.half s.opposite)[complement px]? = (b.half s)[px]?
  locate : ∀ id : UInt64,
    b'.locate[id]? = b.locate[id]?.map fun p => (p.1.opposite, complement p.2)

namespace Book

variable {b b' : Book}

theorem mirrors_new : Book.new.Mirrors Book.new := ⟨fun s px => by simp, fun id => by simp⟩

theorem Mirrors.levelMut (h : b.Mirrors b') (s : Side) (px : Int) :
    b'.levelMut s.opposite (complement px) = b.levelMut s px := by
  rw [Book.levelMut, h.half, Book.levelMut]

/-- Best price first on both sides. -/
theorem Mirrors.levels (h : b.Mirrors b') (s : Side) :
    b'.levels s.opposite = (b.levels s).map fun x => (complement x.1, x.2) := by
  refine levels_eq_of_mem_iff ?_ fun px l => ?_
  · rw [List.pairwise_map]
    exact levels_pairwise.imp fun hxy => Side.better_complement hxy
  · rw [← complement_complement px, h.half, ← mem_levels, List.mem_map]
    constructor
    · rintro ⟨⟨q, k⟩, hq, he⟩
      obtain ⟨hprice, rfl⟩ := Prod.mk.inj he
      rwa [← complement_inj.mp hprice]
    · intro hl
      exact ⟨_, hl, rfl⟩

theorem Mirrors.bestOf (h : b.Mirrors b') (s : Side) :
    b'.bestOf s.opposite = (b.bestOf s).map complement := by
  rw [bestOf_eq, bestOf_eq, h.levels, List.head?_map, Option.map_map, Option.map_map]
  rfl

theorem Mirrors.size (h : b.Mirrors b') (s : Side) :
    (b'.half s.opposite).size = (b.half s).size := by
  rw [← length_levels, ← length_levels, h.levels, List.length_map]

/-- Storing a level keeps the halves mirrored. -/
theorem Mirrors.half_storeLevel (h : b.Mirrors b') (s : Side) (px : Int) (l : PriceLevel)
    (t : Side) (q : Int) :
    ((b'.storeLevel s.opposite (complement px) l).half t.opposite)[complement q]?
      = ((b.storeLevel s px l).half t)[q]? := by
  by_cases hts : t = s
  · subst hts
    rw [getElem?_storeLevel, getElem?_storeLevel, h.half]
    simp only [complement_inj]
  · have hopp : t.opposite ≠ s.opposite := by
      intro he
      exact hts (by rw [← Side.opposite_opposite t, he, Side.opposite_opposite])
    rw [half_storeLevel_ne _ _ _ hopp, half_storeLevel_ne _ _ _ hts, h.half]

end Book

/-! ## Submit -/

theorem acceptable_mirror (o : NewOrder) (px : Int) :
    o.mirror.acceptable (complement px) = o.acceptable px := by
  unfold NewOrder.acceptable NewOrder.mirror complement
  cases o.side
  · refine congrArg _ (decide_eq_decide.mpr ?_)
    dsimp only
    omega
  · refine congrArg _ (decide_eq_decide.mpr ?_)
    dsimp only
    omega

/-- The inner loop does not look at the price but to report it. -/
theorem fillQueue_mirror (o : NewOrder) (px : Int) : ∀ (rem tot : UInt64) (q : List RestingOrder),
    o.mirror.fillQueue (complement px) rem tot q
      = { o.fillQueue px rem tot q with fills := (o.fillQueue px rem tot q).fills.map Fill.mirror }
  | _, _, [] => rfl
  | rem, tot, m :: q => by
      have ih := fillQueue_mirror o px (rem - min rem m.remaining) (tot - min rem m.remaining) q
      simp only [NewOrder.fillQueue]
      split
      · rfl
      · split
        · rw [ih]
          rfl
        · rfl

variable {b b' : Book}

/-- One pass of the outer loop, in terms of the level that is stored. -/
theorem crossLevel_eq (b : Book) (o : NewOrder) (px : Int) (rem : UInt64) :
    let l := b.levelMut o.side.opposite px
    let r := o.fillQueue px rem l.totalSize l.queue
    b.crossLevel o px rem
      = ⟨({ b with locate := r.cleared.foldl ExtTreeMap.erase b.locate } : Book).storeLevel
          o.side.opposite px r.level, r.remaining, r.fills⟩ := by
  simp only [Book.crossLevel]
  unfold Book.storeLevel Book.putLevel Book.setHalf Book.half
  cases o.side <;> rfl

/-- What a phase of submit leaves in two mirrored books. -/
structure Crossed.Mirrors (c c' : Crossed) : Prop where
  book : c.book.Mirrors c'.book
  remaining : c'.remaining = c.remaining
  fills : c'.fills = c.fills.map Fill.mirror

theorem crossLevel_mirrors (h : b.Mirrors b') (o : NewOrder) (px : Int) (rem : UInt64) :
    (b.crossLevel o px rem).Mirrors (b'.crossLevel o.mirror (complement px) rem) := by
  have hlevel : b'.levelMut o.mirror.side.opposite (complement px)
      = b.levelMut o.side.opposite px := h.levelMut o.side.opposite px
  rw [crossLevel_eq b, crossLevel_eq b', hlevel, fillQueue_mirror]
  set l := b.levelMut o.side.opposite px
  set r := o.fillQueue px rem l.totalSize l.queue
  have hmid : ({ b with locate := r.cleared.foldl ExtTreeMap.erase b.locate } : Book).Mirrors
      { b' with locate := r.cleared.foldl ExtTreeMap.erase b'.locate } := by
    refine ⟨fun s q => by simpa using h.half s q, fun id => ?_⟩
    rw [getElem?_foldl_erase, getElem?_foldl_erase, h.locate]
    split <;> rfl
  refine ⟨⟨hmid.half_storeLevel o.side.opposite px r.level, fun id => ?_⟩, rfl, rfl⟩
  rw [Book.locate_storeLevel, Book.locate_storeLevel]
  exact hmid.locate id

/-- **The outer loop**, by induction on the fuel. -/
theorem cross_mirrors (o : NewOrder) : ∀ (fuel : ℕ) {b b' : Book} (rem : UInt64), b.Mirrors b' →
    (Book.cross o fuel b rem).Mirrors (Book.cross o.mirror fuel b' rem)
  | 0, _, _, _, h => ⟨h, rfl, rfl⟩
  | fuel + 1, b, b', rem, h => by
      have hbest : b'.bestOf o.mirror.side.opposite = (b.bestOf o.side.opposite).map complement :=
        h.bestOf o.side.opposite
      rw [Book.cross, Book.cross, hbest]
      split
      · exact ⟨h, rfl, rfl⟩
      · cases b.bestOf o.side.opposite with
        | none => exact ⟨h, rfl, rfl⟩
        | some px =>
            simp only [Option.map_some, acceptable_mirror]
            split
            · exact ⟨h, rfl, rfl⟩
            · have hpass := crossLevel_mirrors h o px rem
              have ih := cross_mirrors o fuel (b.crossLevel o px rem).remaining hpass.book
              rw [hpass.remaining]
              refine ⟨ih.book, ih.remaining, ?_⟩
              rw [hpass.fills, ih.fills, List.map_append]

theorem crossAll_mirrors (h : b.Mirrors b') (o : NewOrder) :
    (b.crossAll o).Mirrors (b'.crossAll o.mirror) := by
  have hsize : (b'.half o.mirror.side.opposite).size = (b.half o.side.opposite).size :=
    h.size o.side.opposite
  rw [Book.crossAll, Book.crossAll, hsize]
  exact cross_mirrors o _ _ h

theorem rest_mirrors (h : b.Mirrors b') (o : NewOrder) (rem : UInt64) :
    (b.rest o rem).1.Mirrors (b'.rest o.mirror rem).1 ∧
      (b'.rest o.mirror rem).2 = (b.rest o rem).2 := by
  have hlevel : b'.levelMut o.mirror.side o.mirror.limitPx = b.levelMut o.side o.limitPx :=
    h.levelMut o.side o.limitPx
  have hjoined : b'.joined o.mirror rem = b.joined o rem := by
    rw [Book.joined, hlevel]
    rfl
  refine ⟨⟨fun s px => ?_, fun id => ?_⟩, ?_⟩
  · rw [half_rest, half_rest, hjoined]
    exact h.half_storeLevel o.side o.limitPx _ s px
  · rw [locate_rest, locate_rest, ExtTreeMap.getElem?_insert, ExtTreeMap.getElem?_insert, h.locate]
    change (if compare o.orderId id = Ordering.eq then _ else _) = _
    split <;> rfl
  · simp only [Book.rest, hlevel]

theorem submit_mirrors (h : b.Mirrors b') (o : NewOrder) :
    (b.submit o).1.Mirrors (b'.submit o.mirror).1 ∧
      (b'.submit o.mirror).2.1 = (b.submit o).2.1.map Fill.mirror ∧
      (b'.submit o.mirror).2.2 = (b.submit o).2.2 := by
  have hc := crossAll_mirrors h o
  have hkind : o.mirror.isLimit = o.isLimit := rfl
  simp only [Book.submit, hc.remaining, hkind]
  split
  · exact ⟨hc.book, hc.fills, rfl⟩
  · split
    · exact ⟨hc.book, hc.fills, rfl⟩
    · have hr := rest_mirrors hc.book o (b.crossAll o).remaining
      exact ⟨hr.1, hc.fills, hr.2⟩

/-! ## Cancel -/

theorem cancel_mirrors (h : b.Mirrors b') (id : UInt64) :
    (b.cancel id).1.Mirrors (b'.cancel id).1 ∧ (b'.cancel id).2 = (b.cancel id).2 := by
  have hid := h.locate id
  cases hloc : b.locate[id]? with
  | none =>
      rw [hloc] at hid
      rw [cancel_none hloc, cancel_none hid]
      exact ⟨h, rfl⟩
  | some sp =>
      obtain ⟨s, px⟩ := sp
      rw [hloc] at hid
      refine ⟨⟨fun t q => ?_, fun j => ?_⟩, by rw [cancel_some hloc, cancel_some hid]⟩
      · rw [half_cancel hloc, half_cancel hid, h.levelMut]
        exact h.half_storeLevel s px _ t q
      · rw [locate_cancel hloc, locate_cancel hid, ExtTreeMap.getElem?_erase,
          ExtTreeMap.getElem?_erase, h.locate]
        split <;> rfl

/-! ## Runs -/

theorem mirrors_step (b b' : Book) (call : Call) (h : b.Mirrors b') :
    (b.step call).1.Mirrors (b'.step call.mirror).1 ∧
      (b'.step call.mirror).2 = (b.step call).2.mirror := by
  cases call with
  | submit o =>
      obtain ⟨hbook, hfills, hout⟩ := submit_mirrors h o
      exact ⟨hbook, congrArg₂ Answer.mk hfills hout⟩
  | cancel id =>
      obtain ⟨hbook, hout⟩ := cancel_mirrors h id
      exact ⟨hbook, congrArg (Answer.mk []) hout⟩

/-- **Buy/sell symmetry.**  Exchange the sides and complement the limit prices of any sequence of
calls: call by call, the outcome is the same, the fills are the same at complemented prices, and
the best bid of one run is the complement of the best ask of the other. -/
theorem buy_sell_symmetry (cs : List Call) :
    List.Forall₂
      (fun e e' : Mealy.Entry Book Call Answer =>
        e'.out.outcome = e.out.outcome ∧
        e'.out.fills = e.out.fills.map Fill.mirror ∧
        e'.post.bestBid = e.post.bestAsk.map complement ∧
        e'.post.bestAsk = e.post.bestBid.map complement)
      (Mealy.trace Book.step Book.new cs)
      (Mealy.trace Book.step Book.new (cs.map Call.mirror)) := by
  have hstep : ∀ (b b' : Book) (call : Call), b.Mirrors b' → True →
      (b.step call).1.Mirrors (b'.step call.mirror).1 ∧
        ((b'.step call.mirror).2 = (b.step call).2.mirror ∧
          (b.step call).1.Mirrors (b'.step call.mirror).1) := fun b b' call h _ =>
    ⟨(mirrors_step b b' call h).1, (mirrors_step b b' call h).symm⟩
  have htrace := (Mealy.translation (g := fun _ _ => True)
    (Q := fun e e' : Mealy.Entry Book Call Answer =>
      e'.out = e.out.mirror ∧ e.post.Mirrors e'.post)
    Call.mirror hstep Book.mirrors_new
    fun e (_ : e ∈ Mealy.trace Book.step Book.new cs) => trivial).2
  refine htrace.imp fun e e' ⟨hout, hbook⟩ => ?_
  rw [hout]
  exact ⟨rfl, rfl, hbook.bestOf Side.sell, hbook.bestOf Side.buy⟩

end HotpathIpc
