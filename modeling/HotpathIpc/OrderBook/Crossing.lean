import HotpathIpc.OrderBook.Levels

/-!
# What crossing does

One statement about `submit`'s two nested loops, from which everything later about fills follows:
crossing an order of quantity `q` is `Greedy.consume q` on the part of the opposite ladder the
order accepts, and what it leaves there is `Greedy.residue q`.

* `fillQueue_serves` — the inner loop, by induction on the queue.
* **`cross_serves`** — the outer loop, by induction on the fuel, with the level list of the
  opposite side shrinking at each pass.
* **`cross_done`** — the loop ends because of its own exit conditions: the fuel never runs out.

The only hypothesis is that no level is empty and no resting order has nothing left, `LiveLevels`;
`OrderBook/Invariant.lean` shows that every book has it.
-/

namespace HotpathIpc

open Std (ExtTreeMap)
open Greedy (Take supply Positive consume residue exhausted)

/-! ## Live and cached levels -/

/-- A level with a non-empty queue of orders that all have something left. -/
def PriceLevel.Live (l : PriceLevel) : Prop :=
  l.queue ≠ [] ∧ ∀ o ∈ l.queue, o.remaining ≠ 0

/-- The total of `remaining` over a queue, as an exact number. -/
def queueSize (q : List RestingOrder) : ℕ := (q.map fun o => o.remaining.toNat).sum

/-- The cached total is the sum over the queue, modulo `2 ^ 64`. -/
def PriceLevel.Cached (l : PriceLevel) : Prop := l.totalSize = UInt64.ofNat (queueSize l.queue)

@[simp] theorem queueSize_nil : queueSize [] = 0 := rfl

@[simp] theorem queueSize_cons (o : RestingOrder) (q : List RestingOrder) :
    queueSize (o :: q) = o.remaining.toNat + queueSize q := by simp [queueSize]

@[simp] theorem queueSize_append (q q' : List RestingOrder) :
    queueSize (q ++ q') = queueSize q + queueSize q' := by simp [queueSize]

theorem supply_makers (s : Side) (px : Int) : ∀ q : List RestingOrder,
    supply (makers s px q) = queueSize q
  | [] => rfl
  | o :: q => by rw [makers_cons, Greedy.supply_cons, supply_makers s px q, queueSize_cons]

theorem positive_makers (s : Side) (px : Int) {q : List RestingOrder}
    (h : ∀ o ∈ q, o.remaining ≠ 0) : Positive (makers s px q) := by
  intro x hx
  obtain ⟨o, ho, rfl⟩ := List.mem_map.mp hx
  exact Nat.pos_of_ne_zero fun h0 => h o ho (toNat_eq_zero.mp h0)

theorem remaining_ne_zero_of_positive (s : Side) (px : Int) {q : List RestingOrder}
    (h : Positive (makers s px q)) : ∀ o ∈ q, o.remaining ≠ 0 := by
  intro o ho h0
  have hpos := h _ (List.mem_map_of_mem ho)
  rw [h0] at hpos
  exact Nat.lt_irrefl 0 hpos

/-- Taking at most the head's quantity off the cached total keeps it the sum. -/
theorem ofNat_sub_toNat {n : ℕ} {x : UInt64} (h : x.toNat ≤ n) :
    UInt64.ofNat n - x = UInt64.ofNat (n - x.toNat) := by
  rw [UInt64.ofNat_sub h, UInt64.ofNat_toNat]

/-! ## The inner loop -/

/-- A fill seen from the queue: which maker, how much, and what the taker has left. -/
def Fill.take (s : Side) (f : Fill) : Take MakerTag :=
  ⟨⟨s, f.priceTicks, f.makerOrderId, f.makerIsSynthetic⟩, f.quantity.toNat,
    f.takerRemainingAfter.toNat⟩

/-- The taker's side of a fill is `o`. -/
def Fill.IsBy (o : NewOrder) (f : Fill) : Prop :=
  f.takerOrderId = o.orderId ∧ f.takerOriginTs = o.originTs ∧ f.takerIsSynthetic = o.isSynthetic

/-- What `fillQueue` returns, in terms of the queue it was given. -/
structure LevelFill.Serves (o : NewOrder) (px : Int) (rem totalSize : UInt64)
    (q : List RestingOrder) (r : LevelFill) : Prop where
  remaining : r.remaining.toNat = rem.toNat - queueSize q
  queue : makers o.side.opposite px r.level.queue
    = residue rem.toNat (makers o.side.opposite px q)
  fills : r.fills.map (Fill.take o.side.opposite)
    = consume rem.toNat (makers o.side.opposite px q)
  cleared : r.cleared = (exhausted rem.toNat (makers o.side.opposite px q)).map MakerTag.orderId
  taker : ∀ f ∈ r.fills, f.IsBy o
  cached : totalSize = UInt64.ofNat (queueSize q) → r.level.Cached

theorem fillQueue_serves (o : NewOrder) (px : Int) : ∀ {q : List RestingOrder}
    (remaining totalSize : UInt64), (∀ m ∈ q, m.remaining ≠ 0) →
      (o.fillQueue px remaining totalSize q).Serves o px remaining totalSize q
  | [], _, _, _ =>
      ⟨by simp [NewOrder.fillQueue], rfl, rfl, rfl, fun _ hf => absurd hf List.not_mem_nil, id⟩
  | m :: q, rem, tot, hq => by
      have hm : m.remaining.toNat ≠ 0 := fun h => hq m List.mem_cons_self (toNat_eq_zero.mp h)
      have hpos := positive_makers o.side.opposite px hq
      by_cases h0 : rem = 0
      · subst h0
        simp only [NewOrder.fillQueue, if_true]
        refine ⟨by simp, ?_, ?_, ?_, fun _ hf => absurd hf List.not_mem_nil, id⟩
        · exact (Greedy.residue_zero hpos).symm
        · exact (Greedy.consume_zero _).symm
        · rw [show (0 : UInt64).toNat = 0 from rfl, Greedy.exhausted_zero hpos]
          rfl
      · have hr0 : rem.toNat ≠ 0 := fun h => h0 (toNat_eq_zero.mp h)
        have htake : ((o.fillWith px m (min rem m.remaining)
            (rem - min rem m.remaining)).take o.side.opposite)
            = ⟨m.tag o.side.opposite px, min rem.toNat m.remaining.toNat,
                rem.toNat - m.remaining.toNat⟩ := by
          simp only [Fill.take, NewOrder.fillWith, toNat_min, toNat_sub_min_left,
            RestingOrder.tag]
        have hby : (o.fillWith px m (min rem m.remaining)
            (rem - min rem m.remaining)).IsBy o := ⟨rfl, rfl, rfl⟩
        have hback : (m.remaining - min rem m.remaining = 0)
            ↔ m.remaining.toNat ≤ rem.toNat := by
          rw [← toNat_eq_zero, toNat_sub_min_right]
          omega
        have htot : tot = UInt64.ofNat (queueSize (m :: q)) →
            tot - min rem m.remaining = UInt64.ofNat
              (m.remaining.toNat + queueSize q - min rem.toNat m.remaining.toNat) := by
          intro h
          rw [h, queueSize_cons, ofNat_sub_toNat (by rw [toNat_min]; omega), toNat_min]
        by_cases hle : m.remaining.toNat ≤ rem.toNat
        · -- the maker is done: the loop goes on with the order behind it
          have ih := fillQueue_serves o px (rem - min rem m.remaining)
            (tot - min rem m.remaining) fun m' hm' => hq m' (List.mem_cons_of_mem _ hm')
          simp only [NewOrder.fillQueue, if_neg h0, hback.mpr hle, if_true]
          refine ⟨?_, ?_, ?_, ?_, ?_, ?_⟩
          · rw [ih.remaining, toNat_sub_min_left, queueSize_cons, Nat.sub_sub]
          · rw [ih.queue, toNat_sub_min_left, makers_cons, residue, if_pos hle]
          · rw [List.map_cons, ih.fills, htake, toNat_sub_min_left, makers_cons, consume,
              if_neg hr0]
          · rw [ih.cleared, toNat_sub_min_left, makers_cons, exhausted, if_pos hle]
            rfl
          · intro f hf
            rcases List.mem_cons.mp hf with rfl | hf
            · exact hby
            · exact ih.taker f hf
          · intro h
            refine ih.cached ?_
            rw [htot h]
            exact congrArg UInt64.ofNat (by omega)
        · -- the maker keeps something: the taker is used up
          have hz : rem.toNat - m.remaining.toNat = 0 := by omega
          simp only [NewOrder.fillQueue, if_neg h0, if_neg (mt hback.mp hle)]
          refine ⟨?_, ?_, ?_, ?_, ?_, ?_⟩
          · rw [toNat_sub_min_left, queueSize_cons]; omega
          · rw [makers_cons, makers_cons, residue, if_neg hle, toNat_sub_min_right]
            rfl
          · rw [List.map_cons, htake, makers_cons, consume, if_neg hr0, hz, Greedy.consume_zero]
            rfl
          · rw [makers_cons, exhausted, if_neg hle]
            rfl
          · intro f hf
            rw [List.mem_singleton.mp hf]
            exact hby
          · intro h
            rw [PriceLevel.Cached, htot h, queueSize_cons, toNat_sub_min_right]
            exact congrArg UInt64.ofNat (by omega)

/-! ## The part of the opposite side an order accepts -/

theorem acceptable_of_better {o : NewOrder} {p q : Int} (h : o.side.opposite.Better p q)
    (hq : o.acceptable q = true) : o.acceptable p = true := by
  unfold NewOrder.acceptable at hq ⊢
  cases hs : o.side <;> simp only [hs, Side.opposite, Side.Better, Bool.or_eq_true,
    decide_eq_true_eq] at h hq ⊢ <;> exact hq.imp id fun hlim => by omega

/-- The opposite orders `o` accepts, in priority order. -/
def Book.opposing (b : Book) (o : NewOrder) : List (MakerTag × ℕ) :=
  (b.ladder o.side.opposite).filter fun x => o.acceptable x.1.price

/-- The opposite orders `o` does not accept. -/
def Book.outOfReach (b : Book) (o : NewOrder) : List (MakerTag × ℕ) :=
  (b.ladder o.side.opposite).filter fun x => !o.acceptable x.1.price

theorem filter_makers (p : Int → Bool) (s : Side) (px : Int) (q : List RestingOrder) :
    (makers s px q).filter (fun x => p x.1.price) = if p px then makers s px q else [] := by
  cases hp : p px
  · rw [if_neg (by simp), List.filter_eq_nil_iff]
    intro x hx
    simp [(side_of_mem_makers hx).2, hp]
  · rw [if_pos rfl, List.filter_eq_self]
    intro x hx
    rw [(side_of_mem_makers hx).2, hp]

namespace Book

variable {b : Book} {o : NewOrder}

/-- Best price first, so the accepted orders come before the others. -/
theorem ladder_eq_opposing_append : b.ladder o.side.opposite = b.opposing o ++ b.outOfReach o := by
  unfold opposing outOfReach ladder
  have hord := levels_pairwise (b := b) (s := o.side.opposite)
  generalize b.levels o.side.opposite = ls at hord ⊢
  induction ls with
  | nil => rfl
  | cons x ls ih =>
      obtain ⟨hx, hls⟩ := List.pairwise_cons.mp hord
      rw [ladderOf_cons, List.filter_append, List.filter_append,
        filter_makers o.acceptable, filter_makers (fun p => !o.acceptable p)]
      cases ha : o.acceptable x.1
      · -- nothing behind an unacceptable price is acceptable
        have hnone : (ladderOf o.side.opposite ls).filter
            (fun y => o.acceptable y.1.price) = [] := by
          rw [List.filter_eq_nil_iff]
          intro y hy hya
          obtain ⟨z, hz, hyz⟩ := List.mem_flatMap.mp hy
          rw [(side_of_mem_makers hyz).2] at hya
          rw [acceptable_of_better (hx z hz) hya] at ha
          exact absurd ha (by decide)
        have hrest := ih hls
        rw [hnone, List.nil_append] at hrest
        rw [hnone, ← hrest]
        simp
      · rw [if_pos rfl, if_neg (by simp), List.nil_append, List.append_assoc, ← ih hls]

/-- No level is empty and no resting order has nothing left. -/
def LiveLevels (b : Book) : Prop := b.AllLevels fun _ _ l => l.Live

/-- Every cached total is right modulo `2 ^ 64`. -/
def CachedLevels (b : Book) : Prop := b.AllLevels fun _ _ l => l.Cached

theorem LiveLevels.positive (h : b.LiveLevels) (s : Side) : Positive (b.ladder s) := by
  intro x hx
  obtain ⟨l, hl, hx⟩ := mem_ladder.mp hx
  exact positive_makers _ _ (h _ _ _ hl).2 x hx

theorem LiveLevels.positive_opposing (h : b.LiveLevels) (o : NewOrder) :
    Positive (b.opposing o) :=
  fun x hx => h.positive _ x (List.mem_of_mem_filter hx)

end Book

/-! ## The outer loop -/

/-- What the crossing phase returns, in terms of the book it was given. -/
structure Crossed.Serves (o : NewOrder) (b : Book) (rem : UInt64) (c : Crossed) : Prop where
  own : c.book.half o.side = b.half o.side
  ladder : c.book.ladder o.side.opposite
    = residue rem.toNat (b.opposing o) ++ b.outOfReach o
  fills : c.fills.map (Fill.take o.side.opposite) = consume rem.toNat (b.opposing o)
  remaining : c.remaining.toNat = rem.toNat - supply (b.opposing o)
  locate : c.book.locate
    = ((exhausted rem.toNat (b.opposing o)).map MakerTag.orderId).foldl ExtTreeMap.erase b.locate
  taker : ∀ f ∈ c.fills, f.IsBy o
  live : c.book.LiveLevels
  cached : b.CachedLevels → c.book.CachedLevels
  keys : ∀ px, px ∈ c.book.half o.side.opposite → px ∈ b.half o.side.opposite
  frame : ∀ px, o.acceptable px = false →
    (c.book.half o.side.opposite)[px]? = (b.half o.side.opposite)[px]?

/-- A loop that ends at once leaves the book alone. -/
theorem serves_stop {o : NewOrder} {b : Book} {rem : UInt64} (hlive : b.LiveLevels)
    (h : rem = 0 ∨ b.opposing o = []) : Crossed.Serves o b rem ⟨b, rem, []⟩ := by
  have hres : residue rem.toNat (b.opposing o) = b.opposing o ∧
      consume rem.toNat (b.opposing o) = [] ∧
      exhausted rem.toNat (b.opposing o) = [] ∧
      rem.toNat - supply (b.opposing o) = rem.toNat := by
    rcases h with rfl | h
    · have hpos := hlive.positive_opposing o
      exact ⟨Greedy.residue_zero hpos, Greedy.consume_zero _, Greedy.exhausted_zero hpos,
        Nat.zero_sub _⟩
    · rw [h]
      exact ⟨rfl, rfl, rfl, rfl⟩
  obtain ⟨h1, h2, h3, h4⟩ := hres
  refine ⟨rfl, ?_, h2.symm, h4.symm, ?_, fun _ hf => absurd hf List.not_mem_nil, hlive, id,
    fun _ => id, fun _ _ => rfl⟩
  · rw [h1]
    exact Book.ladder_eq_opposing_append
  · rw [h3]
    rfl

@[simp] theorem cross_zero (o : NewOrder) (fuel : ℕ) (b : Book) :
    Book.cross o fuel b 0 = ⟨b, 0, []⟩ := by
  cases fuel <;> simp [Book.cross]

/-- The book after one pass of the outer loop over the best level. -/
theorem book_crossLevel {b : Book} {o : NewOrder} {px : Int} {l : PriceLevel}
    {ls : List (Int × PriceLevel)} (h : b.levels o.side.opposite = (px, l) :: ls) (rem : UInt64) :
    let r := o.fillQueue px rem l.totalSize l.queue
    b.crossLevel o px rem
      = ⟨({ b with locate := r.cleared.foldl ExtTreeMap.erase b.locate } : Book).storeLevel
          o.side.opposite px r.level, r.remaining, r.fills⟩ := by
  simp only [Book.crossLevel, Book.levelMut_of_levels h]
  unfold Book.storeLevel Book.putLevel Book.setHalf Book.half
  cases o.side <;> rfl

/-- The levels after one pass. -/
theorem levels_crossLevel {b : Book} {o : NewOrder} {px : Int} {l : PriceLevel}
    {ls : List (Int × PriceLevel)} (h : b.levels o.side.opposite = (px, l) :: ls) (rem : UInt64) :
    let r := o.fillQueue px rem l.totalSize l.queue
    (b.crossLevel o px rem).book.levels o.side.opposite
      = if r.level.queue = [] then ls else (px, r.level) :: ls := by
  rw [book_crossLevel h]
  exact Book.levels_storeLevel_head (by rw [← h]; exact Book.levels_eq_of_half (by simp))

/-- Orders left at a level have used the taker up. -/
theorem remaining_eq_zero_of_queue {b : Book} {o : NewOrder} {px : Int} {l : PriceLevel}
    {ls : List (Int × PriceLevel)} {rem : UInt64} (hlive : b.LiveLevels)
    (h : b.levels o.side.opposite = (px, l) :: ls)
    (hq : (o.fillQueue px rem l.totalSize l.queue).level.queue ≠ []) :
    (o.fillQueue px rem l.totalSize l.queue).remaining = 0 := by
  have hr := fillQueue_serves o px rem l.totalSize (hlive _ _ _ (Book.getElem?_of_levels h)).2
  rw [← toNat_eq_zero, hr.remaining]
  by_contra hne
  refine hq (makers_eq_nil.mp (hr.queue.trans (Greedy.residue_eq_nil_of_le ?_)))
  rw [supply_makers]
  omega

/-- What is acceptable anywhere on the opposite side is acceptable at its best price. -/
theorem acceptable_of_best {b : Book} {o : NewOrder} {px : Int} {l : PriceLevel}
    {ls : List (Int × PriceLevel)} (h : b.levels o.side.opposite = (px, l) :: ls)
    {x : MakerTag × ℕ} (hx : x ∈ b.ladder o.side.opposite)
    (hxa : o.acceptable x.1.price = true) : o.acceptable px = true := by
  have hord : ((px, l) :: ls).Pairwise fun x y => o.side.opposite.Better x.1 y.1 :=
    h ▸ Book.levels_pairwise
  obtain ⟨k, hk, -⟩ := Book.mem_ladder.mp hx
  rcases List.mem_cons.mp (h ▸ Book.mem_levels.mpr hk) with hk | hk
  · rw [← (Prod.mk.inj hk).1]
    exact hxa
  · exact acceptable_of_better ((List.pairwise_cons.mp hord).1 _ hk) hxa

/-- One pass over the best level: that level is what `fillQueue` left of it, nothing else on its
side has moved, and the other side not at all. -/
structure Crossed.Passes (o : NewOrder) (b : Book) (px : Int) (l : PriceLevel)
    (ls : List (Int × PriceLevel)) (rem : UInt64) (c : Crossed) : Prop where
  own : c.book.half o.side = b.half o.side
  ladder : c.book.ladder o.side.opposite
    = residue rem.toNat (makers o.side.opposite px l.queue) ++ ladderOf o.side.opposite ls
  others : ∀ q, px ≠ q → (c.book.half o.side.opposite)[q]? = (b.half o.side.opposite)[q]?
  live : c.book.LiveLevels
  cached : b.CachedLevels → c.book.CachedLevels
  locate : c.book.locate
    = ((exhausted rem.toNat (makers o.side.opposite px l.queue)).map MakerTag.orderId).foldl
        ExtTreeMap.erase b.locate

theorem crossLevel_passes {b : Book} {o : NewOrder} {px : Int} {l : PriceLevel}
    {ls : List (Int × PriceLevel)} (rem : UInt64) (hlive : b.LiveLevels)
    (h : b.levels o.side.opposite = (px, l) :: ls) :
    (b.crossLevel o px rem).Passes o b px l ls rem := by
  have hget := Book.getElem?_of_levels h
  have hl : l.Live := hlive _ _ _ hget
  have hr := fillQueue_serves o px rem l.totalSize hl.2
  have hlevels := levels_crossLevel h rem
  rw [book_crossLevel h rem] at hlevels ⊢
  dsimp only at hlevels ⊢
  refine ⟨?_, ?_, ?_, ?_, ?_, ?_⟩
  · rw [Book.half_storeLevel_ne _ _ _ (Ne.symm (Side.opposite_ne _)), Book.half_mk_locate]
  · rw [Book.ladder, hlevels, ← hr.queue]
    split
    · rename_i hnil
      rw [hnil]
      rfl
    · rfl
  · intro q hq
    rw [Book.getElem?_storeLevel, if_neg hq, Book.half_mk_locate]
  · refine Book.AllLevels.storeLevel (fun s q k hk => hlive s q k (by simpa using hk)) fun hne =>
      ⟨hne, remaining_ne_zero_of_positive o.side.opposite px ?_⟩
    rw [hr.queue]
    exact (positive_makers _ _ hl.2).residue
  · intro hcached
    exact Book.AllLevels.storeLevel (fun s q k hk => hcached s q k (by simpa using hk))
      fun _ => hr.cached (hcached _ _ _ hget)
  · rw [Book.locate_storeLevel, hr.cleared]

/-- A pass over the best level and a loop that serves what it left serve the whole side. -/
theorem crossLevel_serves {b : Book} {o : NewOrder} {px : Int} {l : PriceLevel}
    {ls : List (Int × PriceLevel)} {rem : UInt64} {c : Crossed} (hlive : b.LiveLevels)
    (h : b.levels o.side.opposite = (px, l) :: ls) (hacc : o.acceptable px = true)
    (hs : c.Serves o (b.crossLevel o px rem).book (b.crossLevel o px rem).remaining) :
    Crossed.Serves o b rem { c with fills := (b.crossLevel o px rem).fills ++ c.fills } := by
  have hp := crossLevel_passes rem hlive h
  have hr := fillQueue_serves o px rem l.totalSize (hlive _ _ _ (Book.getElem?_of_levels h)).2
  have hrem : (b.crossLevel o px rem).remaining.toNat
      = rem.toNat - supply (makers o.side.opposite px l.queue) := by
    rw [book_crossLevel h rem, supply_makers]
    exact hr.remaining
  have hfills : (b.crossLevel o px rem).fills = (o.fillQueue px rem l.totalSize l.queue).fills :=
    by rw [book_crossLevel h rem]
  set d := b.crossLevel o px rem with hd
  set M := makers o.side.opposite px l.queue with hM
  set A := (ladderOf o.side.opposite ls).filter fun x => o.acceptable x.1.price with hA
  -- what the order can reach before the pass, and after it
  have hreach : b.opposing o = M ++ A := by
    rw [Book.opposing, Book.ladder, h, ladderOf_cons, List.filter_append,
      filter_makers o.acceptable, if_pos hacc]
  have hpos : Positive (M ++ A) := hreach ▸ hlive.positive_opposing o
  have hkeep : ∀ x ∈ residue rem.toNat M, o.acceptable x.1.price = true := by
    rw [hM, ← hr.queue]
    intro x hx
    rw [(side_of_mem_makers hx).2, hacc]
  have hreach' : d.book.opposing o = residue rem.toNat M ++ A := by
    rw [Book.opposing, hp.ladder, List.filter_append, List.filter_eq_self.mpr hkeep]
  have hout : d.book.outOfReach o = b.outOfReach o := by
    rw [Book.outOfReach, Book.outOfReach, hp.ladder, List.filter_append, Book.ladder, h,
      ladderOf_cons, List.filter_append, filter_makers (fun p => !o.acceptable p), hacc]
    rw [List.filter_eq_nil_iff.mpr fun x hx => by rw [hkeep x hx]; decide]
    rfl
  obtain ⟨hres, hcon, hexh⟩ := Greedy.resume (q := rem.toNat) hpos
  refine ⟨hs.own.trans hp.own, ?_, ?_, ?_, ?_, ?_, hs.live, fun hc => hs.cached (hp.cached hc),
    ?_, ?_⟩
  · rw [hs.ladder, hreach', hout, hrem, hres, hreach]
  · rw [List.map_append, hfills, hr.fills, hs.fills, hreach', hrem, hcon, hreach,
      Greedy.consume_append]
  · rw [hs.remaining, hreach', hreach, hrem, Greedy.supply_append, Greedy.supply_append,
      Greedy.supply_residue]
    omega
  · rw [hs.locate, hreach', hrem, hexh, hreach, Greedy.exhausted_append hpos.right,
      List.map_append, List.foldl_append, hp.locate]
  · intro f hf
    rcases List.mem_append.mp hf with hf | hf
    · exact hr.taker f (hfills ▸ hf)
    · exact hs.taker f hf
  · intro q hq
    by_cases hpq : px = q
    · rw [← hpq, ExtTreeMap.mem_iff_isSome_getElem?, Book.getElem?_of_levels h]
      rfl
    · have hmem := hs.keys q hq
      rwa [ExtTreeMap.mem_iff_isSome_getElem?, hp.others q hpq,
        ← ExtTreeMap.mem_iff_isSome_getElem?] at hmem
  · intro q hq
    have hpq : px ≠ q := fun e => by rw [e, hq] at hacc; exact absurd hacc (by decide)
    rw [hs.frame q hq]
    exact hp.others q hpq

/-- **The outer loop.**  Induction on the fuel: either the best level is emptied and the rest of
the loop serves the other levels, or the taker is used up there. -/
theorem cross_serves (o : NewOrder) : ∀ (fuel : ℕ) {b : Book} (rem : UInt64), b.LiveLevels →
    (b.levels o.side.opposite).length < fuel → (Book.cross o fuel b rem).Serves o b rem
  | 0, _, _, _, hfuel => absurd hfuel (Nat.not_lt_zero _)
  | fuel + 1, b, rem, hlive, hfuel => by
      rw [Book.cross]
      split
      · exact serves_stop hlive (Or.inl ‹_›)
      · rw [Book.bestOf_eq]
        cases hls : b.levels o.side.opposite with
        | nil =>
            refine serves_stop hlive (Or.inr ?_)
            rw [Book.opposing, Book.ladder, hls]
            rfl
        | cons x ls =>
            obtain ⟨px, l⟩ := x
            simp only [List.head?_cons, Option.map_some]
            split
            · rename_i hacc
              refine serves_stop hlive (Or.inr (List.filter_eq_nil_iff.mpr fun x hx hxa => ?_))
              rw [acceptable_of_best hls hx hxa] at hacc
              exact absurd hacc (by decide)
            · rename_i hacc
              refine crossLevel_serves hlive hls (by simpa using hacc) ?_
              have hlive' := (crossLevel_passes rem hlive hls).live
              rw [hls, List.length_cons] at hfuel
              have hlevels := levels_crossLevel hls rem
              by_cases hq : (o.fillQueue px rem l.totalSize l.queue).level.queue = []
              · dsimp only at hlevels
                rw [if_pos hq] at hlevels
                exact cross_serves o fuel _ hlive' (by rw [hlevels]; omega)
              · have hz : (b.crossLevel o px rem).remaining = 0 := by
                  rw [book_crossLevel hls]
                  exact remaining_eq_zero_of_queue hlive hls hq
                rw [hz, cross_zero]
                exact serves_stop hlive' (Or.inl rfl)

theorem crossAll_serves {b : Book} (o : NewOrder) (h : b.LiveLevels) :
    (b.crossAll o).Serves o b o.quantity :=
  cross_serves o _ _ h (by rw [Book.length_levels]; omega)

/-- **The loop ends by itself**: either nothing remains of the taker, or nothing it accepts
remains in the book. -/
theorem cross_done {o : NewOrder} {b : Book} {rem : UInt64} {c : Crossed}
    (h : c.Serves o b rem) : c.remaining = 0 ∨ c.book.opposing o = [] := by
  by_cases h0 : c.remaining = 0
  · exact Or.inl h0
  · refine Or.inr ?_
    have hlt : supply (b.opposing o) ≤ rem.toNat := by
      have hne : c.remaining.toNat ≠ 0 := fun e => h0 (toNat_eq_zero.mp e)
      rw [h.remaining] at hne
      omega
    rw [Book.opposing, h.ladder, Greedy.residue_eq_nil_of_le hlt, List.nil_append,
      Book.outOfReach, List.filter_filter, List.filter_eq_nil_iff]
    intro x _
    cases o.acceptable x.1.price <;> decide

section Endings

variable {b : Book} {o : NewOrder}

theorem submit_filled (h0 : (b.crossAll o).remaining = 0) :
    b.submit o = ((b.crossAll o).book, (b.crossAll o).fills, Outcome.filled) := if_pos h0

theorem submit_rejected (h0 : (b.crossAll o).remaining ≠ 0) (hl : o.isLimit = false) :
    b.submit o = ((b.crossAll o).book, (b.crossAll o).fills,
      Outcome.rejected Reject.noLiquidity) := by
  simp [Book.submit, h0, hl]

theorem submit_rested (h0 : (b.crossAll o).remaining ≠ 0) (hl : o.isLimit = true) :
    b.submit o = (((b.crossAll o).book.rest o (b.crossAll o).remaining).1, (b.crossAll o).fills,
      ((b.crossAll o).book.rest o (b.crossAll o).remaining).2) := by
  simp [Book.submit, h0, hl]

end Endings

/-- **The three ways a submit can end**, after the crossing phase. -/
theorem submit_cases (b : Book) (o : NewOrder) :
    ((b.crossAll o).remaining = 0 ∧
        b.submit o = ((b.crossAll o).book, (b.crossAll o).fills, Outcome.filled)) ∨
      ((b.crossAll o).remaining ≠ 0 ∧ o.isLimit = false ∧
        b.submit o = ((b.crossAll o).book, (b.crossAll o).fills,
          Outcome.rejected Reject.noLiquidity)) ∨
      ((b.crossAll o).remaining ≠ 0 ∧ o.isLimit = true ∧
        b.submit o = (((b.crossAll o).book.rest o (b.crossAll o).remaining).1,
          (b.crossAll o).fills, ((b.crossAll o).book.rest o (b.crossAll o).remaining).2)) := by
  by_cases h0 : (b.crossAll o).remaining = 0
  · exact Or.inl ⟨h0, submit_filled h0⟩
  · cases hl : o.isLimit with
    | false => exact Or.inr (Or.inl ⟨h0, rfl, submit_rejected h0 hl⟩)
    | true => exact Or.inr (Or.inr ⟨h0, rfl, submit_rested h0 hl⟩)

/-- What a submit pushes is what its crossing phase filled. -/
theorem submit_fills (b : Book) (o : NewOrder) : (b.submit o).2.1 = (b.crossAll o).fills := by
  rcases submit_cases b o with ⟨-, h⟩ | ⟨-, -, h⟩ | ⟨-, -, h⟩ <;> rw [h]

/-- A market order changes nothing after its crossing phase. -/
theorem submit_market (b : Book) (o : NewOrder) (h : o.isLimit = false) :
    (b.submit o).1 = (b.crossAll o).book := by
  rcases submit_cases b o with ⟨-, he⟩ | ⟨-, -, he⟩ | ⟨-, hl, -⟩
  · rw [he]
  · rw [he]
  · exact absurd (hl.symm.trans h) (by decide)

theorem submit_isBy {b : Book} (o : NewOrder) (hlive : b.LiveLevels) :
    ∀ f ∈ (b.submit o).2.1, f.IsBy o := by
  rw [submit_fills]
  exact (crossAll_serves o hlive).taker

/-- **Who an order meets**: the makers it accepts that have less than its quantity ahead of them,
in priority order. -/
theorem exists_fill_iff {b : Book} {o : NewOrder} (hlive : b.LiveLevels) (p : MakerTag → Prop) :
    (∃ f ∈ (b.submit o).2.1, p (f.take o.side.opposite).tag) ↔
      ∃ ys t n zs, b.opposing o = ys ++ (t, n) :: zs ∧ p t ∧ supply ys < o.quantity.toNat := by
  have hfills := (crossAll_serves o hlive).fills
  rw [← submit_fills] at hfills
  constructor
  · rintro ⟨f, hf, hp⟩
    have hmem : f.take o.side.opposite ∈ consume o.quantity.toNat (b.opposing o) :=
      hfills ▸ List.mem_map_of_mem hf
    obtain ⟨ts₁, ts₂, hsplit⟩ := List.append_of_mem hmem
    obtain ⟨ys, n, zs, hxs, hlt, -⟩ := Greedy.consume_split hsplit
    exact ⟨ys, _, n, zs, hxs, hp, hlt⟩
  · rintro ⟨ys, t, n, zs, hxs, hp, hlt⟩
    have hmem : ∃ u ∈ consume o.quantity.toNat (b.opposing o), u.tag = t := by
      rw [hxs, Greedy.consume_append, consume, if_neg (by omega)]
      exact ⟨_, List.mem_append_right _ List.mem_cons_self, rfl⟩
    obtain ⟨u, hu, rfl⟩ := hmem
    rw [← hfills] at hu
    obtain ⟨f, hf, rfl⟩ := List.mem_map.mp hu
    exact ⟨f, hf, hp⟩

/-- A property of books that crossing and then resting a remainder keep is kept by a submit. -/
theorem submit_book {P : Book → Prop} {b : Book} {o : NewOrder} (hcross : P (b.crossAll o).book)
    (hrest : (b.crossAll o).remaining ≠ 0 →
      P ((b.crossAll o).book.rest o (b.crossAll o).remaining).1) : P (b.submit o).1 := by
  rcases submit_cases b o with ⟨-, h⟩ | ⟨-, -, h⟩ | ⟨h0, -, h⟩ <;> rw [h]
  · exact hcross
  · exact hcross
  · exact hrest h0

end HotpathIpc
