import HotpathIpc.Exchange.Venue
import HotpathIpc.OrderBook.Arithmetic
import Mathlib.Data.List.Chain

/-!
# Market data

The end of the main loop of `src/bin/exchange.rs`: after the orders and the participant round of an
iteration, the top of the book is published if it moved.

* A side without orders is quoted as price 0.
* `i64` arithmetic wraps; prices are `Int`.
* The orders that an iteration receives, whether its round is due, and the timestamp it reads are
  its input.
* Symbol, exchange and tick type are constants that nothing here reads, and are left out.

* `Feed.step` — one iteration; `published` — all that a run published.
* `Follows` — what a run published, against the book it left; `follows_step` is its step.
* `coherent_step` — what one iteration publishes, from a sound book with right totals.
* **`market_data_coherent`** — every run publishes the book's touch, in sequence and only when it
  moved, and a two-sided quote is coherent.
-/

namespace HotpathIpc

open Std (ExtTreeMap)

/-- Market-data tick. -/
structure MarketTick where
  timestampNs : UInt64
  price : Int
  quantity : UInt64
  bid : Int
  ask : Int
  volume24h : UInt64
  sequence : UInt64
deriving DecidableEq, Repr

/-- Order-book snapshot. -/
structure OrderBookSnapshot where
  timestampNs : UInt64
  /-- number of levels -/
  depth : UInt8
  bestBid : Int
  bestAsk : Int
  bidSize : UInt64
  askSize : UInt64
  midPrice : Int
  spread : Int
deriving DecidableEq, Repr

/-- Wrap to an `i64`. -/
def wrapI64 (x : Int) : Int := x.bmod (2 ^ 64)

/-- What one iteration of the loop meets. -/
structure Iteration where
  orders : List OrderCommand
  /-- the draws of the participant round, if it is due -/
  round : Option Draws
  rdtsc : UInt64

def Iteration.events (it : Iteration) : List Event :=
  it.orders.map Event.order ++ it.round.toList.map Event.round

/-- The main loop: the exchange and what it published last. -/
structure Feed where
  exchange : Exchange
  seq : UInt64
  lastBid : Int
  lastAsk : Int

/-- The best bid and ask, 0 for a side without orders. -/
def Book.touch (b : Book) : Int × Int := (b.bestBid.getD 0, b.bestAsk.getD 0)

def midOf (bid ask : Int) : Int :=
  if 0 < bid ∧ 0 < ask then (wrapI64 (bid + ask)).tdiv 2 else max bid ask

def tickOf (bid ask : Int) (seq rdtsc : UInt64) : MarketTick where
  timestampNs := rdtsc
  price := midOf bid ask
  quantity := 100000000
  bid := bid
  ask := ask
  volume24h := 0
  sequence := seq

def Book.snapshot (b : Book) (bid ask : Int) (rdtsc : UInt64) : OrderBookSnapshot where
  timestampNs := rdtsc
  depth := UInt8.ofNat (min b.bidLevelCount 255)
  bestBid := bid
  bestAsk := ask
  bidSize := b.sizeAt Side.buy bid
  askSize := b.sizeAt Side.sell ask
  midPrice := midOf bid ask
  spread := max (wrapI64 (ask - bid)) 0

namespace Feed

/-- The loop before its first iteration. -/
def start (x : Exchange) : Feed := ⟨x, 0, 0, 0⟩

/-- One iteration of the loop. -/
def step (commission : Int → UInt64 → Int) (f : Feed) (it : Iteration) :
    Feed × Option (MarketTick × OrderBookSnapshot) :=
  let x := Mealy.exec (Exchange.step commission) f.exchange it.events
  let (bid, ask) := x.book.touch
  if bid ≠ f.lastBid ∨ ask ≠ f.lastAsk then
    let seq := f.seq + 1
    (⟨x, seq, bid, ask⟩, some (tickOf bid ask seq it.rdtsc, x.book.snapshot bid ask it.rdtsc))
  else ({ f with exchange := x }, none)

end Feed

/-- What a run published. -/
def published (commission : Int → UInt64 → Int) (x : Exchange) (its : List Iteration) :
    List (MarketTick × OrderBookSnapshot) :=
  (Mealy.outs (Feed.step commission) (Feed.start x) its).filterMap id

/-- The numbers 1, 2, …, `n` as `u64`. -/
def serials (n : ℕ) : List UInt64 := (List.range' 1 n).map UInt64.ofNat

theorem serials_succ (n : ℕ) : serials (n + 1) = serials n ++ [UInt64.ofNat n + 1] := by
  rw [serials, List.range'_1_concat, List.map_append, List.map_singleton, Nat.add_comm 1 n,
    UInt64.ofNat_add]
  rfl

/-- The bid and ask that were published last. -/
def lastQuote (pubs : List (MarketTick × OrderBookSnapshot)) : Int × Int :=
  (pubs.getLast?.map fun p => (p.1.bid, p.1.ask)).getD (0, 0)

/-! ## A run and what it published -/

section Run

variable {commission : Int → UInt64 → Int}

/-- What was published so far, against the state of the loop. -/
structure Follows (pubs : List (MarketTick × OrderBookSnapshot)) (f : Feed) : Prop where
  quote : lastQuote pubs = (f.lastBid, f.lastAsk)
  seq : f.seq = UInt64.ofNat pubs.length
  sequence : pubs.map (fun p => p.1.sequence) = serials pubs.length
  moves : pubs.IsChain fun p q => p.1.bid ≠ q.1.bid ∨ p.1.ask ≠ q.1.ask

theorem follows_start (x : Exchange) : Follows [] (Feed.start x) :=
  ⟨rfl, rfl, rfl, List.isChain_nil⟩

theorem lastQuote_append (pubs : List (MarketTick × OrderBookSnapshot))
    (p : MarketTick × OrderBookSnapshot) : lastQuote (pubs ++ [p]) = (p.1.bid, p.1.ask) := by
  rw [lastQuote, List.getLast?_concat]
  rfl

/-- After an iteration the loop knows the book's touch. -/
theorem touch_step (f : Feed) (it : Iteration) :
    ((f.step commission it).1.lastBid, (f.step commission it).1.lastAsk)
      = (f.step commission it).1.exchange.book.touch := by
  rw [Feed.step]
  dsimp only
  split
  · rfl
  · rename_i hsame
    rw [not_or, not_not, not_not] at hsame
    exact Prod.ext hsame.1.symm hsame.2.symm

/-- What an iteration publishes is the next in line. -/
theorem follows_step {pubs : List (MarketTick × OrderBookSnapshot)} {f : Feed}
    (h : Follows pubs f) (it : Iteration) :
    Follows (pubs ++ (f.step commission it).2.toList) (f.step commission it).1 := by
  rw [Feed.step]
  dsimp only
  split
  · rename_i hmoved
    refine ⟨lastQuote_append pubs _, ?_, ?_, ?_⟩
    · rw [Option.toList, List.length_append, List.length_singleton, UInt64.ofNat_add, h.seq]
      rfl
    · rw [Option.toList, List.map_append, h.sequence, List.length_append, List.length_singleton,
        serials_succ, h.seq]
      rfl
    · refine List.isChain_append.mpr ⟨h.moves, List.isChain_singleton _, fun p hp q hq => ?_⟩
      -- the quote of the last one published is the one the loop remembers
      have hlast : (p.1.bid, p.1.ask) = (f.lastBid, f.lastAsk) := by
        rw [← h.quote, lastQuote, hp]
        rfl
      obtain ⟨hbid, hask⟩ := Prod.mk.inj hlast
      obtain rfl := Option.some.inj hq
      rw [hbid, hask]
      exact hmoved.imp Ne.symm Ne.symm
  · dsimp only [Option.toList]
    rw [List.append_nil]
    exact ⟨h.quote, h.seq, h.sequence, h.moves⟩

/-- **A run and what it published.** -/
theorem follows_run (x : Exchange) (its : List Iteration) : Follows (published commission x its)
    (Mealy.exec (Feed.step commission) (Feed.start x) its) :=
  Mealy.messages (J := Follows) (fun _ _ it h => follows_step h it) (follows_start x) its

theorem touch_run (x : Exchange) {its : List Iteration} (hne : its ≠ []) :
    let f := Mealy.exec (Feed.step commission) (Feed.start x) its
    (f.lastBid, f.lastAsk) = f.exchange.book.touch := by
  obtain ⟨its, it, rfl⟩ := (List.eq_nil_or_concat its).resolve_left hne
  rw [List.concat_eq_append, Mealy.exec_append]
  exact touch_step _ it

end Run

/-! ## Coherent quotes -/

/-- Every resting price is strictly between 0 and 2^62 and every level's total is below 2^64. -/
def Book.Quotable (b : Book) : Prop :=
  ∀ side, ∀ x ∈ b.levels side, 0 < x.1 ∧ x.1 < 2 ^ 62 ∧ queueSize x.2.queue < 2 ^ 64

/-- `size` is the positive total that rests at a price. -/
def Book.Rests (b : Book) (side : Side) (px : Int) (size : UInt64) : Prop :=
  0 < size ∧ ∃ level, (b.half side)[px]? = some level ∧ size.toNat = queueSize level.queue

/-- A two-sided tick and its snapshot tell the book as it is. -/
structure Coherent (b : Book) (tick : MarketTick) (snap : OrderBookSnapshot) : Prop where
  bid : b.bestBid = some tick.bid
  ask : b.bestAsk = some tick.ask
  uncrossed : tick.bid < tick.ask
  price : tick.bid ≤ tick.price ∧ tick.price ≤ tick.ask
  same : (snap.bestBid, snap.bestAsk, snap.midPrice) = (tick.bid, tick.ask, tick.price)
  spread : snap.spread = tick.ask - tick.bid
  bidSize : b.Rests Side.buy tick.bid snap.bidSize
  askSize : b.Rests Side.sell tick.ask snap.askSize

theorem wrapI64_eq {x : Int} (hlo : -2 ^ 63 ≤ x) (hhi : x < 2 ^ 63) : wrapI64 x = x :=
  Int.bmod_eq_of_le (by omega) (by omega)

/-- The midpoint, rounded towards the bid. -/
theorem midOf_between {bid ask : Int} (hbid : 0 < bid) (hlt : bid < ask) (hask : ask < 2 ^ 62) :
    bid ≤ midOf bid ask ∧ midOf bid ask ≤ ask := by
  rw [midOf, if_pos ⟨hbid, by omega⟩, wrapI64_eq (by omega) (by omega),
    Int.tdiv_eq_ediv_of_nonneg (by omega)]
  omega

theorem quotable_level {b : Book} (h : b.Quotable) {s : Side} {px : Int} {l : PriceLevel}
    (hl : (b.half s)[px]? = some l) : 0 < px ∧ px < 2 ^ 62 ∧ queueSize l.queue < 2 ^ 64 :=
  h s (px, l) (Book.mem_levels.mpr hl)

theorem queueSize_pos : ∀ {q : List RestingOrder}, q ≠ [] → (∀ m ∈ q, m.remaining ≠ 0) →
    0 < queueSize q
  | [], hne, _ => absurd rfl hne
  | m :: q, _, h => by
      have hm := toNat_eq_zero.not.mpr (h m List.mem_cons_self)
      rw [queueSize_cons]
      omega

/-- What `sizeAt` reads at the best price. -/
theorem rests_best {b : Book} (hb : b.Sound) (hc : b.CachedLevels) (h : b.Quotable) {s : Side}
    {px : Int} (hbest : b.bestOf s = some px) :
    (0 < px ∧ px < 2 ^ 62) ∧ b.Rests s px (b.sizeAt s px) := by
  have hmem := mem_half_of_bestOf hbest
  rw [ExtTreeMap.mem_iff_isSome_getElem?, Option.isSome_iff_exists] at hmem
  obtain ⟨l, hl⟩ := hmem
  obtain ⟨hpos, hlt, hsize⟩ := quotable_level h hl
  obtain ⟨hne, hrem⟩ := hb.live s px l hl
  have hread : b.sizeAt s px = l.totalSize := by
    rw [Book.sizeAt, hl]
    rfl
  have hexact : l.totalSize.toNat = queueSize l.queue := exact_of_cached (hc s px l hl) hsize
  have hposSize := queueSize_pos hne hrem
  refine ⟨⟨hpos, hlt⟩, ?_, l, hl, ?_⟩
  · rw [hread, UInt64.lt_iff_toNat_lt, hexact]
    exact hposSize
  · rw [hread]
    exact hexact

/-- A side is quoted with a positive price if and only if something rests there. -/
theorem touch_pos {b : Book} (hb : b.Sound) (hc : b.CachedLevels) (h : b.Quotable) (s : Side) :
    0 < (b.bestOf s).getD 0 ↔ (b.bestOf s).isSome := by
  cases hbest : b.bestOf s with
  | none => exact iff_of_false (lt_irrefl 0) (by simp)
  | some px => exact iff_of_true (rests_best hb hc h hbest).1.1 rfl

/-- A sound book with right totals is published as it is. -/
theorem coherent_touch {b : Book} (hb : b.Sound) (hc : b.CachedLevels) (h : b.Quotable)
    {bid ask : Int} (hbid : b.bestBid = some bid) (hask : b.bestAsk = some ask)
    (seq rdtsc : UInt64) :
    Coherent b (tickOf bid ask seq rdtsc) (b.snapshot bid ask rdtsc) := by
  obtain ⟨⟨hbpos, hblt⟩, hbsize⟩ := rests_best (s := Side.buy) hb hc h hbid
  obtain ⟨⟨hapos, halt⟩, hasize⟩ := rests_best (s := Side.sell) hb hc h hask
  have hlt : bid < ask := hb.uncrossed Side.buy bid ask (mem_half_of_bestOf (s := Side.buy) hbid)
    (mem_half_of_bestOf (s := Side.sell) hask)
  refine ⟨hbid, hask, hlt, midOf_between hbpos hlt halt, rfl, ?_, hbsize, hasize⟩
  show max (wrapI64 (ask - bid)) 0 = ask - bid
  rw [wrapI64_eq (by omega) (by omega), max_eq_left (by omega)]

/-! ## Runs of the exchange -/

section Exchange

variable {commission : Int → UInt64 → Int}

/-- The book is sound and its totals are right. -/
def Exchange.Kept (x : Exchange) : Prop := x.book.Sound ∧ x.book.CachedLevels

theorem kept_primed (ds : List Draws) : (Exchange.primed ds).Kept := by
  obtain ⟨cs, hbook, -⟩ := primed_book ds
  have hnew : Book.new.CachedLevels := fun s px l hl => by simp at hl
  rw [Exchange.Kept, hbook]
  exact ⟨sound_exec cs, (cached_trace cs sound_new hnew).1⟩

theorem kept_step {x : Exchange} (h : x.Kept) (ev : Event) : (x.step commission ev).1.Kept := by
  rw [Exchange.Kept, step_book]
  exact ⟨(sound_run h.1 _).1, (cached_trace _ h.1 h.2).1⟩

theorem exchange_step (f : Feed) (it : Iteration) : (f.step commission it).1.exchange
    = Mealy.exec (Exchange.step commission) f.exchange it.events := by
  rw [Feed.step]
  dsimp only
  split <;> rfl

theorem kept_iteration {f : Feed} (h : f.exchange.Kept) (it : Iteration) :
    (f.step commission it).1.exchange.Kept := by
  rw [exchange_step]
  exact (Mealy.preserved (I := Exchange.Kept) (fun x ev hx => kept_step hx ev) h it.events).1

/-- What an iteration publishes is the touch of the book it leaves. -/
theorem out_step {f : Feed} {it : Iteration} {tick : MarketTick} {snap : OrderBookSnapshot}
    (h : (f.step commission it).2 = some (tick, snap)) :
    let b := (f.step commission it).1.exchange.book
    ∃ seq, tick = tickOf b.touch.1 b.touch.2 seq it.rdtsc ∧
      snap = b.snapshot b.touch.1 b.touch.2 it.rdtsc := by
  rw [Feed.step] at h ⊢
  dsimp only at h ⊢
  split at h
  · rename_i hmoved
    rw [if_pos hmoved]
    obtain ⟨rfl, rfl⟩ := Prod.mk.inj (Option.some.inj h)
    exact ⟨_, rfl, rfl⟩
  · exact absurd h (by simp)

/-- **Coherent market data.**  In every run from a primed exchange whose books stay quotable: the
last quote is the book's touch after every iteration, the ticks are numbered 1, 2, …, each one's
quote differs from that of the one before, a side is quoted above 0 exactly when it is there,
and a quote with both sides is coherent with the book it was taken from. -/
theorem market_data_coherent (ds : List Draws) (its : List Iteration)
    (h : ∀ e ∈ Mealy.trace (Feed.step commission) (Feed.start (Exchange.primed ds)) its,
      e.post.exchange.book.Quotable) :
    let f := Mealy.exec (Feed.step commission) (Feed.start (Exchange.primed ds)) its
    let pubs := published commission (Exchange.primed ds) its
    (its ≠ [] → lastQuote pubs = f.exchange.book.touch) ∧
      pubs.map (fun p => p.1.sequence) = serials pubs.length ∧
      (pubs.IsChain fun p q => p.1.bid ≠ q.1.bid ∨ p.1.ask ≠ q.1.ask) ∧
      ∀ e ∈ Mealy.trace (Feed.step commission) (Feed.start (Exchange.primed ds)) its,
        ∀ tick snap, e.out = some (tick, snap) →
          (0 < tick.bid ↔ e.post.exchange.book.bestBid.isSome) ∧
          (0 < tick.ask ↔ e.post.exchange.book.bestAsk.isSome) ∧
          (0 < tick.bid → 0 < tick.ask → Coherent e.post.exchange.book tick snap) := by
  intro f pubs
  have hfollows : Follows pubs f := follows_run (Exchange.primed ds) its
  refine ⟨fun hne => ?_, hfollows.sequence, hfollows.moves, fun e he tick snap hout => ?_⟩
  · exact hfollows.quote.trans (touch_run _ hne)
  · have hpost := Mealy.step_of_mem_trace he
    obtain ⟨hb, hc⟩ := ((Mealy.preserved (I := fun f => f.exchange.Kept)
      (fun f it hf => kept_iteration hf it) (kept_primed ds) its).2 e he).2
    have hq := h e he
    obtain ⟨seq, rfl, rfl⟩ := out_step ((congrArg Prod.snd hpost).trans hout)
    rw [hpost]
    have hbid := touch_pos hb hc hq Side.buy
    have hask := touch_pos hb hc hq Side.sell
    refine ⟨hbid, hask, fun hbpos hapos => ?_⟩
    obtain ⟨bid, hbest⟩ := Option.isSome_iff_exists.mp (hbid.mp hbpos)
    obtain ⟨ask, hbestAsk⟩ := Option.isSome_iff_exists.mp (hask.mp hapos)
    have hbest : e.post.exchange.book.bestBid = some bid := hbest
    have hbestAsk : e.post.exchange.book.bestAsk = some ask := hbestAsk
    have htouch : e.post.exchange.book.touch = (bid, ask) := by
      rw [Book.touch, hbest, hbestAsk]
      rfl
    rw [htouch]
    exact coherent_touch hb hc hq hbest hbestAsk seq e.input.rdtsc

/-- One round of quotes, published when the loop first looks. -/
theorem market_data_coherent_calm :
    lastQuote (published oneBp (Exchange.primed [calmRound]) [⟨[], none, 7⟩])
      = (4999900000000, 5000100000000) := by
  have hq : ∀ e ∈ Mealy.trace (Feed.step oneBp) (Feed.start (Exchange.primed [calmRound]))
      [⟨[], none, 7⟩], e.post.exchange.book.Quotable := by
    intro e he side
    obtain rfl := List.mem_singleton.mp he
    cases side <;> decide +kernel
  rw [(market_data_coherent [calmRound] [⟨[], none, 7⟩] hq).1 (List.cons_ne_nil _ _)]
  decide +kernel

end Exchange

end HotpathIpc
