import HotpathIpc.OrderBook.Invariant

/-!
# The id index

`locate` is updated at other moments than the queues are.  `Book.Tracks b id` says that it still
agrees with them about one id: the places (side and price) of the orders with that id are the
entry of `locate`, so there is at most one such order and `locate` points at it.

The statement is per id on purpose.  A call keeps it for every id but one that it submits while
that id rests (`tracks_step`); ids that are not reused are tracked whatever others do.
-/

namespace HotpathIpc

open Std (ExtTreeMap)
open Greedy (supply residue exhausted)

/-! ## Storing a level, seen from the ladder -/

namespace Book

variable {b b' : Book} {s : Side} {px : Int} {l : PriceLevel}

theorem levels_nodup : (b.levels s).Nodup :=
  levels_pairwise.imp fun h e => h.ne (congrArg Prod.fst e)

/-- A side is its level at `px`, if any, and its other levels. -/
theorem levels_perm (b : Book) (s : Side) (px : Int) : (b.levels s).Perm
    (((b.half s)[px]?.map fun l => (px, l)).toList ++ (b.removeLevel s px).levels s) := by
  refine (List.perm_ext_iff_of_nodup levels_nodup ?_).mpr ?_
  · refine List.nodup_append.mpr ⟨?_, levels_nodup, ?_⟩
    · cases (b.half s)[px]? <;> simp
    · rintro ⟨q, k⟩ hq ⟨q', k'⟩ hq' heq
      obtain ⟨rfl, rfl⟩ := Prod.mk.inj heq
      rw [Option.mem_toList, Option.map_eq_some_iff] at hq
      obtain ⟨_, -, hk⟩ := hq
      rw [mem_levels, removeLevel, half_setHalf, ExtTreeMap.getElem?_erase,
        (Prod.mk.inj hk).1] at hq'
      simp at hq'
  · rintro ⟨q, k⟩
    rw [List.mem_append, mem_levels, mem_levels, removeLevel, half_setHalf,
      ExtTreeMap.getElem?_erase, Option.mem_toList, Option.map_eq_some_iff]
    simp only [compare_eq_iff_eq]
    by_cases hq : px = q
    · subst hq
      simp
    · simp [hq]

theorem removeLevel_storeLevel_half (b : Book) (s : Side) (px : Int) (l : PriceLevel) :
    ((b.storeLevel s px l).removeLevel s px).half s = (b.removeLevel s px).half s := by
  refine ExtTreeMap.ext_getElem? fun q => ?_
  rw [removeLevel, removeLevel, half_setHalf, half_setHalf, ExtTreeMap.getElem?_erase,
    ExtTreeMap.getElem?_erase, getElem?_storeLevel]
  by_cases hq : px = q
  · simp [hq]
  · simp [hq]

/-- **Storing a level** trades the makers it held before for those it holds now. -/
theorem ladder_storeLevel_perm (b : Book) (s : Side) (px : Int) (l : PriceLevel) :
    (makers s px (b.levelMut s px).queue ++ (b.storeLevel s px l).ladder s).Perm
      (makers s px l.queue ++ b.ladder s) := by
  have hlevel : ∀ (c : Book) (q : List RestingOrder),
      (∀ k, (c.half s)[px]? = some k → k.queue = q) → ((c.half s)[px]? = none → q = []) →
      (c.ladder s).Perm (makers s px q ++ (c.removeLevel s px).ladder s) := by
    intro c q hsome hnone
    refine ((levels_perm c s px).flatMap_right _).trans ?_
    rw [List.flatMap_append]
    refine List.Perm.append_right _ (List.Perm.of_eq ?_)
    cases hk : (c.half s)[px]? with
    | none =>
        rw [hnone hk]
        rfl
    | some k =>
        rw [← hsome k hk]
        simp
  have hold := hlevel b (b.levelMut s px).queue
    (fun k hk => by rw [levelMut, hk]; rfl) (fun hk => by rw [levelMut, hk]; rfl)
  have hnew := hlevel (b.storeLevel s px l) l.queue
    (fun k hk => by
      rw [getElem?_storeLevel, if_pos rfl] at hk
      split at hk
      · exact absurd hk (by simp)
      · rw [Option.some.inj hk])
    (fun hk => by
      rw [getElem?_storeLevel, if_pos rfl] at hk
      split at hk
      · assumption
      · exact absurd hk (by simp))
  rw [ladder_eq_of_half (removeLevel_storeLevel_half b s px l)] at hnew
  refine (hnew.append_left _).trans (List.Perm.trans ?_ (hold.symm.append_left _))
  rw [← List.append_assoc, ← List.append_assoc]
  exact List.perm_append_comm.append_right _

end Book

/-- Resting adds the remainder to the ladder of the order's side. -/
theorem ladder_rest_perm (b : Book) (o : NewOrder) (rem : UInt64) :
    ((b.rest o rem).1.ladder o.side).Perm
      ((⟨o.side, o.limitPx, o.orderId, o.isSynthetic⟩, rem.toNat) :: b.ladder o.side) := by
  rw [Book.ladder_eq_of_half (half_rest b o rem o.side)]
  have h := Book.ladder_storeLevel_perm b o.side o.limitPx (b.joined o rem)
  rw [Book.joined, makers_append, List.append_assoc] at h
  exact (List.perm_append_left_iff _).mp h

/-! ## Places -/

/-- The places of the orders with one id on one side. -/
def placesOf (id : UInt64) (xs : List (MakerTag × ℕ)) : List (Side × Int) :=
  ((xs.map Prod.fst).filter fun t => t.orderId = id).map fun t => (t.side, t.price)

@[simp] theorem placesOf_nil (id : UInt64) : placesOf id [] = [] := rfl

@[simp] theorem placesOf_append (id : UInt64) (xs ys : List (MakerTag × ℕ)) :
    placesOf id (xs ++ ys) = placesOf id xs ++ placesOf id ys := by simp [placesOf]

theorem placesOf_cons (id : UInt64) (x : MakerTag × ℕ) (xs : List (MakerTag × ℕ)) :
    placesOf id (x :: xs)
      = if x.1.orderId = id then (x.1.side, x.1.price) :: placesOf id xs else placesOf id xs := by
  unfold placesOf
  rw [List.map_cons, List.filter_cons]
  split <;> simp_all

theorem placesOf_perm (id : UInt64) {xs ys : List (MakerTag × ℕ)} (h : xs.Perm ys) :
    (placesOf id xs).Perm (placesOf id ys) :=
  ((h.map _).filter _).map _

theorem placesOf_eq_nil {id : UInt64} {xs : List (MakerTag × ℕ)} :
    placesOf id xs = [] ↔ ∀ x ∈ xs, x.1.orderId ≠ id := by
  simp [placesOf, List.filter_eq_nil_iff]

theorem mem_placesOf {id : UInt64} {xs : List (MakerTag × ℕ)} {p : Side × Int} :
    p ∈ placesOf id xs ↔ ∃ x ∈ xs, x.1.orderId = id ∧ (x.1.side, x.1.price) = p := by
  simp only [placesOf, List.mem_map, List.mem_filter, decide_eq_true_eq]
  constructor
  · rintro ⟨t, ⟨⟨x, hx, rfl⟩, hid⟩, rfl⟩
    exact ⟨x, hx, hid, rfl⟩
  · rintro ⟨x, hx, hid, rfl⟩
    exact ⟨x.1, ⟨⟨x, hx, rfl⟩, hid⟩, rfl⟩

/-- The resting orders of both sides. -/
def Book.orders (b : Book) : List (MakerTag × ℕ) := b.ladder Side.buy ++ b.ladder Side.sell

/-- The two sides in either order. -/
theorem orders_perm (b : Book) (s : Side) :
    b.orders.Perm (b.ladder s ++ b.ladder s.opposite) := by
  cases s with
  | buy => exact List.Perm.refl _
  | sell => exact List.perm_append_comm

/-- **`locate` and the queues agree about `id`.** -/
def Book.Tracks (b : Book) (id : UInt64) : Prop :=
  (placesOf id b.orders).Perm b.locate[id]?.toList

theorem tracks_new (id : UInt64) : Book.new.Tracks id := by
  have hl : ∀ s, Book.new.ladder s = [] := fun s => by cases s <;> rfl
  simp [Book.Tracks, Book.orders, hl]

theorem getElem?_foldl_erase (id : UInt64) : ∀ (ids : List UInt64)
    (m : ExtTreeMap UInt64 (Side × Int)),
      (ids.foldl ExtTreeMap.erase m)[id]? = if id ∈ ids then none else m[id]?
  | [], m => by simp
  | j :: ids, m => by
      rw [List.foldl_cons, getElem?_foldl_erase id ids, ExtTreeMap.getElem?_erase]
      by_cases hj : j = id
      · subst hj; simp
      · by_cases hm : id ∈ ids <;> simp [hj, hm, Ne.symm hj]

/-- An id that is not indexed is in no queue. -/
theorem Book.Tracks.not_mem {b : Book} {id : UInt64} (h : b.Tracks id)
    (hloc : b.locate[id]? = none) : ∀ x ∈ b.orders, x.1.orderId ≠ id := by
  rw [Book.Tracks, hloc] at h
  exact placesOf_eq_nil.mp (List.perm_nil.mp h)

/-- **Crossing keeps the index**: an order leaves the ladder exactly when its id is cleared. -/
theorem tracks_crossAll {b : Book} {id : UInt64} (o : NewOrder) (hlive : b.LiveLevels)
    (h : b.Tracks id) : (b.crossAll o).book.Tracks id := by
  have hs := crossAll_serves o hlive
  set c := b.crossAll o with hc
  set q := o.quantity.toNat with hq
  -- the places before are those of the makers that are done and the places after
  have hbefore : (placesOf id b.orders).Perm
      ((((exhausted q (b.opposing o)).filter fun t => t.orderId = id).map
        fun t => (t.side, t.price)) ++ placesOf id c.book.orders) := by
    refine (placesOf_perm id (orders_perm b o.side)).trans
      (List.Perm.trans ?_ ((placesOf_perm id (orders_perm c.book o.side)).symm.append_left _))
    rw [placesOf_append, placesOf_append, Book.ladder_eq_opposing_append, hs.ladder,
      placesOf_append, placesOf_append, Book.ladder_eq_of_half hs.own]
    have hsplit : placesOf id (b.opposing o)
        = ((exhausted q (b.opposing o)).filter fun t => t.orderId = id).map
            (fun t => (t.side, t.price)) ++ placesOf id (residue q (b.opposing o)) := by
      rw [placesOf, Greedy.map_fst_eq q (b.opposing o), List.filter_append, List.map_append]
      rfl
    rw [hsplit, List.append_assoc]
    exact List.perm_append_comm_assoc _ _ _
  have hloc : c.book.locate[id]?
      = if id ∈ (exhausted q (b.opposing o)).map MakerTag.orderId then none
        else b.locate[id]? := by
    rw [hs.locate, getElem?_foldl_erase]
  rw [Book.Tracks] at h ⊢
  have hperm := hbefore.symm.trans h
  by_cases hmem : id ∈ (exhausted q (b.opposing o)).map MakerTag.orderId
  · -- the id is cleared: it had one order, and that order is done
    rw [hloc, if_pos hmem, Option.toList_none, List.perm_nil]
    obtain ⟨t, ht, hid⟩ := List.mem_map.mp hmem
    have hne : ((exhausted q (b.opposing o)).filter fun t => t.orderId = id).map
        (fun t => (t.side, t.price)) ≠ [] := by
      refine List.ne_nil_of_mem (List.mem_map_of_mem (List.mem_filter.mpr ⟨ht, ?_⟩))
      simpa using hid
    have hlen := hperm.length_eq
    rw [List.length_append] at hlen
    have hle : b.locate[id]?.toList.length ≤ 1 := by cases b.locate[id]? <;> simp
    have hpos := List.length_pos_iff.mpr hne
    exact List.eq_nil_of_length_eq_zero (by omega)
  · -- no maker with this id is done
    have hnil : (exhausted q (b.opposing o)).filter (fun t => t.orderId = id) = [] := by
      rw [List.filter_eq_nil_iff]
      intro t ht hid
      exact hmem (List.mem_map.mpr ⟨t, ht, by simpa using hid⟩)
    rw [hloc, if_neg hmem]
    rw [hnil] at hperm
    exact hperm

/-! ## Resting and cancelling -/

theorem orders_rest (b : Book) (o : NewOrder) (rem : UInt64) : (b.rest o rem).1.orders.Perm
    ((⟨o.side, o.limitPx, o.orderId, o.isSynthetic⟩, rem.toNat) :: b.orders) := by
  refine (orders_perm _ o.side).trans ?_
  rw [Book.ladder_eq_of_half (half_rest_opposite b o rem)]
  exact ((ladder_rest_perm b o rem).append_right _).trans
    ((orders_perm b o.side).symm.cons _)

theorem tracks_rest_other {b : Book} {o : NewOrder} {id : UInt64} (rem : UInt64)
    (hne : o.orderId ≠ id) (h : b.Tracks id) : (b.rest o rem).1.Tracks id := by
  rw [Book.Tracks, locate_rest, ExtTreeMap.getElem?_insert, if_neg (by simpa using hne)]
  refine (placesOf_perm id (orders_rest b o rem)).trans ?_
  rw [placesOf_cons, if_neg hne]
  exact h

theorem tracks_rest_self {b : Book} {o : NewOrder} (rem : UInt64)
    (hloc : b.locate[o.orderId]? = none) (h : b.Tracks o.orderId) :
    (b.rest o rem).1.Tracks o.orderId := by
  rw [Book.Tracks, locate_rest, ExtTreeMap.getElem?_insert, if_pos (by simp)]
  refine (placesOf_perm _ (orders_rest b o rem)).trans ?_
  rw [placesOf_cons, if_pos rfl, placesOf_eq_nil.mpr (h.not_mem hloc)]
  exact List.Perm.refl _

/-- **What a cancel removes**: one order with the id from the indexed level, or, if the index
was stale, none. -/
theorem orders_cancel {b : Book} {id : UInt64} {s : Side} {px : Int}
    (hloc : b.locate[id]? = some (s, px)) :
    (∃ m ∈ (b.levelMut s px).queue, m.orderId = id ∧
        (b.levelMut s px).queue.find? (·.orderId = id) = some m ∧
        b.orders.Perm ((m.tag s px, m.remaining.toNat) :: (b.cancel id).1.orders)) ∨
      ((∀ m ∈ (b.levelMut s px).queue, m.orderId ≠ id) ∧
        b.orders.Perm (b.cancel id).1.orders) := by
  have hstore := Book.ladder_storeLevel_perm b s px ((b.levelMut s px).without id)
  rw [queue_without, ← Book.ladder_eq_of_half (half_cancel hloc s)] at hstore
  have hopp : (b.cancel id).1.ladder s.opposite = b.ladder s.opposite :=
    Book.ladder_eq_of_half (by rw [half_cancel hloc, Book.half_storeLevel_ne _ _ _
      (Side.opposite_ne s)])
  -- lift a statement about the side `s` to both sides
  have hlift : ∀ xs : List (MakerTag × ℕ),
      (b.ladder s).Perm (xs ++ (b.cancel id).1.ladder s) →
      b.orders.Perm (xs ++ (b.cancel id).1.orders) := by
    intro xs hxs
    refine (orders_perm b s).trans (List.Perm.trans ?_
      ((orders_perm (b.cancel id).1 s).symm.append_left xs))
    rw [← List.append_assoc, hopp]
    exact hxs.append_right _
  cases hf : (b.levelMut s px).queue.find? (·.orderId = id) with
  | none =>
      have hnone : ∀ m ∈ (b.levelMut s px).queue, m.orderId ≠ id := by simpa using hf
      rw [List.eraseP_of_forall_not (by simpa using hnone)] at hstore
      exact Or.inr ⟨hnone, hlift [] ((List.perm_append_left_iff _).mp hstore).symm⟩
  | some m =>
      obtain ⟨hm, q₁, q₂, hq, hq₁⟩ := List.find?_eq_some_iff_append.mp hf
      have her : (b.levelMut s px).queue.eraseP (·.orderId = id) = q₁ ++ q₂ := by
        rw [hq, List.eraseP_append_right _ (by simpa using hq₁), List.eraseP_cons, hm, cond_true]
      have hmem : m ∈ (b.levelMut s px).queue := by rw [hq]; simp
      refine Or.inl ⟨m, hmem, by simpa using hm, rfl, ?_⟩
      rw [her, hq, makers_append, makers_append, makers_cons, List.append_assoc,
        List.append_assoc, List.cons_append] at hstore
      have h1 := (List.perm_append_left_iff _).mp hstore
      have h2 : (b.ladder s).Perm ((m.tag s px, m.remaining.toNat) :: (b.cancel id).1.ladder s) :=
        (List.perm_append_left_iff (makers s px q₂)).mp (h1.symm.trans List.perm_middle.symm)
      exact hlift [_] h2

theorem tracks_cancel {b : Book} {id : UInt64} (j : UInt64) (h : b.Tracks id) :
    (b.cancel j).1.Tracks id := by
  cases hloc : b.locate[j]? with
  | none => rwa [cancel_none hloc]
  | some sp =>
      obtain ⟨s, px⟩ := sp
      rw [Book.Tracks, locate_cancel hloc, ExtTreeMap.getElem?_erase]
      by_cases hj : j = id
      · subst hj
        rw [if_pos (by simp), Option.toList_none, List.perm_nil]
        rw [Book.Tracks, hloc] at h
        rcases orders_cancel hloc with ⟨m, -, hid, -, hperm⟩ | ⟨hnone, hperm⟩
        · have hp := (placesOf_perm j hperm).symm.trans h
          rw [placesOf_cons, if_pos (show (m.tag s px).orderId = j from hid)] at hp
          exact List.perm_nil.mp (List.Perm.cons_inv (hp : List.Perm _ [(s, px)]))
        · -- the index is not stale about a tracked id
          obtain ⟨x, hx, hid, hplace⟩ := mem_placesOf.mp
            (h.symm.subset (List.mem_singleton.mpr rfl) : (s, px) ∈ placesOf j b.orders)
          obtain ⟨hside, hprice⟩ := Prod.mk.inj hplace
          have hxs : x ∈ b.ladder s := by
            rcases List.mem_append.mp hx with hx | hx <;>
              rwa [← hside, Book.side_of_mem_ladder hx]
          obtain ⟨l, hl, hxl⟩ := Book.mem_ladder.mp hxs
          obtain ⟨m, hm, hmx⟩ := List.mem_map.mp hxl
          have hlevel : b.levelMut s px = l := by
            rw [Book.levelMut, ← hprice, hl]
            rfl
          exact absurd ((congrArg (fun y => y.1.orderId) hmx).trans hid) (hnone m (hlevel ▸ hm))
      · rw [if_neg (by simpa using hj)]
        rcases orders_cancel hloc with ⟨m, -, hid, -, hperm⟩ | ⟨-, hperm⟩
        · have hp := (placesOf_perm id hperm).symm.trans h
          have hne : (m.tag s px).orderId ≠ id := fun e => hj (hid.symm.trans e)
          rwa [placesOf_cons, if_neg hne] at hp
        · exact (placesOf_perm id hperm).symm.trans h

/-! ## One call, and runs -/

/-- A submit is fresh if its id is not resting at that moment. -/
def Call.Fresh (b : Book) : Call → Prop
  | Call.submit o => b.isResting o.orderId = false
  | Call.cancel _ => True

instance (b : Book) (call : Call) : Decidable (call.Fresh b) := by
  cases call <;> unfold Call.Fresh <;> infer_instance

theorem isResting_eq_false {b : Book} {id : UInt64} :
    b.isResting id = false ↔ b.locate[id]? = none := by
  rw [Book.isResting, ← Bool.not_eq_true, ExtTreeMap.contains_iff_mem]
  simp

theorem isResting_eq_true {b : Book} {id : UInt64} {p : Side × Int} (h : b.locate[id]? = some p) :
    b.isResting id = true := by
  rw [Book.isResting, ExtTreeMap.contains_iff_mem, ExtTreeMap.mem_iff_isSome_getElem?, h]
  rfl

/-- An id whose order is not there before crossing is not there after it. -/
theorem locate_crossAll_none {b : Book} {o : NewOrder} {id : UInt64} (hlive : b.LiveLevels)
    (h : b.locate[id]? = none) : (b.crossAll o).book.locate[id]? = none := by
  rw [(crossAll_serves o hlive).locate, getElem?_foldl_erase, h, ite_self]

/-- A submit of another order, or any cancel, does not make an id rest. -/
theorem locate_step_none {b : Book} {call : Call} {id : UInt64} (h : b.Sound ∧ b.locate[id]? = none)
    (hother : ∀ o, call = Call.submit o → o.orderId ≠ id) :
    (b.step call).1.Sound ∧ (b.step call).1.locate[id]? = none := by
  refine ⟨sound_step b call h.1, ?_⟩
  cases call with
  | submit o =>
      have hcross := locate_crossAll_none (o := o) h.1.live h.2
      refine submit_book (P := fun c => c.locate[id]? = none) hcross fun _ => ?_
      rw [locate_rest, ExtTreeMap.getElem?_insert, if_neg (by simpa using hother o rfl), hcross]
  | cancel j =>
      have hstep : b.step (Call.cancel j) = ((b.cancel j).1, ⟨[], (b.cancel j).2⟩) := rfl
      rw [hstep]
      cases hloc : b.locate[j]? with
      | none => rw [cancel_none hloc, h.2]
      | some up => rw [locate_cancel hloc, ExtTreeMap.getElem?_erase, h.2, ite_self]

/-- **One call keeps the index right about `id`**, unless it submits `id` while it rests. -/
theorem tracks_step {b : Book} {id : UInt64} {call : Call} (hlive : b.LiveLevels)
    (hfresh : ∀ o, call = Call.submit o → o.orderId = id → b.isResting id = false)
    (h : b.Tracks id) : (b.step call).1.Tracks id := by
  cases call with
  | cancel j => exact tracks_cancel j h
  | submit o =>
      have hc := tracks_crossAll o hlive h
      refine submit_book (P := fun b => b.Tracks id) hc fun _ => ?_
      by_cases hid : o.orderId = id
      · have hloc := isResting_eq_false.mp (hfresh o rfl hid)
        subst hid
        exact tracks_rest_self _ (locate_crossAll_none hlive hloc) hc
      · exact tracks_rest_other _ hid hc

/-- In a run of fresh submits every id is tracked, in every book along the way. -/
theorem tracks_trace {cs : List Call}
    (hfresh : ∀ e ∈ Mealy.trace Book.step Book.new cs, e.input.Fresh e.pre) (id : UInt64) :
    (Mealy.exec Book.step Book.new cs).Tracks id ∧
      ∀ e ∈ Mealy.trace Book.step Book.new cs, e.pre.Tracks id ∧ e.post.Tracks id := by
  have hstep : ∀ (b : Book) (call : Call), b.Sound ∧ b.Tracks id → call.Fresh b →
      (b.step call).1.Sound ∧ (b.step call).1.Tracks id := by
    intro b call ⟨hs, ht⟩ hf
    refine ⟨sound_step b call hs, tracks_step hs.live ?_ ht⟩
    rintro o rfl rfl
    exact hf
  obtain ⟨hend, hall⟩ := Mealy.invariant (g := fun b call => Call.Fresh b call) hstep
    ⟨sound_new, tracks_new id⟩ hfresh
  exact ⟨hend.2, fun e he => ⟨(hall e he).1.2, (hall e he).2.2⟩⟩

/-! ## What rests was submitted -/

/-- Crossing leaves resting only what rested before. -/
theorem mem_orders_crossAll {b : Book} {o : NewOrder} (hlive : b.LiveLevels) :
    ∀ x ∈ (b.crossAll o).book.orders, x.1 ∈ b.orders.map Prod.fst := by
  intro x hx
  have hs := crossAll_serves o hlive
  have hsides := (orders_perm _ o.side).subset hx
  rw [Book.ladder_eq_of_half hs.own, hs.ladder] at hsides
  refine ((orders_perm b o.side).map Prod.fst).symm.subset ?_
  rw [List.map_append, Book.ladder_eq_opposing_append, List.map_append,
    Greedy.map_fst_eq o.quantity.toNat (b.opposing o)]
  simp only [List.mem_append, List.mem_map] at hsides ⊢
  rcases hsides with hx | hx | hx
  · exact Or.inl ⟨x, hx, rfl⟩
  · exact Or.inr (Or.inl (Or.inr ⟨x, hx, rfl⟩))
  · exact Or.inr (Or.inr ⟨x, hx, rfl⟩)

/-- A call leaves resting only what rested before or what it submits. -/
theorem mem_orders_step {b : Book} {call : Call} (hlive : b.LiveLevels) {x : MakerTag × ℕ}
    (hx : x ∈ (b.step call).1.orders) : x.1 ∈ b.orders.map Prod.fst ∨
      ∃ o, call = Call.submit o ∧ x.1.orderId = o.orderId ∧ x.1.isSynthetic = o.isSynthetic := by
  cases call with
  | cancel id =>
      refine Or.inl ?_
      have hx : x ∈ (b.cancel id).1.orders := hx
      cases hloc : b.locate[id]? with
      | none =>
          rw [cancel_none hloc] at hx
          exact List.mem_map_of_mem hx
      | some sp =>
          rcases orders_cancel hloc with ⟨m, -, -, -, hperm⟩ | ⟨-, hperm⟩
          · exact List.mem_map_of_mem (hperm.symm.subset (List.mem_cons_of_mem _ hx))
          · exact List.mem_map_of_mem (hperm.symm.subset hx)
  | submit o =>
      refine submit_book (P := fun c => x ∈ c.orders → x.1 ∈ b.orders.map Prod.fst ∨
        ∃ o', Call.submit o = Call.submit o' ∧ x.1.orderId = o'.orderId ∧
          x.1.isSynthetic = o'.isSynthetic)
        (fun hy => Or.inl (mem_orders_crossAll hlive x hy)) (fun _ hy => ?_) hx
      rcases List.mem_cons.mp ((orders_rest _ o _).subset hy) with rfl | hy
      · exact Or.inr ⟨o, rfl, rfl, rfl⟩
      · exact Or.inl (mem_orders_crossAll hlive x hy)

/-- **What all submits of a run satisfy, all orders resting in it satisfy**, as far as it is about
their id and flag. -/
theorem orders_trace {P : UInt64 → Bool → Prop} {b : Book} {cs : List Call} (hb : b.Sound)
    (hstart : ∀ x ∈ b.orders, P x.1.orderId x.1.isSynthetic)
    (hcs : ∀ o, Call.submit o ∈ cs → P o.orderId o.isSynthetic) :
    (∀ x ∈ (Mealy.exec Book.step b cs).orders, P x.1.orderId x.1.isSynthetic) ∧
      ∀ e ∈ Mealy.trace Book.step b cs, ∀ x ∈ e.pre.orders, P x.1.orderId x.1.isSynthetic := by
  have hstep : ∀ (c : Book) (call : Call),
      (c.Sound ∧ ∀ x ∈ c.orders, P x.1.orderId x.1.isSynthetic) →
      (∀ o, call = Call.submit o → P o.orderId o.isSynthetic) →
      (c.step call).1.Sound ∧ ∀ x ∈ (c.step call).1.orders, P x.1.orderId x.1.isSynthetic := by
    rintro c call ⟨hc, hP⟩ hcall
    refine ⟨sound_step c call hc, fun x hx => ?_⟩
    rcases mem_orders_step hc.live hx with hmem | ⟨o, rfl, hid, hsyn⟩
    · obtain ⟨y, hy, heq⟩ := List.mem_map.mp hmem
      rw [← heq]
      exact hP y hy
    · rw [hid, hsyn]
      exact hcall o rfl
  have hguard : ∀ e ∈ Mealy.trace Book.step b cs,
      ∀ o, e.input = Call.submit o → P o.orderId o.isSynthetic := by
    intro e he o ho
    refine hcs o ?_
    rw [← ho, ← Mealy.map_input_trace Book.step b cs]
    exact List.mem_map_of_mem he
  obtain ⟨hend, hall⟩ := Mealy.invariant
    (g := fun _ call => ∀ o, call = Call.submit o → P o.orderId o.isSynthetic) hstep
    ⟨hb, hstart⟩ hguard
  exact ⟨hend.2, fun e he => (hall e he).1.2⟩

end HotpathIpc
