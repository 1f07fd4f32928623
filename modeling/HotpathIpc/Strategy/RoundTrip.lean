import HotpathIpc.Strategy.JsonText

/-!
# Graphs and their JSON

A graph survives being written as JSON: `parse` reads every standard text of it as the graph itself.

* `Shows` — a JSON value shows a graph: the members that are read are there, each once, in any
  order and among others.  `GraphSpec.Plain` is the alphabet of the strings.
* `lookup_readMembers` — a map that members were inserted into, one by one.
* `ofJson_shown` — one node; **`parse_document`** — the whole graph.
-/

namespace HotpathIpc

open Std (ExtTreeMap)
open JsonText

variable {F : Type}

/-! ## What a value shows -/

/-- Printable ASCII, newlines and tabs. -/
def Plain (s : String) : Prop :=
  ∀ c ∈ s.toList, c = '\n' ∨ c = '\t' ∨ (32 ≤ c.toNat ∧ c.toNat ≤ 126)

/-- An object with one member of this name. -/
def Json.Has (v : Json F) (key : String) (x : Json F) : Prop :=
  ∃ m, v = Json.obj m ∧ m.filter (fun p => p.1 = key) = [(key, x)]

/-- The numbers and strings among the members are the properties. -/
structure PropertiesShown (props : List (String × Json F)) (node : GNode F) : Prop where
  nums : ∀ key x, (key, Json.num x) ∈ props ↔ node.nums[key]? = some x
  strs : ∀ key s, (key, Json.str s) ∈ props ↔ node.strs[key]? = some s
  once : ∀ p ∈ props, p.2.asF64.isSome ∨ p.2.asStr.isSome →
    props.filter (fun q => q.1 = p.1) = [p]

structure NodeShown (v : Json F) (node : GNode F) : Prop where
  id : v.Has "id" (Json.str node.id)
  ntype : v.Has "type" (Json.str node.ntype)
  properties : ∃ props, v.Has "properties" (Json.obj props) ∧ PropertiesShown props node

def ConnectionShown (v : Json F) (c : String × String) : Prop :=
  v.Has "from" (Json.str c.1) ∧ v.Has "to" (Json.str c.2)

/-- `{canvas: {nodes, connections}}`, whatever else is in the objects. -/
def Shows (v : Json F) (spec : GraphSpec F) : Prop :=
  ∃ canvas nodes connections, v.Has "canvas" canvas ∧ canvas.Has "nodes" (Json.arr nodes) ∧
    canvas.Has "connections" (Json.arr connections) ∧ List.Forall₂ NodeShown nodes spec.nodes ∧
    List.Forall₂ ConnectionShown connections spec.connections

/-- The strings of a graph are plain, and no connection ends in the empty string. -/
structure GraphSpec.Plain (spec : GraphSpec F) : Prop where
  nodes : ∀ node ∈ spec.nodes, HotpathIpc.Plain node.id ∧ HotpathIpc.Plain node.ntype ∧
    (∀ key x, node.nums[key]? = some x → HotpathIpc.Plain key) ∧
    ∀ key s, node.strs[key]? = some s → HotpathIpc.Plain key ∧ HotpathIpc.Plain s
  connections : ∀ c ∈ spec.connections, HotpathIpc.Plain c.1 ∧ HotpathIpc.Plain c.2 ∧
    c.1 ≠ "" ∧ c.2 ≠ ""

/-! ## Plain strings -/

theorem Plain.ascii {s : String} (h : Plain s) : ∀ c ∈ s.toList, c.toNat < 128 := by
  intro c hc
  rcases h c hc with rfl | rfl | h
  · decide
  · decide
  · omega

theorem latinChars_plain : ∀ {s : List Char}, (∀ c ∈ s, c.toNat < 128) → latinChars s = s
  | [], _ => rfl
  | c :: s, h => by
      rw [latinChars_cons, latinChars_ascii (h c List.mem_cons_self),
        latinChars_plain fun d hd => h d (List.mem_cons_of_mem c hd)]
      rfl

theorem latin_plain {s : String} (h : Plain s) : latin s = s := by
  rw [latin, latinChars_plain h.ascii, String.ofList_toList]

/-- Only an ASCII string is read as one. -/
theorem ascii_of_latinChars : ∀ {s : List Char}, (∀ c ∈ latinChars s, c.toNat < 128) →
    ∀ c ∈ s, c.toNat < 128
  | [], _ => fun _ hc => by cases hc
  | d :: s, h => by
      rw [latinChars_cons] at h
      have ih := ascii_of_latinChars fun c hc => h c (List.mem_append_right _ hc)
      intro c hc
      rcases List.mem_cons.mp hc with rfl | hc
      · by_contra hhigh
        obtain ⟨x, xs, hx⟩ := List.exists_cons_of_ne_nil (String.utf8EncodeChar_ne_nil (c := c))
        have hbyte := utf8_high (c := c) (by omega) x (hx ▸ List.mem_cons_self)
        have hlow := h (Char.ofUInt8 x) (List.mem_append_left _ (by
          rw [latinChars, List.flatMap_cons, hx]
          exact List.mem_cons_self))
        exact absurd hlow (Nat.not_lt.mpr hbyte)
      · exact ih c hc

theorem eq_of_latin {s key : String} (h : latin s = key) (hkey : ∀ c ∈ key.toList, c.toNat < 128) :
    s = key := by
  have hs : ∀ c ∈ s.toList, c.toNat < 128 := by
    refine ascii_of_latinChars ?_
    rw [← h, latin, String.toList_ofList] at hkey
    exact hkey
  rw [← h, latin, latinChars_plain hs, String.ofList_toList]

/-! ## Members that are read -/

section Members

variable {m : List (String × Json F)} {key : String} {v : Json F}

theorem mem_insert {p : String × Json F} :
    p ∈ Json.insert m key v ↔ p = (key, v) ∨ (p ∈ m ∧ p.1 ≠ key) := by
  rw [Json.insert, List.mem_cons, List.mem_filter, decide_eq_true_eq]

theorem nodup_insert (h : (m.map Prod.fst).Nodup) :
    ((Json.insert m key v).map Prod.fst).Nodup := by
  rw [Json.insert, List.map_cons, List.nodup_cons]
  refine ⟨?_, h.sublist (List.filter_sublist.map _)⟩
  intro hmem
  obtain ⟨p, hp, hkey⟩ := List.mem_map.mp hmem
  exact absurd hkey (of_decide_eq_true (List.mem_filter.mp hp).2)

theorem lookup_of_mem : ∀ {m : List (String × Json F)}, (m.map Prod.fst).Nodup →
    (key, v) ∈ m → m.lookup key = some v
  | (k, w) :: m, hnodup, hmem => by
      rw [List.map_cons, List.nodup_cons] at hnodup
      rcases List.mem_cons.mp hmem with heq | hrest
      · obtain ⟨rfl, rfl⟩ := Prod.mk.inj heq
        exact List.lookup_cons_self
      · have hne : key ≠ k := by
          rintro rfl
          exact hnodup.1 (List.mem_map.mpr ⟨_, hrest, rfl⟩)
        rw [List.lookup_cons, beq_false_of_ne hne]
        exact lookup_of_mem hnodup.2 hrest

theorem nodup_readMembers : ∀ (m acc : List (String × Json F)), (acc.map Prod.fst).Nodup →
    ((readMembers acc m).map Prod.fst).Nodup
  | [], _, h => h
  | (_, _) :: m, _, h => nodup_readMembers m _ (nodup_insert h)

/-- What is in the map was a member. -/
theorem mem_of_readMembers {p : String × Json F} : ∀ (m acc : List (String × Json F)),
    p ∈ readMembers acc m → p ∈ acc ∨ ∃ q ∈ m, p = (latin q.1, read q.2)
  | [], _, h => Or.inl h
  | (k, w) :: m, acc, h => by
      rcases mem_of_readMembers m _ h with hacc | ⟨q, hq, hp⟩
      · rcases mem_insert.mp hacc with hp | ⟨hp, -⟩
        · exact Or.inr ⟨(k, w), List.mem_cons_self, hp⟩
        · exact Or.inl hp
      · exact Or.inr ⟨q, List.mem_cons_of_mem _ hq, hp⟩

/-- A member of another name leaves the map's member of this name. -/
theorem readMembers_keeps (hkey : ∀ c ∈ key.toList, c.toNat < 128) :
    ∀ (m acc : List (String × Json F)), m.filter (fun p => p.1 = key) = [] → (key, v) ∈ acc →
      (key, v) ∈ readMembers acc m
  | [], _, _, h => h
  | (k, w) :: m, acc, hnone, h => by
      have hne : k ≠ key := by
        rintro rfl
        rw [List.filter_cons_of_pos (by simp)] at hnone
        cases hnone
      rw [List.filter_cons_of_neg (by simpa using hne)] at hnone
      refine readMembers_keeps hkey m _ hnone (mem_insert.mpr (Or.inr ⟨h, ?_⟩))
      exact fun hlatin => hne (eq_of_latin hlatin.symm hkey)

/-- The one member of a name is in the map. -/
theorem mem_readMembers (hkey : Plain key) : ∀ (m acc : List (String × Json F)),
    m.filter (fun p => p.1 = key) = [(key, v)] → (key, read v) ∈ readMembers acc m
  | [], _, h => by cases h
  | (k, w) :: m, acc, h => by
      by_cases hk : k = key
      · rw [List.filter_cons_of_pos (by simpa using hk)] at h
        obtain ⟨heq, hnone⟩ := List.cons.inj h
        obtain ⟨rfl, rfl⟩ := Prod.mk.inj heq
        refine readMembers_keeps hkey.ascii m _ hnone (mem_insert.mpr (Or.inl ?_))
        rw [latin_plain hkey]
      · rw [List.filter_cons_of_neg (by simpa using hk)] at h
        exact mem_readMembers hkey m _ h

/-- The one member of a name is found. -/
theorem get_read {x : Json F} (h : v.Has key x) (hkey : Plain key) :
    (read v).get key = some (read x) := by
  obtain ⟨m, rfl, honly⟩ := h
  exact lookup_of_mem (nodup_readMembers m [] List.nodup_nil) (mem_readMembers hkey m [] honly)

theorem strD_read {s : String} (h : v.Has key (Json.str s)) (hkey : Plain key) (hs : Plain s) :
    (read v).strD key = s := by
  rw [Json.strD, get_read h hkey, JsonText.read, latin_plain hs]
  rfl

end Members

/-! ## Nodes and connections -/

theorem plain_of_all {s : String} (h : (s.toList.all fun c =>
    decide (c = '\n' ∨ c = '\t' ∨ (32 ≤ c.toNat ∧ c.toNat ≤ 126))) = true) : Plain s :=
  fun c hc => of_decide_eq_true (List.all_eq_true.mp h c hc)

theorem plain_names : Plain "canvas" ∧ Plain "nodes" ∧ Plain "connections" ∧ Plain "id" ∧
    Plain "type" ∧ Plain "properties" ∧ Plain "from" ∧ Plain "to" := by
  refine ⟨?_, ?_, ?_, ?_, ?_, ?_, ?_, ?_⟩ <;> exact plain_of_all (by decide)

/-- A map that is made from a list of distinct keys has the list's entries. -/
theorem getElem?_ofList {α : Type} {l : List (String × α)} (hnodup : (l.map Prod.fst).Nodup)
    {key : String} {x : α} : (ExtTreeMap.ofList l)[key]? = some x ↔ (key, x) ∈ l := by
  have hdistinct : l.Pairwise fun p q => ¬ compare p.1 q.1 = .eq :=
    (List.pairwise_map.mp hnodup).imp fun hne heq => hne (Std.LawfulEqCmp.eq_of_compare heq)
  have hmem : ∀ y, (key, y) ∈ l → (ExtTreeMap.ofList l)[key]? = some y := fun y hy =>
    ExtTreeMap.getElem?_ofList_of_mem (k := key) Std.ReflCmp.compare_self hdistinct hy
  refine ⟨fun h => ?_, hmem x⟩
  by_cases hkey : key ∈ l.map Prod.fst
  · obtain ⟨⟨k, y⟩, hy, rfl⟩ := List.mem_map.mp hkey
    obtain rfl := Option.some.inj ((hmem y hy).symm.trans h)
    exact hy
  · have hcontains : (l.map Prod.fst).contains key = false := by
      rwa [Bool.eq_false_iff, Ne, List.contains_iff_mem]
    rw [ExtTreeMap.getElem?_ofList_of_contains_eq_false hcontains] at h
    cases h

theorem ofList_eq {α : Type} {l : List (String × α)} {t : ExtTreeMap String α}
    (hnodup : (l.map Prod.fst).Nodup) (h : ∀ key x, (key, x) ∈ l ↔ t[key]? = some x) :
    ExtTreeMap.ofList l = t := by
  apply ExtTreeMap.ext_getElem?
  intro key
  apply Option.ext
  intro x
  rw [getElem?_ofList hnodup, h]

section Entries

variable {α : Type} {as : Json F → Option α}

/-- The members of one kind keep their distinct names. -/
theorem nodup_entries : ∀ {props : List (String × Json F)}, (props.map Prod.fst).Nodup →
    ((props.filterMap fun p => (as p.2).map fun x => (p.1, x)).map Prod.fst).Nodup
  | [], _ => List.nodup_nil
  | (key, v) :: props, h => by
      rw [List.map_cons, List.nodup_cons] at h
      have ih := nodup_entries h.2
      cases hv : as v with
      | none =>
          rw [List.filterMap_cons_none (by rw [hv]; rfl)]
          exact ih
      | some x =>
          rw [List.filterMap_cons_some (by rw [hv]; rfl), List.map_cons, List.nodup_cons]
          refine ⟨?_, ih⟩
          intro hmem
          obtain ⟨⟨k, y⟩, hy, hk⟩ := List.mem_map.mp hmem
          obtain ⟨⟨k', w⟩, hw, hsome⟩ := List.mem_filterMap.mp hy
          obtain ⟨z, -, hz⟩ := Option.map_eq_some_iff.mp hsome
          obtain ⟨rfl, -⟩ := Prod.mk.inj hz
          exact h.1 (List.mem_map.mpr ⟨_, hw, hk⟩)

theorem mem_entries {props : List (String × Json F)} {key : String} {x : α} :
    (key, x) ∈ props.filterMap (fun p => (as p.2).map fun x => (p.1, x))
      ↔ ∃ v, (key, v) ∈ props ∧ as v = some x := by
  constructor
  · intro h
    obtain ⟨⟨k, v⟩, hmem, hsome⟩ := List.mem_filterMap.mp h
    obtain ⟨y, hy, heq⟩ := Option.map_eq_some_iff.mp hsome
    obtain ⟨rfl, rfl⟩ := Prod.mk.inj heq
    exact ⟨v, hmem, hy⟩
  · rintro ⟨v, hmem, hx⟩
    exact List.mem_filterMap.mpr ⟨_, hmem, by rw [hx]; rfl⟩

end Entries

theorem asF64_eq {v : Json F} {x : F} : (read v).asF64 = some x ↔ v = Json.num x := by
  cases v <;> simp [JsonText.read, Json.asF64]

theorem asStr_eq {v : Json F} {s : String} :
    (read v).asStr = some s ↔ ∃ s', v = Json.str s' ∧ latin s' = s := by
  cases v <;> simp [JsonText.read, Json.asStr]

section Properties

variable {props : List (String × Json F)} {node : GNode F}

theorem nums_read (h : PropertiesShown props node)
    (hnums : ∀ key x, node.nums[key]? = some x → Plain key) :
    ExtTreeMap.ofList ((readMembers [] props).filterMap fun p => p.2.asF64.map fun x => (p.1, x))
      = node.nums := by
  refine ofList_eq (nodup_entries (nodup_readMembers props [] List.nodup_nil)) ?_
  intro key x
  rw [mem_entries, ← h.nums]
  constructor
  · rintro ⟨w, hw, hx⟩
    rcases mem_of_readMembers props [] hw with hnone | ⟨⟨k, v⟩, hv, hp⟩
    · cases hnone
    · obtain ⟨rfl, rfl⟩ := Prod.mk.inj hp
      obtain rfl := asF64_eq.mp hx
      rwa [latin_plain (hnums k x ((h.nums k x).mp hv))]
  · intro hx
    have hkey := hnums key x ((h.nums key x).mp hx)
    have honce := h.once _ hx (Or.inl rfl)
    exact ⟨_, mem_readMembers hkey props [] honce, asF64_eq.mpr rfl⟩

theorem strs_read (h : PropertiesShown props node)
    (hstrs : ∀ key s, node.strs[key]? = some s → Plain key ∧ Plain s) :
    ExtTreeMap.ofList ((readMembers [] props).filterMap fun p => p.2.asStr.map fun s => (p.1, s))
      = node.strs := by
  refine ofList_eq (nodup_entries (nodup_readMembers props [] List.nodup_nil)) ?_
  intro key s
  rw [mem_entries, ← h.strs]
  constructor
  · rintro ⟨w, hw, hs⟩
    rcases mem_of_readMembers props [] hw with hnone | ⟨⟨k, v⟩, hv, hp⟩
    · cases hnone
    · obtain ⟨rfl, rfl⟩ := Prod.mk.inj hp
      obtain ⟨s', rfl, rfl⟩ := asStr_eq.mp hs
      obtain ⟨hk, hs'⟩ := hstrs k s' ((h.strs k s').mp hv)
      rwa [latin_plain hk, latin_plain hs']
  · intro hs
    obtain ⟨hkey, hplain⟩ := hstrs key s ((h.strs key s).mp hs)
    have honce := h.once _ hs (Or.inr rfl)
    exact ⟨_, mem_readMembers hkey props [] honce, asStr_eq.mpr ⟨s, rfl, latin_plain hplain⟩⟩

end Properties

theorem ofJson_shown {v : Json F} {node : GNode F} (h : NodeShown v node)
    (hid : Plain node.id) (htype : Plain node.ntype)
    (hnums : ∀ key x, node.nums[key]? = some x → Plain key)
    (hstrs : ∀ key s, node.strs[key]? = some s → Plain key ∧ Plain s) :
    GNode.ofJson (read v) = node := by
  obtain ⟨-, -, -, hidName, htypeName, hpropsName, -, -⟩ := plain_names
  obtain ⟨props, hprops, hshown⟩ := h.properties
  rw [GNode.ofJson, get_read hprops hpropsName, strD_read h.id hidName hid,
    strD_read h.ntype htypeName htype]
  -- what is left are the two maps of the properties that were read
  have hread : ((some (read (Json.obj props))).bind Json.asObject).getD []
      = readMembers [] props := rfl
  rw [hread, nums_read hshown hnums, strs_read hshown hstrs]

theorem connectionOfJson_shown {v : Json F} {c : String × String} (h : ConnectionShown v c)
    (hsrc : Plain c.1) (hdst : Plain c.2) (hne : c.1 ≠ "" ∧ c.2 ≠ "") :
    connectionOfJson (read v) = some c := by
  obtain ⟨-, -, -, -, -, -, hfrom, hto⟩ := plain_names
  rw [connectionOfJson, strD_read h.1 hfrom hsrc, strD_read h.2 hto hdst]
  exact if_pos hne

/-! ## The graph -/

theorem readElements_eq : ∀ a : List (Json F), readElements a = a.map read
  | [] => rfl
  | v :: a => by rw [readElements, readElements_eq a, List.map_cons]

theorem nodes_read : ∀ {vs : List (Json F)} {nodes : List (GNode F)},
    List.Forall₂ NodeShown vs nodes → (∀ node ∈ nodes, Plain node.id ∧ Plain node.ntype ∧
      (∀ key x, node.nums[key]? = some x → Plain key) ∧
      ∀ key s, node.strs[key]? = some s → Plain key ∧ Plain s) →
    (vs.map read).map GNode.ofJson = nodes
  | _, _, .nil, _ => rfl
  | _, _, .cons hv hvs, hplain => by
      obtain ⟨hid, htype, hnums, hstrs⟩ := hplain _ List.mem_cons_self
      rw [List.map_cons, List.map_cons, ofJson_shown hv hid htype hnums hstrs,
        nodes_read hvs fun node hnode => hplain node (List.mem_cons_of_mem _ hnode)]

theorem connections_read : ∀ {vs : List (Json F)} {cs : List (String × String)},
    List.Forall₂ ConnectionShown vs cs →
    (∀ c ∈ cs, Plain c.1 ∧ Plain c.2 ∧ c.1 ≠ "" ∧ c.2 ≠ "") →
    (vs.map read).filterMap connectionOfJson = cs
  | _, _, .nil, _ => rfl
  | _, _, .cons hv hvs, hplain => by
      obtain ⟨hsrc, hdst, hne⟩ := hplain _ List.mem_cons_self
      rw [List.map_cons, List.filterMap_cons_some (connectionOfJson_shown hv hsrc hdst hne),
        connections_read hvs fun c hc => hplain c (List.mem_cons_of_mem _ hc)]

variable [F64 F]

/-- A document is read as its value. -/
theorem parse_text {v : Json F} {json : String} (h : Document v json) :
    MiniJson.parse json = .ok (read v) := by
  obtain ⟨u, w, u', hu, hw, hu', hbytes⟩ := h
  have hend : NoNumber (u' ++ []) := noNumber_ws hu' (fun _ hc => by cases hc)
  rw [List.append_nil] at hend
  have hreads := hw.isRead 0 u u' hbytes hu hend
  have hrun := hreads.run_eq ((bytes json).length + 1) ((bytes json).length + 1) (by omega)
    (by omega) (Nat.lt_succ_self _) (Nat.lt_succ_self _)
  exact congrArg (Except.map Prod.fst) hrun

/-- **A graph survives its JSON.**  Every text of a value that shows a plain graph is parsed as the
graph. -/
theorem parse_document (spec : GraphSpec F) (v : Json F) (json : String) (hplain : spec.Plain)
    (hshows : Shows v spec) (htext : Document v json) : parse json = .ok spec := by
  obtain ⟨hcanvasName, hnodesName, hconnsName, -⟩ := plain_names
  obtain ⟨canvas, nodes, connections, hcanvas, hnodes, hconns, hns, hcs⟩ := hshows
  rw [parse, parse_text htext]
  dsimp only [bind, Except.bind]
  rw [get_read hcanvas hcanvasName]
  dsimp only
  rw [get_read hnodes hnodesName, get_read hconns hconnsName]
  have hreadNodes : ((some (read (Json.arr nodes))).bind Json.asArray).getD []
      = nodes.map read := readElements_eq nodes
  have hreadConns : ((some (read (Json.arr connections))).bind Json.asArray).getD []
      = connections.map read := readElements_eq connections
  rw [hreadNodes, hreadConns, nodes_read hns hplain.nodes, connections_read hcs hplain.connections]

/-! ## An example -/

def periodThree : Number where
  minus := false
  whole := ⟨['3'.toUInt8], List.cons_ne_nil _ _, List.forall_mem_singleton.mpr rfl⟩
  fraction := none
  exponent := none
  leading := by decide

/-- An average that feeds a node, with a member that nothing reads. -/
def emaText : String :=
  "\x7b\"canvas\":\x7b\"nodes\":[\x7b\"type\":\"ema\",\"id\":\"e\",\"properties\":" ++
    "\x7b\"period\":3\x7d\x7d],\"connections\":[\x7b\"from\":\"e\",\"to\":\"b\"\x7d], " ++
    "\"zoom\":null\x7d\x7d"

set_option maxRecDepth 4000 in
theorem parse_document_ema : letI : F64 ℚ := F64.exact id
    (parse emaText : Except ParseError (GraphSpec ℚ))
      = .ok ⟨[⟨"e", "ema", ExtTreeMap.ofList [("period", (3 : ℚ))], ∅⟩], [("e", "b")]⟩ := by
  let _ : F64 ℚ := F64.exact id
  have hws : Ws [] := fun _ h => by cases h
  have hspace : Ws [' '.toUInt8] := fun _ h => Or.inl (List.mem_singleton.mp h)
  have hkey : ∀ s : String,
      (s.toList.all fun c => decide (32 ≤ c.toNat ∧ c ≠ '"' ∧ c ≠ '\\')) = true →
      StrText s.toList (s.toList.flatMap String.utf8EncodeChar) :=
    fun s h => strText_plain fun c hc => of_decide_eq_true (List.all_eq_true.mp h c hc)
  have hprops : Text (Piece.value (Json.obj [("period", Json.num (periodThree.value : ℚ))])) _ :=
    Text.obj (Text.member (Gap.first hws) (hkey "period" (by decide)) hws hws (Text.num periodThree)
      (Text.closeObj hws))
  have hnode := Text.obj (Text.member (Gap.first hws) (hkey "type" (by decide)) hws hws
    (Text.str (F := ℚ) (hkey "ema" (by decide)))
    (Text.member (Gap.next hws hws) (hkey "id" (by decide)) hws hws
      (Text.str (hkey "e" (by decide)))
      (Text.member (Gap.next hws hws) (hkey "properties" (by decide)) hws hws hprops
        (Text.closeObj hws))))
  have hconnection := Text.obj (Text.member (Gap.first hws) (hkey "from" (by decide)) hws hws
    (Text.str (F := ℚ) (hkey "e" (by decide)))
    (Text.member (Gap.next hws hws) (hkey "to" (by decide)) hws hws
      (Text.str (hkey "b" (by decide))) (Text.closeObj hws)))
  have hcanvas := Text.obj (Text.member (Gap.first hws) (hkey "nodes" (by decide)) hws hws
    (Text.arr (Text.element (Gap.first hws) hnode (Text.closeArr hws)))
    (Text.member (Gap.next hws hws) (hkey "connections" (by decide)) hws hws
      (Text.arr (Text.element (Gap.first hws) hconnection (Text.closeArr hws)))
      (Text.member (Gap.next hws hspace) (hkey "zoom" (by decide)) hws hws Text.null
        (Text.closeObj hws))))
  have htext := Text.obj (Text.member (Gap.first hws) (hkey "canvas" (by decide)) hws hws hcanvas
    (Text.closeObj hws))
  have hnums : ∀ (key : String) (x : ℚ), (ExtTreeMap.ofList [("period", (3 : ℚ))])[key]? = some x
      ↔ (key, x) ∈ [("period", (3 : ℚ))] := fun _ _ => getElem?_ofList (by decide)
  have hvalue : (periodThree.value : ℚ) = 3 := by decide +kernel
  refine parse_document _ _ _ ⟨?_, ?_⟩ ?_ ⟨[], _, [], hws, htext, hws, rfl⟩
  · intro node hnode
    obtain rfl := List.mem_singleton.mp hnode
    refine ⟨plain_of_all (by decide), plain_of_all (by decide), ?_, ?_⟩
    · intro key x hx
      obtain ⟨rfl, -⟩ := Prod.mk.inj (List.mem_singleton.mp ((hnums key x).mp hx))
      exact plain_of_all (by decide)
    · intro key x hx
      simp at hx
  · intro c hc
    obtain rfl := List.mem_singleton.mp hc
    exact ⟨plain_of_all (by decide), plain_of_all (by decide), by decide, by decide⟩
  · refine ⟨_, _, _, ⟨_, rfl, rfl⟩, ⟨_, rfl, rfl⟩, ⟨_, rfl, rfl⟩,
      .cons ⟨⟨_, rfl, rfl⟩, ⟨_, rfl, rfl⟩, _, ⟨_, rfl, rfl⟩, ⟨?_, ?_, ?_⟩⟩ .nil, .cons ⟨⟨_, rfl, rfl⟩, ⟨_, rfl, rfl⟩⟩ .nil⟩
    · intro key x
      rw [hnums, hvalue]
      simp
    · intro key x
      simp
    · intro p hp _
      obtain rfl := List.mem_singleton.mp hp
      rfl

end HotpathIpc
