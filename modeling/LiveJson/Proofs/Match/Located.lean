import LiveJson.Proofs.Json.Replaced
import LiveJson.Proofs.Match.Plain
import LiveJson.Proofs.Run.Basic

/-! # What a canonical path finds

A key of a canonical path is read back as a name, which an object looks up as it is and an array
takes for a position, or, if it is a star, as a wildcard. So a canonical path finds the locations
that it covers, each of them once and with the node that is there. -/

namespace LiveJson

variable {ι : Type}

/-! ## The members of a value -/

namespace Json

variable {v w : Json} {k : Key}

theorem WellFormed.member (hv : v.WellFormed) (h : v.member k = some w) : w.WellFormed := by
  cases v with
  | array items =>
    obtain ⟨i, -, hi⟩ := Option.bind_eq_some_iff.mp h
    exact itemsWellFormed_iff.mp hv w (List.mem_of_getElem? hi)
  | object members => exact membersWellFormed_iff.mp hv.2 _ (Members.mem_of_get? h)
  | _ => cases h

theorem Holds.wellFormed {q : Path} (h : v.Holds q w) (hv : v.WellFormed) : w.WellFormed := by
  induction q generalizing v with
  | nil => exact holds_nil.mp h ▸ hv
  | cons k q ih =>
    obtain ⟨-, x, hx, hw⟩ := holds_cons.mp h
    exact ih hw (hv.member hx)

end Json

theorem Tree.nodup_enumerate {α : Type} (start : Nat) (items : List α) :
    ((enumerate start items).map Prod.fst).Nodup := by
  induction items generalizing start with
  | nil => exact List.nodup_nil
  | cons a items ih =>
    refine List.nodup_cons.mpr ⟨fun hm => ?_, ih (start + 1)⟩
    obtain ⟨⟨key, b⟩, hm, hkey⟩ := List.mem_map.mp hm
    obtain ⟨i, hi, -⟩ := (mem_enumerate _ _).mp hm
    have hstart := Key.index.inj (hi.symm.trans hkey)
    omega

namespace Json

/-- The members of a value by their keys. -/
def entries : Json → List (Key × Json)
  | array items => Tree.enumerate 0 items
  | object members => members.map fun (name, v) => (.name name, v)
  | _ => []

variable {v x : Json} {key : Key}

theorem mem_entries (hv : v.WellFormed) :
    (key, x) ∈ v.entries ↔ v.Takes key ∧ v.member key = some x := by
  cases v with
  | array items =>
    simp only [entries, Tree.mem_enumerate, Nat.zero_add]
    cases key with
    | index i => simp [Takes, member]
    | name n => simp [Takes]
  | object members =>
    cases key with
    | index i => simp [entries, Takes]
    | name n => simp [entries, Takes, member, Members.get?_eq_some_iff hv.1]
  | _ => simp [entries, Takes]

theorem nodup_entries (hv : v.WellFormed) : (v.entries.map Prod.fst).Nodup := by
  cases v with
  | array items => exact Tree.nodup_enumerate 0 items
  | object members =>
    have hkeys : (object members).entries.map Prod.fst = (Members.names members).map Key.name := by
      simp [entries, Members.names]
    rw [hkeys]
    exact hv.1.map fun _ _ h => Key.name.inj h
  | _ => exact List.nodup_nil

theorem entries_of_scalar (h : v.isComposite = false) : v.entries = [] := by
  cases v with
  | array items => cases h
  | object members => cases h
  | _ => rfl

theorem isComposite_of_mem_entries {e : Key × Json} (h : e ∈ v.entries) : v.isComposite = true := by
  by_contra hscalar
  rw [entries_of_scalar (Bool.eq_false_iff.mpr hscalar)] at h
  cases h

end Json

namespace Tree

variable {v : Json} {document : Nat} {path : Path}

theorem enumerate_map_enumerate {α β : Type} (g : Key × α → β) (start : Nat) (items : List α) :
    enumerate start ((enumerate start items).map g) =
      (enumerate start items).map fun e => (e.1, g e) := by
  induction items generalizing start with
  | nil => rfl
  | cons a items ih => simp only [enumerate, List.map_cons, ih]

theorem entries_ofJson : (ofJson document path v).entries =
    v.entries.map fun e => (e.1, ofJson document (path ++ [e.1]) e.2) := by
  cases v with
  | array items => rw [ofJson, entries, ofItems_eq_map, enumerate_map_enumerate]; rfl
  | object members =>
    rw [ofJson, entries, ofMembers_eq_map, Json.entries, List.map_map, List.map_map]
    rfl
  | _ => rfl

end Tree

/-! ## Keys and what they cover -/

/-- Whether a key of a canonical path leads to what stands at another key. -/
def Key.Covers (k key : Key) : Prop :=
  k.toName = "*" ∨ key = .name k.toName ∨ ∃ i, key = .index i ∧ position? k.toName.toList = some i

/-- Whether a canonical path leads to a location. -/
def Path.Covers (p q : Path) : Prop := List.Forall₂ Key.Covers p q

/-- Positions are 64-bit numbers, and only such are read. -/
def Key.Readable : Key → Prop
  | .index i => i < indexBound
  | .name _ => True

namespace Key

/-- The name of a position spells it. -/
theorem position?_toName (i : Nat) :
    position? (index i).toName.toList = if i < indexBound then some i else none := by
  simp only [toName_index_toList, position?, if_pos (Decimal.all_isDigit_toDigits i),
    Decimal.ofDigits_toDigits]

theorem toName_index_ne_star (i : Nat) : (index i).toName ≠ "*" := by
  intro h
  have hstar : '*' ∈ Nat.toDigits 10 i := by
    rw [← toName_index_toList, h]
    exact List.mem_singleton_self '*'
  exact absurd (Nat.isDigit_of_mem_toDigits (by decide) (by decide) hstar) (by decide)

theorem Readable.covers_self {k : Key} (h : k.Readable) : k.Covers k := by
  cases k with
  | name n => exact .inr (.inl rfl)
  | index i => exact .inr (.inr ⟨i, rfl, (position?_toName i).trans (if_pos h)⟩)

/-- In one value, a key that is no star covers no other. -/
theorem Covers.eq {k key : Key} {v : Json} (h : k.Covers key) (hk : v.Takes k)
    (hkey : v.Takes key) (hstar : k ≠ .name "*") : key = k := by
  cases k with
  | name n =>
    rcases h with h | rfl | ⟨i, rfl, -⟩
    · exact absurd (congrArg name h) hstar
    · rfl
    · cases v <;> trivial
  | index i =>
    rcases h with h | rfl | ⟨j, rfl, h⟩
    · exact absurd h (toName_index_ne_star i)
    · cases v <;> trivial
    · rw [position?_toName] at h
      split at h
      · cases h
        rfl
      · cases h

end Key

namespace Tree

/-- The members that a key of a canonical path leads to. -/
def picked (k : Key) (t : Tree ι) : List (Key × Tree ι) :=
  if k.toName = "*" then t.entries else (t.get? k.toName).toList

theorem mem_get?_iff {name : String} {t child : Tree ι} {key : Key}
    (hn : (t.entries.map Prod.fst).Nodup) :
    t.get? name = some (key, child) ↔ (key, child) ∈ t.entries ∧
      (key = .name name ∨ ∃ i, key = .index i ∧ Key.position? name.toList = some i) := by
  cases t with
  | leaf value => simp [get?, entries]
  | array label items =>
    simp only [get?, mem_entries_array, Key.asIndex, Option.bind_eq_bind, Option.bind_eq_some_iff,
      Option.some.injEq, Prod.mk.injEq]
    constructor
    · rintro ⟨i, hi, t, ht, rfl, rfl⟩
      exact ⟨⟨i, rfl, ht⟩, .inr ⟨i, rfl, hi⟩⟩
    · rintro ⟨⟨i, rfl, ht⟩, h | ⟨j, hj, hposition⟩⟩
      · cases h
      · cases hj
        exact ⟨i, hposition, child, ht, rfl, rfl⟩
  | object label members =>
    have hnames : (Members.names members).Nodup := by
      have hkeys : (object label members).entries.map Prod.fst =
          (Members.names members).map Key.name := by
        simp [entries, Members.names]
      rw [hkeys] at hn
      exact hn.of_map _
    simp only [get?, mem_entries_object, Option.map_eq_some_iff, Prod.mk.injEq,
      Members.get?_eq_some_iff hnames]
    constructor
    · rintro ⟨t, ht, rfl, rfl⟩
      exact ⟨⟨name, rfl, ht⟩, .inl rfl⟩
    · rintro ⟨⟨n, rfl, ht⟩, h | ⟨i, hi, -⟩⟩
      · cases h
        exact ⟨child, ht, rfl, rfl⟩
      · cases hi

theorem mem_picked {k : Key} {t child : Tree ι} {key : Key} (hn : (t.entries.map Prod.fst).Nodup) :
    (key, child) ∈ picked k t ↔ k.Covers key ∧ (key, child) ∈ t.entries := by
  unfold picked Key.Covers
  split
  · next h => simp [h]
  · next h => simp only [Option.mem_toList, mem_get?_iff hn, h, false_or, and_comm]

theorem nodup_picked {k : Key} {t : Tree ι} (hn : (t.entries.map Prod.fst).Nodup) :
    ((picked k t).map Prod.fst).Nodup := by
  unfold picked
  split
  · exact hn
  · cases t.get? k.toName with
    | none => exact List.nodup_nil
    | some e => exact List.nodup_singleton _

/-- What a canonical path finds from a stack on. -/
def expand : Path → Stack ι → List (Match ι)
  | [], stack => [stack.top.nodeMatch]
  | k :: p, stack => (picked k stack.top.value).flatMap fun e => expand p (stack.enter e.1 e.2)

end Tree

theorem Walk.enterAll_eq_ok {go : Walk ι} {stack : Stack ι} {f : Key × Tree ι → List (Match ι)} :
    ∀ entries : List (Key × Tree ι), (∀ e ∈ entries, go (stack.enter e.1 e.2) = .ok (f e)) →
      enterAll go stack entries = .ok (entries.flatMap f)
  | [], _ => rfl
  | e :: entries, h => by
    rw [enterAll, h e List.mem_cons_self,
      enterAll_eq_ok entries fun e he => h e (List.mem_cons_of_mem _ he)]
    rfl

theorem Tracer.walk_segments [DecidableEq ι] (tracer : Tracer ι) : ∀ (p : Path) (stack : Stack ι),
    tracer.walk (p.map Key.segment) stack = .ok (Tree.expand p stack)
  | [], _ => rfl
  | k :: p, stack => by
    have hgo : ∀ entries : List (Key × Tree ι),
        Walk.enterAll (tracer.walk (p.map Key.segment)) stack entries =
          .ok (entries.flatMap fun e => Tree.expand p (stack.enter e.1 e.2)) := fun entries =>
      Walk.enterAll_eq_ok entries fun e _ => tracer.walk_segments p (stack.enter e.1 e.2)
    rw [List.map_cons, Key.segment, Tree.expand, Tree.picked]
    split
    · exact hgo _
    · exact hgo _

theorem Tree.search_toText_eq [DecidableEq ι] (p : Path) (t : Tree ι) :
    t.search p.toText = .ok (expand p ⟨⟨t, [], none, none⟩, []⟩) := by
  by_cases hp : p = []
  · rw [hp]
    exact t.search_root
  · rw [search, Segment.read_toText hp]
    exact Tracer.trace_of_walk (Tracer.walk_segments {} p _)

/-! ## The locations that are found -/

namespace Tree

variable {v : Json} {document : Nat} {stack : Stack Spot}

theorem nodup_entries_ofJson (hv : v.WellFormed) (document : Nat) (path : Path) :
    ((ofJson document path v).entries.map Prod.fst).Nodup := by
  rw [entries_ofJson, List.map_map]
  exact v.nodup_entries hv

/-- The members of a value that a key of a canonical path leads to. -/
theorem mem_picked_ofJson (hv : v.WellFormed) {k key : Key} {path : Path} {t : Tree Spot} :
    (key, t) ∈ picked k (ofJson document path v) ↔ k.Covers key ∧ v.Takes key ∧
      ∃ x, v.member key = some x ∧ t = ofJson document (path ++ [key]) x := by
  rw [mem_picked (nodup_entries_ofJson hv document path), entries_ofJson, List.mem_map]
  refine and_congr_right fun _ => ⟨?_, ?_⟩
  · rintro ⟨⟨key', x⟩, hx, heq⟩
    cases heq
    obtain ⟨htakes, hx⟩ := (Json.mem_entries hv).mp hx
    exact ⟨htakes, x, hx, rfl⟩
  · rintro ⟨htakes, x, hx, rfl⟩
    exact ⟨(key, x), (Json.mem_entries hv).mpr ⟨htakes, hx⟩, rfl⟩

theorem located_of_mem_expand {n : Match Spot} : ∀ {p : Path} {stack : Stack Spot} {v : Json},
    v.WellFormed → stack.top.value = ofJson document stack.top.path v → n ∈ expand p stack →
      ∃ q w, p.Covers q ∧ v.Holds q w ∧ n.path = stack.top.path ++ q ∧
        n.matched = .node (ofJson document n.path w)
  | [], stack, v, _, ht, hn => by
    cases List.mem_singleton.mp hn
    exact ⟨[], v, .nil, Json.holds_nil.mpr rfl, (List.append_nil _).symm, congrArg _ ht⟩
  | k :: p, stack, v, hv, ht, hn => by
    obtain ⟨⟨key, t⟩, he, hn⟩ := List.mem_flatMap.mp hn
    rw [ht] at he
    obtain ⟨hcovers, htakes, x, hx, rfl⟩ := (mem_picked_ofJson hv).mp he
    obtain ⟨q, w, hq, hw, hpath, hnode⟩ := located_of_mem_expand (hv.member hx) rfl hn
    refine ⟨key :: q, w, .cons hcovers hq, Json.holds_cons.mpr ⟨htakes, x, hx, hw⟩, ?_, hnode⟩
    rw [hpath]
    exact List.append_assoc ..

theorem path_mem_expand {w : Json} : ∀ {p q : Path} {stack : Stack Spot} {v : Json},
    v.WellFormed → stack.top.value = ofJson document stack.top.path v → p.Covers q → v.Holds q w →
      stack.top.path ++ q ∈ (expand p stack).map Match.path
  | _, _, stack, v, _, _, .nil, _ => by
    rw [List.append_nil]
    exact List.mem_singleton_self _
  | k :: p, key :: q, stack, v, hv, ht, .cons hcovers hq, hw => by
    obtain ⟨htakes, x, hx, hw⟩ := Json.holds_cons.mp hw
    let t := ofJson document (stack.top.path ++ [key]) x
    have hpicked : (key, t) ∈ picked k stack.top.value := by
      rw [ht]
      exact (mem_picked_ofJson hv).mpr ⟨hcovers, htakes, x, hx, rfl⟩
    have hrest : stack.top.path ++ [key] ++ q ∈ (expand p (stack.enter key t)).map Match.path :=
      path_mem_expand (hv.member hx) rfl hq hw
    obtain ⟨n, hn, hpath⟩ := List.mem_map.mp hrest
    refine List.mem_map.mpr ⟨n, List.mem_flatMap.mpr ⟨(key, t), hpicked, hn⟩, ?_⟩
    rw [hpath]
    exact List.append_assoc ..

theorem path_of_mem_expand {n : Match ι} : ∀ {p : Path} {stack : Stack ι}, n ∈ expand p stack →
    ∃ q, n.path = stack.top.path ++ q
  | [], stack, hn => ⟨[], by rw [List.mem_singleton.mp hn, List.append_nil]; rfl⟩
  | k :: p, stack, hn => by
    obtain ⟨e, -, hn⟩ := List.mem_flatMap.mp hn
    obtain ⟨q, hq⟩ := path_of_mem_expand hn
    exact ⟨e.1 :: q, hq.trans (List.append_assoc ..)⟩

theorem nodup_expand : ∀ {p : Path} {stack : Stack Spot} {v : Json},
    v.WellFormed → stack.top.value = ofJson document stack.top.path v →
      ((expand p stack).map Match.path).Nodup
  | [], _, _, _, _ => List.nodup_singleton _
  | k :: p, stack, v, hv, ht => by
    have hkeys := nodup_picked (k := k) (nodup_entries_ofJson hv document stack.top.path)
    rw [expand, List.map_flatMap, ht]
    refine List.nodup_flatMap.mpr ⟨fun e he => ?_, ?_⟩
    · obtain ⟨key, t⟩ := e
      obtain ⟨-, -, x, hx, rfl⟩ := (mem_picked_ofJson hv).mp he
      exact nodup_expand (hv.member hx) rfl
    · refine (List.pairwise_map.mp hkeys).imp fun {e e'} hne path hpath hpath' => hne ?_
      obtain ⟨n, hn, rfl⟩ := List.mem_map.mp hpath
      obtain ⟨n', hn', heq⟩ := List.mem_map.mp hpath'
      obtain ⟨q, hq⟩ := path_of_mem_expand hn
      obtain ⟨q', hq'⟩ := path_of_mem_expand hn'
      rw [hq, hq'] at heq
      have hkey : stack.top.path ++ (e'.1 :: q') = stack.top.path ++ (e.1 :: q) := by
        simpa [Stack.enter, Frame.enter] using heq
      exact (List.cons.inj (List.append_cancel_left hkey)).1.symm

end Tree

namespace Json

variable {v w : Json} {p q : Path} {ns : List (Match Spot)}

/-- The matches are the locations that the path covers, each once and with the node that is there. -/
structure Found (v : Json) (p : Path) (ns : List (Match Spot)) : Prop where
  distinct : (ns.map Match.path).Nodup
  covered : ∀ q, q ∈ ns.map Match.path ↔ p.Covers q ∧ ∃ w, v.Holds q w
  node : ∀ n ∈ ns, ∃ w, v.Holds n.path w ∧ n.matched = .node (Tree.ofJson 0 n.path w)

theorem Found.alone_iff (h : v.Found p ns) (hp : ∀ k ∈ p, k.Readable) (hw : v.Holds p w) :
    ns.map Match.path = [p] ↔ ∀ q w, v.Holds q w → p.Covers q → q = p := by
  constructor
  · intro hns q w hq hcovers
    have hmem := (h.covered q).mpr ⟨hcovers, w, hq⟩
    rw [hns] at hmem
    exact List.mem_singleton.mp hmem
  · intro halone
    have hself : p.Covers p := List.forall₂_same.mpr fun k hk => (hp k hk).covers_self
    have hmem := (h.covered p).mpr ⟨hself, w, hw⟩
    have hall : ∀ q ∈ ns.map Match.path, q = p := fun q hq => by
      obtain ⟨hcovers, w, hw⟩ := (h.covered q).mp hq
      exact halone q w hw hcovers
    have hreplicate := List.eq_replicate_of_mem hall
    have hdistinct := h.distinct
    rw [hreplicate, List.nodup_replicate] at hdistinct
    have hpos := List.length_pos_of_mem hmem
    rw [hreplicate, Nat.le_antisymm hdistinct hpos]
    rfl

/-- Without a star among its keys, a path to a location covers no other location. -/
theorem Holds.eq_of_covers : ∀ {p q : Path} {v w x : Json}, v.Holds p w → v.Holds q x →
    .name "*" ∉ p → p.Covers q → q = p
  | _, _, _, _, _, _, _, _, .nil => rfl
  | k :: p, key :: q, v, w, x, hp, hq, hstar, .cons hkey hcovers => by
    obtain ⟨hk, y, hy, hw⟩ := holds_cons.mp hp
    obtain ⟨htakes, z, hz, hx⟩ := holds_cons.mp hq
    obtain ⟨hne, hrest⟩ := not_or.mp (mt List.mem_cons.mpr hstar)
    obtain rfl := hkey.eq hk htakes (Ne.symm hne)
    cases hy.symm.trans hz
    rw [eq_of_covers hw hx hrest hcovers]

end Json

/-- A canonical path finds the locations that it covers. -/
theorem find_toText (d : Document) (p : Path) :
    ∃ ns, find p.toText d.json = .ok ns ∧ d.json.Found p ns := by
  refine ⟨_, Tree.search_toText_eq p _, Tree.nodup_expand d.wellFormed rfl, fun q => ⟨?_, ?_⟩, ?_⟩
  · intro hq
    obtain ⟨n, hn, rfl⟩ := List.mem_map.mp hq
    obtain ⟨q, w, hcovers, hw, hpath, -⟩ := Tree.located_of_mem_expand d.wellFormed rfl hn
    rw [hpath]
    exact ⟨hcovers, w, hw⟩
  · rintro ⟨hcovers, w, hw⟩
    exact Tree.path_mem_expand d.wellFormed rfl hcovers hw
  · intro n hn
    obtain ⟨q, w, -, hw, hpath, hnode⟩ := Tree.located_of_mem_expand d.wellFormed rfl hn
    exact ⟨w, hpath ▸ hw, hnode⟩

/-- The frame is that of a node of the document. -/
def Frame.StandsIn (d : Json) (frame : Frame Spot) : Prop :=
  ∃ v, d.Holds frame.path v ∧ v.WellFormed ∧ frame.value = Tree.ofJson 0 frame.path v

theorem Frame.StandsIn.enter {d : Json} {frame : Frame Spot} {key : Key} {child : Tree Spot}
    (h : frame.StandsIn d) (hchild : (key, child) ∈ frame.value.entries) :
    (frame.enter key child).StandsIn d := by
  obtain ⟨v, hv, hwell, hvalue⟩ := h
  rw [hvalue, Tree.entries_ofJson] at hchild
  obtain ⟨⟨key, x⟩, hx, heq⟩ := List.mem_map.mp hchild
  cases heq
  obtain ⟨htakes, hx⟩ := (Json.mem_entries hwell).mp hx
  exact ⟨x, Json.holds_concat hv htakes hx, hwell.member hx, rfl⟩

theorem Frame.standsIn_root (d : Document) :
    (Frame.mk (Tree.ofJson 0 [] d.json) [] none none).StandsIn d.json :=
  ⟨d.json, Json.holds_nil.mpr rfl, d.wellFormed, rfl⟩

/-- Whatever is matched in a document stands at its path. -/
theorem stands_of_mem_find {d : Document} {query : String} {ms : List (Match Spot)}
    (h : find query d.json = .ok ms) {m : Match Spot} (hm : m ∈ ms) :
    ∃ v, d.json.Holds m.path v ∧ ∀ t, m.matched = .node t → t = Tree.ofJson 0 m.path v := by
  have inherited : Frame.Inherited (Frame.StandsIn d.json) := ⟨Frame.StandsIn.enter, fun h => h⟩
  obtain ⟨frame, ⟨v, hv, -, hvalue⟩, rfl | rfl⟩ :=
    Tree.from_of_mem_search inherited (Frame.standsIn_root d) h hm
  · refine ⟨v, hv, fun t ht => ?_⟩
    cases ht
    exact hvalue
  · refine ⟨v, hv, fun t ht => ?_⟩
    cases ht

theorem holds_of_mem_find {d : Document} {query : String} {ms : List (Match Spot)}
    (h : find query d.json = .ok ms) {m : Match Spot} (hm : m ∈ ms) :
    ∃ v, d.json.Holds m.path v := (stands_of_mem_find h hm).imp fun _ => And.left

/-- **The canonical path of a match finds the node at its path, and together with it exactly the other
locations that it covers. It finds that node alone if no key of the path is a star; positions are
64-bit numbers.** -/
theorem find_path_of_mem_find {d : Document} {query : String} {ms : List (Match Spot)}
    (h : find query d.json = .ok ms) {m : Match Spot} (hm : m ∈ ms) :
    ∃ ns, find m.path.toText d.json = .ok ns ∧ d.json.Found m.path ns ∧
      (∃ v, d.json.Holds m.path v) ∧
      ((∀ k ∈ m.path, k.Readable) →
        (ns.map Match.path = [m.path] ↔
          ∀ q w, d.json.Holds q w → m.path.Covers q → q = m.path) ∧
        (.name "*" ∉ m.path → ns.map Match.path = [m.path])) := by
  obtain ⟨ns, hns, found⟩ := find_toText d m.path
  obtain ⟨v, hv⟩ := holds_of_mem_find h hm
  refine ⟨ns, hns, found, ⟨v, hv⟩, fun hreadable => ?_⟩
  have alone_iff := found.alone_iff hreadable hv
  exact ⟨alone_iff, fun hstar => alone_iff.mpr fun q w hw => hv.eq_of_covers hw hstar⟩

/-- An object with a member that is called by a star and one that is not. -/
def starred : Document where
  json := .object [("*", .null), ("a", .null)]
  wellFormed := by simp [Json.WellFormed, Json.MembersWellFormed, Members.names]

theorem find_path_of_named : ∃ ms m ns, find "$.a" starred.json = .ok ms ∧ m ∈ ms ∧
    find m.path.toText starred.json = .ok ns ∧ ns.map Match.path = [[.name "a"]] := by
  have hfind : find "$.a" starred.json = .ok [_] := rfl
  obtain ⟨ns, hns, -, -, alone⟩ := find_path_of_mem_find hfind (List.mem_singleton_self _)
  refine ⟨_, _, ns, hfind, List.mem_singleton_self _, hns, (alone ?_).2 ?_⟩
  · intro k hk
    cases List.mem_singleton.mp hk
    trivial
  · decide

/-- The canonical path of the member that is called by a star finds its neighbour as well. -/
theorem star_not_alone : ∃ ms m ns, find "$.*" starred.json = .ok ms ∧ m ∈ ms ∧
    m.path = [.name "*"] ∧ find m.path.toText starred.json = .ok ns ∧
    ns.map Match.path = [[.name "*"], [.name "a"]] := by
  have hfind : find "$.*" starred.json = .ok [_, _] := rfl
  have hns : find (Path.toText [.name "*"]) starred.json = .ok [_, _] := rfl
  exact ⟨_, _, _, hfind, List.mem_cons_self, rfl, hns, rfl⟩

end LiveJson
