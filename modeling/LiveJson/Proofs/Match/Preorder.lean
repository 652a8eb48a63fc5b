import LiveJson.Proofs.Match.Located
import LiveJson.Proofs.Path.Printed

/-! # What a descent finds

A descendant segment goes on from each array and object of a document, in pre-order: a container comes
before its members, and what lies behind a member comes before what lies behind the next. Behind it a
wildcard takes all members of the container, a name the one that it addresses. So the descent comes to
every member of every container, and to none of them twice. -/

namespace LiveJson

namespace Json

/-! ## The containers of a document -/

theorem sizeOf_lt_of_mem_entries {v : Json} {e : Key × Json} (h : e ∈ v.entries) :
    sizeOf e.2 < sizeOf v := by
  cases v with
  | array items =>
    have hitem : e.2 ∈ items := by
      rw [← Tree.map_snd_enumerate 0 items]
      exact List.mem_map_of_mem h
    have hlt := List.sizeOf_lt_of_mem hitem
    rw [array.sizeOf_spec]
    omega
  | object members =>
    obtain ⟨m, hm, rfl⟩ := List.mem_map.mp h
    have hlt := List.sizeOf_lt_of_mem hm
    rw [object.sizeOf_spec]
    obtain ⟨name, w⟩ := m
    rw [Prod.mk.sizeOf_spec] at hlt
    dsimp only
    omega
  | _ => cases h

/-- What holds of a value as soon as it holds of its members holds of all values. -/
@[elab_as_elim]
theorem induction_on_entries {motive : Json → Prop}
    (step : ∀ v : Json, (∀ e ∈ v.entries, motive e.2) → motive v) (v : Json) : motive v :=
  step v fun e _ => induction_on_entries step e.2
termination_by sizeOf v
decreasing_by exact sizeOf_lt_of_mem_entries ‹_›

mutual

/-- The arrays and objects in a value with their locations, each before those behind its members. -/
def containers : Json → List (Path × Json)
  | array items => ([], array items) :: containersOfItems 0 items
  | object members => ([], object members) :: containersOfMembers members
  | null | bool _ | number _ | string _ => []
termination_by structural v => v

def containersOfItems (start : Nat) : List Json → List (Path × Json)
  | [] => []
  | v :: vs => (v.containers.map fun c => (.index start :: c.1, c.2)) ++
      containersOfItems (start + 1) vs
termination_by structural vs => vs

def containersOfMembers : List (String × Json) → List (Path × Json)
  | [] => []
  | (name, v) :: rest => (v.containers.map fun c => (.name name :: c.1, c.2)) ++
      containersOfMembers rest
termination_by structural ms => ms

end

/-- The containers in a member, seen from the value. -/
def behind (e : Key × Json) : List (Path × Json) := e.2.containers.map fun c => (e.1 :: c.1, c.2)

theorem containersOfItems_eq (start : Nat) (items : List Json) :
    containersOfItems start items = (Tree.enumerate start items).flatMap behind := by
  induction items generalizing start with
  | nil => rfl
  | cons v vs ih => rw [containersOfItems, ih, Tree.enumerate, List.flatMap_cons, behind]

theorem containersOfMembers_eq (members : List (String × Json)) :
    containersOfMembers members = (object members).entries.flatMap behind := by
  induction members with
  | nil => rfl
  | cons m ms ih =>
    rw [containersOfMembers, ih]
    rfl

theorem containers_eq (v : Json) : v.containers =
    (if v.isComposite then [([], v)] else []) ++ v.entries.flatMap behind := by
  cases v with
  | array items => rw [containers, containersOfItems_eq]; rfl
  | object members => rw [containers, containersOfMembers_eq]; rfl
  | _ => rfl

variable {v w x : Json} {k : Key} {p q : Path}

theorem containers_of_scalar (h : v.isComposite = false) : v.containers = [] := by
  rw [containers_eq, entries_of_scalar h, h]
  rfl

theorem mem_behind {c : Path × Json} {e : Key × Json} :
    c ∈ behind e ↔ ∃ p, c.1 = e.1 :: p ∧ (p, c.2) ∈ e.2.containers := by
  unfold behind
  rw [List.mem_map]
  constructor
  · rintro ⟨⟨p, x⟩, hc, rfl⟩
    exact ⟨p, rfl, hc⟩
  · rintro ⟨p, hp, hc⟩
    exact ⟨(p, c.2), hc, Prod.ext hp.symm rfl⟩

/-- The containers are the arrays and objects at all locations. -/
theorem mem_containers (hv : v.WellFormed) :
    (q, w) ∈ v.containers ↔ v.Holds q w ∧ w.isComposite = true := by
  induction v using induction_on_entries generalizing q with
  | step v ih =>
    rw [containers_eq, List.mem_append, List.mem_ite_nil_right, List.mem_singleton,
      List.mem_flatMap]
    cases q with
    | nil =>
      rw [holds_nil]
      constructor
      · rintro (⟨hcomposite, h⟩ | ⟨e, -, h⟩)
        · cases h
          exact ⟨rfl, hcomposite⟩
        · obtain ⟨p, hp, -⟩ := mem_behind.mp h
          cases hp
      · rintro ⟨rfl, hcomposite⟩
        exact .inl ⟨hcomposite, rfl⟩
    | cons k q =>
      rw [holds_cons]
      constructor
      · rintro (⟨-, h⟩ | ⟨e, he, h⟩)
        · cases h
        · obtain ⟨p, hp, h⟩ := mem_behind.mp h
          cases hp
          obtain ⟨htakes, hx⟩ := (mem_entries hv).mp he
          obtain ⟨hw, hcomposite⟩ := (ih e he (hv.member hx)).mp h
          exact ⟨⟨htakes, e.2, hx, hw⟩, hcomposite⟩
      · rintro ⟨⟨htakes, x, hx, hw⟩, hcomposite⟩
        have he := (mem_entries hv).mpr ⟨htakes, hx⟩
        have hrest := (ih _ he (hv.member hx)).mpr ⟨hw, hcomposite⟩
        exact .inr ⟨(k, x), he, mem_behind.mpr ⟨q, rfl, hrest⟩⟩

/-- Of two locations in a value, the first comes earlier: it is on the way to the other, or where they
part it takes the earlier member. -/
inductive Before : Json → Path → Path → Prop where
  | above {v : Json} {k : Key} {q : Path} : Before v [] (k :: q)
  | apart {v : Json} {k k' : Key} {p q : Path} (h : [k, k'].Sublist (v.entries.map Prod.fst)) :
      Before v (k :: p) (k' :: q)
  | inside {v w : Json} {k : Key} {p q : Path} (hk : (k, w) ∈ v.entries) (h : w.Before p q) :
      Before v (k :: p) (k :: q)

/-- No location comes before itself. -/
theorem Before.ne (h : v.Before p q) (hv : v.WellFormed) : p ≠ q := by
  induction h with
  | above => exact (List.cons_ne_nil _ _).symm
  | apart h =>
    intro heq
    have hkeys := (nodup_entries hv).sublist h
    exact (List.pairwise_pair.mp hkeys) (List.cons.inj heq).1
  | inside hk _ ih =>
    intro heq
    exact ih (hv.member ((mem_entries hv).mp hk).2) (List.cons.inj heq).2

theorem entries_pairwise (v : Json) :
    v.entries.Pairwise fun e e' => [e.1, e'.1].Sublist (v.entries.map Prod.fst) :=
  List.pairwise_iff_forall_sublist.mpr fun h => h.map Prod.fst

/-- The containers are listed in pre-order. -/
theorem pairwise_containers (v : Json) :
    v.containers.Pairwise fun c c' => v.Before c.1 c'.1 := by
  induction v using induction_on_entries with
  | step v ih =>
    rw [containers_eq, List.pairwise_append, List.pairwise_flatMap]
    refine ⟨?_, ⟨fun e he => ?_, ?_⟩, fun c hc c' hc' => ?_⟩
    · split
      · exact List.pairwise_singleton _ _
      · exact .nil
    · exact List.pairwise_map.mpr ((ih e he).imp fun h => .inside he h)
    · refine v.entries_pairwise.imp fun {e e'} h c hc c' hc' => ?_
      obtain ⟨p, hp, -⟩ := mem_behind.mp hc
      obtain ⟨q, hq, -⟩ := mem_behind.mp hc'
      rw [hp, hq]
      exact .apart h
    · rw [List.mem_ite_nil_right, List.mem_singleton] at hc
      obtain ⟨-, rfl⟩ := hc
      obtain ⟨e, -, hc'⟩ := List.mem_flatMap.mp hc'
      obtain ⟨q, hq, -⟩ := mem_behind.mp hc'
      rw [hq]
      exact .above

theorem nodup_containers (hv : v.WellFormed) : (v.containers.map Prod.fst).Nodup :=
  List.pairwise_map.mpr (v.pairwise_containers.imp fun h => h.ne hv)

end Json

/-! ## The walk through the containers -/

theorem Tree.isComposite_ofJson (document : Nat) (path : Path) (v : Json) :
    (ofJson document path v).isComposite = v.isComposite := by
  cases v <;> rfl

namespace Walk

section
variable {go : Walk Spot} {stack : Stack Spot} {document : Nat} {path : Path}
  {f : Key × Json → List (Match Spot)}

/-- What a descent finds behind a member, if that is an array or an object. -/
structure FindsBehind (go : Walk Spot) (stack : Stack Spot) (document : Nat) (path : Path)
    (f : Key × Json → List (Match Spot)) (e : Key × Json) : Prop where
  composite : e.2.isComposite = true →
    descend go (stack.enter e.1 (Tree.ofJson document (path ++ [e.1]) e.2))
      (Tree.ofJson document (path ++ [e.1]) e.2) = .ok (f e)
  scalar : e.2.isComposite = false → f e = []

theorem descendItems_eq_ok : ∀ (start : Nat) (items : List Json),
    (∀ e ∈ Tree.enumerate start items, FindsBehind go stack document path f e) →
    descendItems go stack start (Tree.ofItems document path start items) =
      .ok ((Tree.enumerate start items).flatMap f)
  | _, [], _ => rfl
  | start, v :: vs, h => by
    obtain ⟨hhead, htail⟩ := List.forall_mem_cons.mp h
    rw [Tree.ofItems, descendItems, descendItems_eq_ok (start + 1) vs htail, Tree.enumerate,
      List.flatMap_cons, Tree.isComposite_ofJson]
    cases hv : v.isComposite with
    | true => rw [if_pos rfl, hhead.composite hv]; rfl
    | false => rw [hhead.scalar hv]; rfl

theorem descendMembers_eq_ok : ∀ members : List (String × Json),
    (∀ e ∈ (Json.object members).entries, FindsBehind go stack document path f e) →
    descendMembers go stack (Tree.ofMembers document path members) =
      .ok ((Json.object members).entries.flatMap f)
  | [], _ => rfl
  | (name, v) :: rest, h => by
    have hentries : (Json.object ((name, v) :: rest)).entries =
        (.name name, v) :: (Json.object rest).entries := rfl
    rw [hentries] at h ⊢
    obtain ⟨hhead, htail⟩ := List.forall_mem_cons.mp h
    rw [Tree.ofMembers, descendMembers, descendMembers_eq_ok rest htail, List.flatMap_cons,
      Tree.isComposite_ofJson]
    cases hv : v.isComposite with
    | true => rw [if_pos rfl, hhead.composite hv]; rfl
    | false => rw [hhead.scalar hv]; rfl

/-- A descent goes on at the node and behind its members. -/
theorem descend_ofJson {v : Json} {here : List (Match Spot)} (hhere : go stack = .ok here)
    (h : ∀ e ∈ v.entries, FindsBehind go stack document path f e) :
    descend go stack (Tree.ofJson document path v) = .ok (here ++ v.entries.flatMap f) := by
  cases v with
  | array items =>
    rw [Tree.ofJson, descend, hhere, descendItems_eq_ok 0 items h]
    rfl
  | object members =>
    rw [Tree.ofJson, descend, hhere, descendMembers_eq_ok members h]
    rfl
  | _ =>
    rw [Tree.ofJson, descend, hhere]
    exact congrArg _ (List.append_nil here).symm

end

/-- A descent that finds something in containers only, by their locations and values, goes through the
containers as they are listed. -/
theorem descend_eq_ok {go : Walk Spot} {document : Nat} {f : Path → Json → List (Match Spot)}
    (hgo : ∀ stack v, v.WellFormed → stack.top.value = Tree.ofJson document stack.top.path v →
      go stack = .ok (f stack.top.path v))
    (hscalar : ∀ p v, v.isComposite = false → f p v = []) (v : Json) : ∀ stack : Stack Spot,
      v.WellFormed → stack.top.value = Tree.ofJson document stack.top.path v →
      descend go stack (Tree.ofJson document stack.top.path v) =
        .ok (v.containers.flatMap fun c => f (stack.top.path ++ c.1) c.2) := by
  induction v using Json.induction_on_entries with
  | step v ih =>
    intro stack hwell hv
    have hbehind : ∀ e ∈ v.entries, FindsBehind go stack document stack.top.path
        (fun e => (Json.behind e).flatMap fun c => f (stack.top.path ++ c.1) c.2) e := by
      refine fun e he => ⟨fun _ => ?_, fun hscalar => ?_⟩
      · have hmember := hwell.member ((Json.mem_entries hwell).mp he).2
        refine (ih e he (stack.enter e.1 _) hmember rfl).trans (congrArg Except.ok ?_)
        rw [Json.behind, List.flatMap_map]
        simp only [Stack.enter, Frame.enter, List.append_assoc, List.singleton_append]
      · rw [Json.behind, Json.containers_of_scalar hscalar]
        rfl
    have hnode : (if v.isComposite then [([], v)] else []).flatMap
        (fun c : Path × Json => f (stack.top.path ++ c.1) c.2) = f stack.top.path v := by
      cases hcomposite : v.isComposite with
      | true => simp
      | false => rw [hscalar _ v hcomposite]; rfl
    rw [descend_ofJson (hgo stack v hwell hv) hbehind, Json.containers_eq, List.flatMap_append, hnode,
      List.flatMap_assoc]

end Walk

/-! ## The members that are found -/

namespace Json

/-- A match for each member of a container that has a key of the sort. -/
def membersAt (selects : Key → Prop) [DecidablePred selects] (p : Path) (v : Json) :
    List (Match Spot) :=
  (v.entries.filter fun e => selects e.1).map fun e =>
    { path := p ++ [e.1]
      matched := .node (Tree.ofJson 0 (p ++ [e.1]) e.2)
      parent := some (Tree.ofJson 0 p v)
      parentKey := some e.1 }

/-- The matches are the members with keys of the sort that are in any container, each once: container
by container in pre-order, and the members of each container in a row and in their own order. -/
structure Exhausted (d : Json) (selects : Key → Prop) [DecidablePred selects]
    (ms : List (Match Spot)) : Prop where
  blocks : ∃ containers : List (Path × Json),
    (∀ p v, (p, v) ∈ containers ↔ d.Holds p v ∧ v.isComposite = true) ∧
    containers.Pairwise (fun c c' => d.Before c.1 c'.1) ∧
    ms = containers.flatMap fun c => membersAt selects c.1 c.2
  distinct : (ms.map Match.path).Nodup
  complete : ∀ q, q ∈ ms.map Match.path ↔
    (∃ w, d.Holds q w) ∧ ∃ p k, q = p ++ [k] ∧ selects k

section
variable {v : Json} {p q : Path} {selects : Key → Prop} [DecidablePred selects]

theorem mem_path_membersAt :
    q ∈ (membersAt selects p v).map Match.path ↔
      ∃ k w, (k, w) ∈ v.entries ∧ selects k ∧ q = p ++ [k] := by
  simp only [membersAt, List.map_map, List.mem_map, List.mem_filter, Function.comp_apply,
    decide_eq_true_eq, Prod.exists]
  constructor
  · rintro ⟨k, w, ⟨he, hk⟩, rfl⟩
    exact ⟨k, w, he, hk, rfl⟩
  · rintro ⟨k, w, he, hk, rfl⟩
    exact ⟨k, w, ⟨he, hk⟩, rfl⟩

theorem nodup_membersAt (hv : v.WellFormed) : ((membersAt selects p v).map Match.path).Nodup := by
  have hpaths : (membersAt selects p v).map Match.path =
      ((v.entries.filter fun e => selects e.1).map Prod.fst).map fun k => p ++ [k] := by
    simp [membersAt]
  rw [hpaths]
  refine List.Nodup.map (fun k k' h => List.singleton_inj.mp (List.append_cancel_left h)) ?_
  exact (nodup_entries hv).sublist (List.filter_sublist.map Prod.fst)

end

theorem exhausted_containers (d : Document) (selects : Key → Prop) [DecidablePred selects] :
    d.json.Exhausted selects (d.json.containers.flatMap fun c => membersAt selects c.1 c.2) where
  blocks := ⟨d.json.containers, fun _ _ => mem_containers d.wellFormed, d.json.pairwise_containers,
    rfl⟩
  distinct := by
    rw [List.map_flatMap, List.nodup_flatMap]
    refine ⟨fun c hc => nodup_membersAt ?_, ?_⟩
    · exact ((mem_containers d.wellFormed).mp hc).1.wellFormed d.wellFormed
    · refine (List.pairwise_map.mp (nodup_containers d.wellFormed)).imp fun hne q hq hq' => hne ?_
      obtain ⟨k, -, -, -, rfl⟩ := mem_path_membersAt.mp hq
      obtain ⟨k', -, -, -, heq⟩ := mem_path_membersAt.mp hq'
      exact List.append_inj_left' heq rfl
  complete q := by
    rw [List.map_flatMap, List.mem_flatMap]
    constructor
    · rintro ⟨⟨p, v⟩, hc, hq⟩
      obtain ⟨k, w, he, hk, rfl⟩ := mem_path_membersAt.mp hq
      obtain ⟨hp, -⟩ := (mem_containers d.wellFormed).mp hc
      obtain ⟨htakes, hmember⟩ := (mem_entries (hp.wellFormed d.wellFormed)).mp he
      exact ⟨⟨w, holds_concat hp htakes hmember⟩, p, k, rfl, hk⟩
    · rintro ⟨⟨w, hw⟩, p, k, rfl, hk⟩
      obtain ⟨v, hp, htakes, hmember⟩ := holds_concat_iff.mp hw
      have he := (mem_entries (hp.wellFormed d.wellFormed)).mpr ⟨htakes, hmember⟩
      exact ⟨(p, v), (mem_containers d.wellFormed).mpr ⟨hp, isComposite_of_mem_entries he⟩,
        mem_path_membersAt.mpr ⟨k, w, he, hk, rfl⟩⟩

end Json

/-- Whether a name addresses the member with a key: a member that is called so, or the element whose
position it spells in digits. -/
def Key.AddressedBy (name : String) : Key → Prop
  | .name n => n = name
  | .index i => position? name.toList = some i

instance (name : String) : DecidablePred (Key.AddressedBy name)
  | .name n => inferInstanceAs (Decidable (n = name))
  | .index i => inferInstanceAs (Decidable (Key.position? name.toList = some i))

theorem Key.addressedBy_iff {name : String} {key : Key} : key.AddressedBy name ↔
    key = .name name ∨ ∃ i, key = .index i ∧ position? name.toList = some i := by
  cases key <;> simp [AddressedBy]

/-- The members of a tree with keys of a sort. -/
def Tree.select (selects : Key → Prop) [DecidablePred selects] (t : Tree ι) : List (Key × Tree ι) :=
  t.entries.filter fun e => selects e.1

theorem Tree.toList_get? {t : Tree ι} (name : String) (hn : (t.entries.map Prod.fst).Nodup) :
    (t.get? name).toList = t.select (Key.AddressedBy name) := by
  have hmem (e : Key × Tree ι) :
      e ∈ t.select (Key.AddressedBy name) ↔ e ∈ (t.get? name).toList := by
    obtain ⟨key, child⟩ := e
    rw [Option.mem_toList, mem_get?_iff hn, select, List.mem_filter, decide_eq_true_eq,
      Key.addressedBy_iff]
  have hnodup : (t.select (Key.AddressedBy name)).Nodup := hn.of_map.filter _
  have hperm : (t.select (Key.AddressedBy name)).Perm (t.get? name).toList :=
    (List.perm_ext_iff_of_nodup hnodup (by cases t.get? name <;> simp)).mpr hmem
  cases hget : t.get? name with
  | none =>
    rw [hget] at hperm
    exact (List.perm_nil.mp hperm).symm
  | some e =>
    rw [hget] at hperm
    exact (List.perm_singleton.mp hperm).symm

theorem Tree.select_wildcard (t : Tree ι) : t.select (fun _ => True) = t.entries := by
  simp [select]

namespace Walk

variable {selects : Key → Prop} [DecidablePred selects]

/-- Going on at the members with keys of a sort finds them. -/
theorem enterAll_select {stack : Stack Spot} {v : Json}
    (hv : stack.top.value = Tree.ofJson 0 stack.top.path v) :
    enterAll (Tracer.walk {} []) stack (stack.top.value.select selects) =
      .ok (Json.membersAt selects stack.top.path v) := by
  have hentries : stack.top.value.select selects = (v.entries.filter fun e => selects e.1).map
      fun e => (e.1, Tree.ofJson 0 (stack.top.path ++ [e.1]) e.2) := by
    rw [hv, Tree.select, Tree.entries_ofJson, List.filter_map]
    rfl
  have hfind (e : Key × Tree Spot) : Tracer.walk {} [] (stack.enter e.1 e.2) =
      .ok [(stack.enter e.1 e.2).top.nodeMatch] := rfl
  rw [enterAll_eq_ok _ fun e _ => hfind e, hentries, List.flatMap_map, ← List.map_eq_flatMap,
    Json.membersAt, ← hv]
  rfl

/-- What a descent finds behind which a segment takes the members with keys of a sort. -/
theorem descend_select (d : Document) {segment : Segment}
    (hsegment : ∀ (stack : Stack Spot) (v : Json), v.WellFormed →
      stack.top.value = Tree.ofJson 0 stack.top.path v →
      Tracer.walk {} [segment] stack =
        enterAll (Tracer.walk {} []) stack (stack.top.value.select selects)) :
    ∃ ms, (Tracer.trace {} [.descendant, segment] (Tree.ofJson 0 [] d.json) none none).outcome =
      .ok ms ∧ d.json.Exhausted selects ms := by
  refine ⟨_, Tracer.trace_of_walk ?_, Json.exhausted_containers d selects⟩
  refine descend_eq_ok (fun stack v hwell hv => ?_) (fun p v hscalar => ?_) d.json
    ⟨⟨Tree.ofJson 0 [] d.json, [], none, none⟩, []⟩ d.wellFormed rfl
  · rw [hsegment stack v hwell hv, enterAll_select hv]
  · rw [Json.membersAt, Json.entries_of_scalar hscalar]
    rfl

end Walk

namespace Segment

theorem read_below_quoted {quote : Char} (h : isQuote quote = true) (n : String) :
    read ("$..[" ++ String.ofList (Text.enquote quote n.toList) ++ "]") =
      .ok [.descendant, .name n] := by
  have hitem (offset : Nat) :
      readBracketed offset (Text.enquote quote n.toList) = .ok (.name n) := by
    rw [readBracketed, splitTop_enquote h]
    dsimp only
    rw [readItem_enquote h, String.ofList_toList]
  have htext : ("$..[" ++ String.ofList (Text.enquote quote n.toList) ++ "]").toList =
      '$' :: '.' :: '.' :: '[' :: (Text.enquote quote n.toList ++ [']']) := by
    simp
  rw [read, htext, ofChars_dollar (not_atEnd (by decide) _), List.length_cons, List.length_cons,
    readFrom_descendant (by simp), List.length_cons,
    readFrom_bracket (balanced_enquote h _) (hitem _) _ _ [], List.length_cons, readFrom_nil]
  rfl

end Segment

/-- **A descent behind which a wildcard stands finds every member of every container, each once,
container by container in pre-order. With a name between quotes in its place, it finds in the same way
the members that the name addresses.** -/
theorem find_below (d : Document) :
    (∃ ms, find "$..*" d.json = .ok ms ∧ d.json.Exhausted (fun _ => True) ms) ∧
    ∀ (quote : Char) (n : String), Segment.isQuote quote = true →
      ∃ ms, find ("$..[" ++ String.ofList (Text.enquote quote n.toList) ++ "]") d.json = .ok ms ∧
        d.json.Exhausted (Key.AddressedBy n) ms := by
  constructor
  · have hread : Segment.read "$..*" = .ok [.descendant, .wildcard] := rfl
    unfold find Tree.search
    rw [hread]
    refine Walk.descend_select d fun stack v _ _ => ?_
    rw [Tree.select_wildcard]
    rfl
  · intro quote n hquote
    unfold find Tree.search
    rw [Segment.read_below_quoted hquote]
    refine Walk.descend_select d fun stack v hwell hv => ?_
    rw [← Tree.toList_get? n (hv ▸ Tree.nodup_entries_ofJson hwell 0 _)]
    rfl

/-- An object with a member that is called by a digit and one that holds an array. -/
def digitNamed : Document where
  json := .object [("a", .array [.null, .object []]), ("0", .null)]
  wellFormed := by
    simp [Json.WellFormed, Json.MembersWellFormed, Json.ItemsWellFormed, Members.names]

theorem find_below_digit : ∃ ms, find "$..['0']" digitNamed.json = .ok ms ∧
    digitNamed.json.Exhausted (Key.AddressedBy "0") ms ∧
    ms.map Match.path = [[.name "0"], [.name "a", .index 0]] := by
  obtain ⟨ms, hms, exhausted⟩ := (find_below digitNamed).2 '\'' "0" rfl
  have hread : Segment.read "$..['0']" = .ok [.descendant, .name "0"] := rfl
  have hpaths : (find "$..['0']" digitNamed.json).map (List.map Match.path) =
      .ok [[.name "0"], [.name "a", .index 0]] := by
    rw [find, Tree.search, hread]
    rfl
  exact ⟨ms, hms, exhausted, Except.ok.inj ((congrArg _ hms).symm.trans hpaths)⟩

end LiveJson
