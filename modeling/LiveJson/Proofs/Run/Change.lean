import LiveJson.Proofs.Match.Extend
import LiveJson.Proofs.Run.Report
import LiveJson.Proofs.Run.Views
import LiveJson.Proofs.Store.Replaced

/-! # Changing what a path finds

A change takes the last name off its path and writes in the first array or object that the rest
finds. The path itself finds the members of that name of all arrays and objects that the rest finds.
So where the first of them has such a member, the change writes what the path finds first; and where
only a later one has it, the path finds something and the change is refused. -/

namespace LiveJson

open Store (Policy)

namespace Store

variable {s t : Store} {d id : CellId} {path : Path} {key : Key} {query name : String}
  {parents : List Segment}

/-- The cell that a node is. -/
def cellOf? : Tree CellId → Option CellId
  | .array id _ | .object id _ => some id
  | .leaf _ => none

/-- The arrays and objects that some segments find, in the order in which they are found. -/
def containers (s : Store) (segments : List Segment) : Except PathError (List CellId) :=
  match s.rootTree? with
  | none => .ok []
  | some t => (Tracer.trace {} segments t none none).outcome.map
      (List.filterMap fun m => cellOf? m.matched.toTree)

/-- A change aims at the member of the first array or object. -/
theorem locate_eq_ok (hread : Segment.read query = .ok (parents ++ [.name name]))
    {located : CellId × String} : s.locate query = .ok located ↔
      ∃ id ids, s.containers parents = .ok (id :: ids) ∧
        ((s.tree (.cell id)).get? name).isSome ∧ located = (id, name) := by
  unfold locate containers
  rw [hread]
  simp only [List.getLast?_concat, List.dropLast_concat]
  cases s.rootTree? with
  | none => simp
  | some t =>
    dsimp only
    cases (Tracer.trace {} parents t none none).outcome with
    | error e => simp [Except.map]
    | ok ms =>
      dsimp only [Except.map]
      have hfirst : (ms.filterMap fun m => cellOf? m.matched.toTree).head? =
          ms.findSome? fun m => cellOf? m.matched.toTree := List.head?_filterMap ..
      split
      · next hnone =>
        have hids := List.head?_eq_none_iff.mp (hfirst.trans hnone)
        simp [hids]
      · next id hid =>
        obtain ⟨ids, hids⟩ := List.head?_eq_some_iff.mp (hfirst.trans hid)
        rw [hids]
        constructor
        · intro h
          split at h
          · next hmember =>
            cases h
            exact ⟨id, ids, rfl, hmember, rfl⟩
          · cases h
        · rintro ⟨id', ids', heq, hmember, rfl⟩
          cases heq
          exact if_pos hmember

/-! ## What is found in an exact store -/

variable {root : CellId} {ids : List CellId} {frame : Frame CellId} {frames : List (Frame CellId)}

/-- A node at its place is a scalar, without members, or a cell that has its place there. -/
theorem Placed.cases (h : s.Placed frame) (hs : s.Formed) :
    (cellOf? frame.value = none ∧ ∀ name, frame.value.get? name = none) ∨
      ∃ id, cellOf? frame.value = some id ∧ frame.value = s.tree (.cell id) ∧
        s.place? id = some frame.path := by
  obtain ⟨slot, hvalue, hplace⟩ := h
  cases slot with
  | scalar v =>
    rw [hvalue, tree_scalar]
    exact .inl ⟨rfl, fun _ => rfl⟩
  | cell d =>
    obtain ⟨c, hc⟩ := content?_of_place? (hplace d rfl)
    refine .inr ⟨d, ?_, hvalue, hplace d rfl⟩
    rw [hvalue, hs.tree_cell hc]
    cases c <;> rfl

/-- What some segments find stands at its place. -/
theorem Exact.from_placed (he : s.Exact) (hs : s.Sound) (hroot : s.root = some root)
    {ms : List (Match CellId)}
    (h : (Tracer.trace {} parents (s.tree (.cell root)) none none).outcome = .ok ms) :
    ∀ m ∈ ms, m.From s.Placed := fun _ hm =>
  Tracer.from_of_mem_trace {} (he.inherited_placed hs.toFormed)
    ⟨.cell root, rfl, fun _ hd => Slot.cell.inj hd ▸ hs.rooted.mpr hroot⟩ h hm

theorem Exact.place?_of_mem_containers (he : s.Exact) (hs : s.Sound)
    (h : s.containers parents = .ok ids) (hid : id ∈ ids) : ∃ p, s.place? id = some p := by
  cases hroot : s.root with
  | none =>
    rw [containers, rootTree?, hroot] at h
    cases h
    cases hid
  | some root =>
    rw [containers, rootTree?, hroot] at h
    obtain ⟨ms, hms, h⟩ := map_eq_ok.mp h
    cases h
    obtain ⟨m, hm, hcell⟩ := List.mem_filterMap.mp hid
    obtain ⟨frame, hplaced, rfl | rfl⟩ := he.from_placed hs hroot hms m hm
    · obtain ⟨hnone, -⟩ | ⟨d, hd, -, hp⟩ := hplaced.cases hs.toFormed
      · cases hnone.symm.trans hcell
      · cases hd.symm.trans hcell
        exact ⟨_, hp⟩
    · cases hcell

/-- The segments find these nodes, and no keys. -/
structure Finds (s : Store) (root : CellId) (parents : List Segment)
    (frames : List (Frame CellId)) : Prop where
  traced : (Tracer.trace {} parents (s.tree (.cell root)) none none).outcome =
    .ok (frames.map Frame.nodeMatch)
  placed : ∀ frame ∈ frames, s.Placed frame

theorem Finds.containers (h : s.Finds root parents frames) (hroot : s.root = some root) :
    s.containers parents = .ok (frames.filterMap fun frame => cellOf? frame.value) := by
  rw [Store.containers, rootTree?, hroot, Option.map_some]
  dsimp only
  rw [h.traced, Except.map, List.filterMap_map]
  rfl

/-- One name more finds the members of that name. -/
theorem Finds.search (h : s.Finds root parents frames)
    (hread : Segment.read query = .ok (parents ++ [.name name]))
    (hpasses : Segment.passesAll parents = true) :
    (s.tree (.cell root)).search query = .ok (frames.flatMap (Frame.members name)) := by
  rw [Tree.search, hread]
  exact (Tracer.trace_concat_name {} hpasses).mpr ⟨frames, h.traced, rfl⟩

theorem Exact.finds_of_traced (he : s.Exact) (hs : s.Sound) (hroot : s.root = some root)
    (h : (Tracer.trace {} parents (s.tree (.cell root)) none none).outcome =
      .ok (frames.map Frame.nodeMatch)) : s.Finds root parents frames := by
  refine ⟨h, fun frame hframe => ?_⟩
  obtain ⟨frame', hplaced, heq | heq⟩ :=
    he.from_placed hs hroot h frame.nodeMatch (List.mem_map_of_mem hframe)
  · exact Frame.nodeMatch_injective heq ▸ hplaced
  · cases congrArg Match.matched heq

theorem Exact.finds_of_containers (he : s.Exact) (hs : s.Sound) (hroot : s.root = some root)
    (hpasses : Segment.passesAll parents = true) (h : s.containers parents = .ok ids) :
    ∃ frames, s.Finds root parents frames := by
  rw [Store.containers, rootTree?, hroot] at h
  obtain ⟨ms, hms, -⟩ := map_eq_ok.mp h
  obtain ⟨frames, rfl⟩ := Tracer.nodes_of_trace {} hpasses hms
  exact ⟨frames, he.finds_of_traced hs hroot hms⟩

theorem Exact.finds_of_search (he : s.Exact) (hs : s.Sound) (hroot : s.root = some root)
    (hread : Segment.read query = .ok (parents ++ [.name name]))
    (hpasses : Segment.passesAll parents = true) {ms : List (Match CellId)}
    (h : (s.tree (.cell root)).search query = .ok ms) : ∃ frames, s.Finds root parents frames := by
  rw [Tree.search, hread] at h
  obtain ⟨frames, htraced, -⟩ := (Tracer.trace_concat_name {} hpasses).mp h
  exact ⟨frames, he.finds_of_traced hs hroot htraced⟩

/-- There is such a member if some array or object has one. -/
theorem exists_members_iff (hs : s.Formed) (h : ∀ frame ∈ frames, s.Placed frame) :
    (∃ m, m ∈ frames.flatMap (Frame.members name)) ↔
      ∃ id ∈ frames.filterMap fun frame => cellOf? frame.value,
        (s.get? id (.name name)).isSome = true := by
  have members : ∀ frame : Frame CellId, (∃ m, m ∈ frame.members name) ↔
      (frame.value.get? name).isSome = true := by
    intro frame
    unfold Frame.members
    cases frame.value.get? name <;> simp
  constructor
  · rintro ⟨m, hm⟩
    obtain ⟨frame, hframe, hm⟩ := List.mem_flatMap.mp hm
    have hget := (members frame).mp ⟨m, hm⟩
    obtain ⟨-, hnone⟩ | ⟨id, hid, hvalue, -⟩ := (h frame hframe).cases hs
    · rw [hnone] at hget
      cases hget
    · rw [hvalue, isSome_get?_tree hs] at hget
      exact ⟨id, List.mem_filterMap.mpr ⟨frame, hframe, hid⟩, hget⟩
  · rintro ⟨id, hid, hget⟩
    obtain ⟨frame, hframe, hcell⟩ := List.mem_filterMap.mp hid
    obtain ⟨hnone, -⟩ | ⟨d, hd, hvalue, -⟩ := (h frame hframe).cases hs
    · cases hnone.symm.trans hcell
    · cases hd.symm.trans hcell
      rw [← isSome_get?_tree hs, ← hvalue] at hget
      obtain ⟨m, hm⟩ := (members frame).mpr hget
      exact ⟨m, List.mem_flatMap.mpr ⟨frame, hframe, hm⟩⟩

/-- If the first array or object has such a member, it is the first of all. -/
theorem first_member (hs : s.Formed) {key : Key} {child : Tree CellId}
    (hget : (s.tree (.cell id)).get? name = some (key, child)) :
    ∀ {frames : List (Frame CellId)}, (∀ frame ∈ frames, s.Placed frame) →
      (frames.filterMap fun frame => cellOf? frame.value) = id :: ids →
      ∃ p m ms, s.place? id = some p ∧ frames.flatMap (Frame.members name) = m :: ms ∧
        m.path = p ++ [key]
  | [], _, hids => by cases hids
  | frame :: frames, h, hids => by
    obtain ⟨hnone, hempty⟩ | ⟨d, hd, hvalue, hp⟩ := (h frame List.mem_cons_self).cases hs
    · -- a scalar is no container and has no members either
      rw [List.filterMap_cons, hnone] at hids
      rw [List.flatMap_cons, Frame.members, hempty]
      exact first_member hs hget (fun frame hframe => h frame (List.mem_cons_of_mem _ hframe)) hids
    · rw [List.filterMap_cons, hd] at hids
      obtain ⟨rfl, -⟩ := List.cons.inj hids
      rw [List.flatMap_cons, Frame.members, hvalue, hget]
      exact ⟨_, _, _, hp, rfl, rfl⟩

theorem select_of_root (hroot : s.root = some root) (query : String) : s.select query none =
    ((s.tree (.cell root)).search query).map fun ms =>
      (ms.map fun m => m.matched.toTree).head? := by
  rw [select, selectAll, rootTree?, hroot]
  change ((s.tree (.cell root)).search query >>= _).map _ = _
  cases (s.tree (.cell root)).search query <;> rfl

/-- The path finds something if some array or object has such a member. -/
theorem Exact.select_iff (he : s.Exact) (hs : s.Sound)
    (hread : Segment.read query = .ok (parents ++ [.name name]))
    (hpasses : Segment.passesAll parents = true) :
    (∃ t, s.select query none = .ok (some t)) ↔ ∃ ids, s.containers parents = .ok ids ∧
      ∃ id ∈ ids, (s.get? id (.name name)).isSome = true := by
  cases hroot : s.root with
  | none =>
    constructor
    · rintro ⟨t, ht⟩
      obtain ⟨ts, hts, ht⟩ := map_eq_ok.mp ht
      rw [selectAll_of_root_none hroot hts] at ht
      cases ht
    · rintro ⟨ids, hids, id, hid, -⟩
      rw [containers, rootTree?, hroot] at hids
      cases hids
      cases hid
  | some root =>
    rw [select_of_root hroot]
    constructor
    · rintro ⟨t, ht⟩
      obtain ⟨ms, hms, ht⟩ := map_eq_ok.mp ht
      obtain ⟨frames, finds⟩ := he.finds_of_search hs hroot hread hpasses hms
      cases hms.symm.trans (finds.search hread hpasses)
      refine ⟨_, finds.containers hroot, (exists_members_iff hs.toFormed finds.placed).mp ?_⟩
      obtain ⟨m, hm, -⟩ := List.mem_map.mp (List.mem_of_head? ht)
      exact ⟨m, hm⟩
    · rintro ⟨ids, hids, hmember⟩
      obtain ⟨frames, finds⟩ := he.finds_of_containers hs hroot hpasses hids
      cases hids.symm.trans (finds.containers hroot)
      obtain ⟨m, hm⟩ := (exists_members_iff hs.toFormed finds.placed).mpr hmember
      rw [finds.search hread hpasses]
      obtain ⟨first, more, hmembers⟩ := List.exists_cons_of_ne_nil (List.ne_nil_of_mem hm)
      rw [hmembers]
      exact ⟨_, rfl⟩

/-- If the first array or object has such a member, the path finds it first. -/
theorem Exact.resolve_first (he : s.Exact) (hs : s.Sound)
    (hread : Segment.read query = .ok (parents ++ [.name name]))
    (hpasses : Segment.passesAll parents = true) (hids : s.containers parents = .ok (id :: ids))
    (hp : s.place? id = some path) {child : Tree CellId}
    (hget : (s.tree (.cell id)).get? name = some (key, child)) :
    s.resolve query = .ok (some (path ++ [key]).toText) := by
  obtain ⟨root, hroot, -⟩ := hs.reaches_root hp
  obtain ⟨frames, finds⟩ := he.finds_of_containers hs hroot hpasses hids
  have hfirst := Except.ok.inj ((finds.containers hroot).symm.trans hids)
  obtain ⟨p, m, ms, hp', hmembers, hpath⟩ := first_member hs.toFormed hget finds.placed hfirst
  cases hp.symm.trans hp'
  have hrootTree : s.rootTree? = some (s.tree (.cell root)) := by
    rw [rootTree?, hroot]
    rfl
  rw [resolve_of_search hrootTree (finds.search hread hpasses), hmembers, ← hpath]
  rfl

/-! ## What a change does -/

variable {u : Universe Journal} {k : StoreId} {c : Content} {slot : Slot}

/-- With listeners that only record, a change that finds its location replaces the value there. -/
theorem change_replaces (hu : u.Steady Policy.free) (he : (u.store k).Exact)
    (hlocate : (u.store k).locate query = .ok (id, name))
    (target : Target (u.store k) id (.name name) path key c) (hslot : c.get? key = some slot)
    (d : Document) (origin : Option ListenerId) (reach : Nat) :
    ∃ v, (change (recording reach) k query (.plain d.json) origin).run u = (.ok (), v) ∧
      (u.store k).Replaced (v.store k) id (path ++ [key]) d.json ∧
      ∀ j, j ≠ k → v.store j = u.store j := by
  have hk := lt_size_of_locate hlocate
  have target' : Target ((u.store k).onBehalf origin) id (.name name) path key c :=
    ⟨target.alive, target.place, target.content, target.normal, target.fits⟩
  obtain ⟨edit, t, hset⟩ := target'.set_copy hslot d.json
  have sound := ((hu k).step (.origin origin)).sound
  have replaced := target'.replaced_set sound (he.frame rfl) hslot d.wellFormed hset
  have hrun := recorded_change reach (.plain d) hu hlocate hset
  refine ⟨_, hrun, ?_, fun j hj => ?_⟩
  · have hk' : k < ((u.setStore k t.promote).tell (t.promote.heardOf k edit)).stores.size := by
      simpa [Universe.tell, Universe.setStore] using hk
    rw [Universe.store_setStore_self hk']
    exact replaced.frame rfl rfl rfl rfl
  · rw [Universe.store_setStore_of_ne hj, Universe.store_tell, Universe.store_setStore_of_ne hj]

/-- A change that succeeds has aimed at a member of the first array or object. -/
theorem first_of_change (hs : (u.store k).Formed)
    (hread : Segment.read query = .ok (parents ++ [.name name])) {listeners : Listeners Journal}
    {node : Node} {origin : Option ListenerId} {v : Universe Journal}
    (h : (change listeners k query node origin).run u = (.ok (), v)) :
    ∃ id ids, (u.store k).containers parents = .ok (id :: ids) ∧
      ((u.store k).get? id (.name name)).isSome = true := by
  cases hlocate : (u.store k).locate query with
  | error e =>
    rw [change_run, hlocate] at h
    cases h
  | ok located =>
    obtain ⟨id, ids, hids, hmember, -⟩ := (locate_eq_ok hread).mp hlocate
    rw [isSome_get?_tree hs] at hmember
    exact ⟨id, ids, hids, hmember⟩

/-- A change writes in the first array or object if that has such a member. -/
theorem change_first (hu : u.Steady Policy.free) (he : (u.store k).Exact)
    (hread : Segment.read query = .ok (parents ++ [.name name]))
    (hids : (u.store k).containers parents = .ok (id :: ids))
    (hmember : ((u.store k).get? id (.name name)).isSome = true)
    (d : Document) (origin : Option ListenerId) (reach : Nat) :
    ∃ location v, (u.store k).keyAt id (.name name) = .ok location ∧
      (change (recording reach) k query (.plain d.json) origin).run u = (.ok (), v) ∧
      (u.store k).Replaced (v.store k) id location d.json ∧ (∀ j, j ≠ k → v.store j = u.store j) ∧
      (Segment.passesAll parents = true →
        (u.store k).resolve query = .ok (some location.toText)) := by
  have hs := (hu k).sound
  obtain ⟨p, hp⟩ := he.place?_of_mem_containers hs hids List.mem_cons_self
  rw [← isSome_get?_tree hs.toFormed] at hmember
  have hlocate := (locate_eq_ok hread).mpr ⟨id, ids, hids, hmember, rfl⟩
  obtain ⟨child, hchild⟩ := Option.isSome_iff_exists.mp hmember
  obtain ⟨key, c, slot, target, hslot, rfl⟩ := exists_target hs.toFormed (hu k).alive hp hchild
  obtain ⟨v, hrun, replaced, others⟩ := change_replaces hu he hlocate target hslot d origin reach
  exact ⟨p ++ [key], v, target.keyAt, hrun, replaced, others, fun hpasses =>
    he.resolve_first hs hread hpasses hids hp hchild⟩

end Store

namespace Universe

variable {u v : Universe Journal} {outcome : Except StoreError Unit}

/-- **As long as no cell of a document moves, a change succeeds exactly if the first array or object
that the path finds without its last name has a member of that name. Then the value at the location
of that member is replaced, and nothing else is written. If the path goes on behind all its segments,
this is the location of its first match; and it has a match exactly if any of these arrays and
objects has such a member, be it the first or a later one.** -/
theorem Reached.change_iff_first_has {react : ListenerId → Change → Client} {reach depth : Nat}
    (h : u.Reached (Client.reacting react reach depth)) {k : StoreId}
    (hJ : Journal.CompliesBy (Policy.never.onlyIn k) u.memory) {query name : String}
    {parents : List Segment} (hread : Segment.read query = .ok (parents ++ [.name name]))
    (d : Document) (origin : Option ListenerId) (note : Nat)
    (hrun : (Store.change (recording note) k query (.plain d.json) origin).run u = (outcome, v)) :
    (outcome = .ok () ↔ ∃ id ids, (u.store k).containers parents = .ok (id :: ids) ∧
      ((u.store k).get? id (.name name)).isSome = true) ∧
    (outcome = .ok () → ∃ id ids location, (u.store k).containers parents = .ok (id :: ids) ∧
      (u.store k).keyAt id (.name name) = .ok location ∧
      (u.store k).Replaced (v.store k) id location d.json ∧ (∀ j, j ≠ k → v.store j = u.store j) ∧
      (Segment.passesAll parents = true →
        (u.store k).resolve query = .ok (some location.toText))) ∧
    (Segment.passesAll parents = true → ((∃ t, (u.store k).select query none = .ok (some t)) ↔
      ∃ ids, (u.store k).containers parents = .ok ids ∧
        ∃ id ∈ ids, ((u.store k).get? id (.name name)).isSome = true)) := by
  have hu := (h.stepwiseBy hJ).steady
  have hs := (hu k).sound
  have he : (u.store k).Exact := (h.stepwiseBy hJ).exact (.inl rfl)
  have first : outcome = .ok () → ∃ id ids, (u.store k).containers parents = .ok (id :: ids) ∧
      ((u.store k).get? id (.name name)).isSome = true := by
    rintro rfl
    exact Store.first_of_change hs.toFormed hread hrun
  refine ⟨⟨first, ?_⟩, fun hok => ?_, he.select_iff hs hread⟩
  · rintro ⟨id, ids, hids, hmember⟩
    obtain ⟨location, w, -, hchange, -⟩ :=
      Store.change_first hu he hread hids hmember d origin note
    rw [hrun] at hchange
    exact congrArg Prod.fst hchange
  · obtain ⟨id, ids, hids, hmember⟩ := first hok
    obtain ⟨location, w, hkey, hchange, effect⟩ :=
      Store.change_first hu he hread hids hmember d origin note
    obtain rfl := congrArg Prod.snd (hrun.symm.trans hchange)
    exact ⟨id, ids, location, hids, hkey, effect⟩

/-- A change of the innermost object of the document. -/
def innermostChange (query : String) : Action Journal Unit :=
  Store.change (recording 0) 0 query (.plain (.bool true)) none

theorem change_after_load : ∃ v, (innermostChange "$.a.b").run afterLoad = (.ok (), v) ∧
    (afterLoad.store 0).Replaced (v.store 0) 1 [.name "a", .name "b"] (.bool true) ∧
    (afterLoad.store 0).resolve "$.a.b" = .ok (some (Path.toText [.name "a", .name "b"])) := by
  have hread : Segment.read "$.a.b" = .ok ([.name "a"] ++ [.name "b"]) := rfl
  have hrun := (Prod.mk.eta (p := (innermostChange "$.a.b").run afterLoad)).symm
  have changes := reached_afterLoad.change_iff_first_has (complies_afterLoad _) hread ⟨.bool true, trivial⟩
    none 0 hrun
  have hids : (afterLoad.store 0).containers [.name "a"] = .ok [1] := rfl
  have hok := changes.1.mpr ⟨1, [], hids, rfl⟩
  obtain ⟨id, ids, location, hids', hkey, replaced, -, hresolve⟩ := changes.2.1 hok
  cases hids.symm.trans hids'
  cases hkey
  rw [hok] at hrun
  exact ⟨_, hrun, replaced, hresolve rfl⟩

/-- The object `b` is found, but the root, which is the first object to be looked into, has no member
of that name. -/
theorem found_not_changed : afterLoad.Reached (recording 0) ∧
    (∃ t, (afterLoad.store 0).select "$..b" none = .ok (some t)) ∧
    ((innermostChange "$..b").run afterLoad).1 = .error (.unresolved "$..b" .noMember) :=
  ⟨reached_afterLoad, ⟨_, rfl⟩, rfl⟩

end Universe

end LiveJson
