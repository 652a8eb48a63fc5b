import LiveJson.Proofs.Run.Places
import LiveJson.Proofs.Run.Recorded
import LiveJson.Proofs.Store.Account

/-! # Who is told of a write

A write is reported at its location and at each one above it, nearest first, and where it leaves no
array or object in place of one, also at every location inside what was there. These locations have
different texts, so each listener that is registered under one of them is called once for it, and
nobody else is. -/

namespace LiveJson

/-- A write to be reported, with the listener that is behind it. -/
structure Aim where
  op : Op
  location : Path
  origin : Option ListenerId

/-- A call to a listener for a path that it is registered under. -/
structure Due where
  path : String
  listener : ListenerId
  change : Change

def Due.pair (due : Due) : String × ListenerId := (due.path, due.listener)

def Due.call (due : Due) : Call := (due.listener, due.change)

namespace Store

variable {A : Policy} {k : StoreId} {s t r : Store} {aim : Aim} {edit : Edit}

/-- The node at a location. -/
def nodeAt (s : Store) (k : StoreId) (p : Path) : Option Node := (s.at? p).map (Node.ofSlot k)

/-- The locations inside what was at a location, if no array or object is there any more. -/
def lostInside (s t : Store) (location : Path) : List Path :=
  match s.at? location, t.at? location with
  | some (.cell _), some (.cell _) => []
  | some (.cell id), _ => ((s.tree (.cell id)).inside location).map Prod.fst
  | _, _ => []

/-- What is reported of a write from `s` to `t`, and at which locations. -/
def reports (s t : Store) (k : StoreId) (aim : Aim) : List (Path × Change) :=
  ((outward aim.location).map fun p =>
    (p, { op := aim.op, path := aim.location.toText, old := s.nodeAt k aim.location,
          new := t.nodeAt k aim.location })) ++
  (lostInside s t aim.location).map fun p =>
    (p, { op := .delete, path := p.toText, old := s.nodeAt k p, new := none })

/-- The calls that are due, to the listeners of the reported locations except the one behind the
write. -/
def due (s t : Store) (k : StoreId) (aim : Aim) : List Due :=
  (reports s t k aim).flatMap fun report =>
    ((t.registry.listenersAt report.1.toText).filter fun l => aim.origin ≠ some l).map fun l =>
      ⟨report.1.toText, l, report.2⟩

/-- The path is the text of the location of a write, of one above it, or of one inside the array or
object that was there, if none is there any more. -/
def Touches (s t : Store) (location : Path) (path : String) : Prop :=
  (∃ p : Path, p <+: location ∧ path = p.toText) ∨
    ∃ id r slot, s.at? location = some (.cell id) ∧ (∀ x, t.at? location ≠ some (.cell x)) ∧
      s.Descends id r slot ∧ path = (location ++ r).toText

/-- The calls deliver a write from `s` to `t`. -/
structure Delivers (s t : Store) (k : StoreId) (aim : Aim) (calls : List Call) : Prop where
  /-- The waiting listeners whose queries resolve now have joined those registered before. -/
  joined : ∀ path, t.registry.listenersAt path =
    Registry.joined (s.registry.listenersAt path) (arrivals s t path)
  calls_eq : calls = (due s t k aim).map Due.call
  once : ((due s t k aim).map Due.pair).Nodup
  mem_pairs : ∀ path l, (path, l) ∈ (due s t k aim).map Due.pair ↔
    l ∈ t.registry.listenersAt path ∧ aim.origin ≠ some l ∧ Touches s t aim.location path
  /-- What was there, and all that is in it, still reads as it did. -/
  kept : ∀ x d, s.at? aim.location = some (.cell x) → s.Reaches x d →
    t.toJson (.cell d) = s.toJson (.cell d)

/-! ## The reported locations -/

theorem mem_outward {location p : Path} : p ∈ outward location ↔ p <+: location := by
  unfold outward
  simp only [List.mem_map, List.mem_reverse, List.mem_range]
  constructor
  · intro h
    obtain ⟨n, -, rfl⟩ := h
    exact List.take_prefix n location
  · intro h
    exact ⟨p.length, Nat.lt_succ_of_le h.length_le, (List.prefix_iff_eq_take.mp h).symm⟩

theorem nodup_outward (location : Path) :
    ((outward location).map Path.toText).Nodup := by
  unfold outward
  rw [List.map_map]
  refine List.Nodup.map_on (fun i hi j hj h => ?_) (List.nodup_reverse.mpr List.nodup_range)
  have hlength := congrArg List.length (Path.toText_eq_iff.mp h)
  simp only [List.mem_reverse, List.mem_range] at hi hj
  simp only [List.length_map, List.length_take] at hlength
  omega

theorem lostInside_eq {location : Path} {id : CellId} (hold : s.at? location = some (.cell id))
    (hnew : ∀ x, t.at? location ≠ some (.cell x)) :
    lostInside s t location = ((s.tree (.cell id)).inside location).map Prod.fst := by
  unfold lostInside
  rw [hold]
  split
  · next hx => exact absurd hx (hnew _)
  · next h _ => cases h; rfl
  · next h _ => exact (h id rfl).elim

theorem lostInside_eq_nil {location : Path}
    (h : ∀ id, s.at? location = some (.cell id) → ∃ x, t.at? location = some (.cell x)) :
    lostInside s t location = [] := by
  unfold lostInside
  split
  · rfl
  · next hold hnew =>
    obtain ⟨x, hx⟩ := h _ hold
    exact (hnew x hx).elim
  · rfl

theorem Formed.mem_lostInside (hs : s.Formed) {location p : Path} :
    p ∈ lostInside s t location ↔ ∃ id r slot, s.at? location = some (.cell id) ∧
      (∀ x, t.at? location ≠ some (.cell x)) ∧ s.Descends id r slot ∧ p = location ++ r := by
  by_cases h : ∃ id, s.at? location = some (.cell id) ∧ ∀ x, t.at? location ≠ some (.cell x)
  · obtain ⟨id, hold, hnew⟩ := h
    rw [lostInside_eq hold hnew, List.mem_map]
    constructor
    · intro h
      obtain ⟨⟨q, tree⟩, hm, rfl⟩ := h
      obtain ⟨r, slot, rfl, -, hr⟩ := (hs.mem_inside id location).mp hm
      exact ⟨id, r, slot, hold, hnew, hr, rfl⟩
    · intro h
      obtain ⟨id', r, slot, hold', -, hr, rfl⟩ := h
      cases hold.symm.trans hold'
      exact ⟨_, (hs.mem_inside id location).mpr ⟨r, slot, rfl, rfl, hr⟩, rfl⟩
  · have hnil : lostInside s t location = [] := by
      refine lostInside_eq_nil fun id hold => ?_
      by_contra hn
      exact h ⟨id, hold, fun x hx => hn ⟨x, hx⟩⟩
    rw [hnil]
    refine ⟨fun hm => absurd hm List.not_mem_nil, ?_⟩
    intro h
    obtain ⟨id, r, slot, hold, hnew, -, -⟩ := h
    exact absurd ⟨id, hold, hnew⟩ h

theorem Formed.nodup_lostInside (hs : s.Formed) (location : Path) :
    ((lostInside s t location).map Path.toText).Nodup := by
  by_cases h : ∃ id, s.at? location = some (.cell id) ∧ ∀ x, t.at? location ≠ some (.cell x)
  · obtain ⟨id, hold, hnew⟩ := h
    rw [lostInside_eq hold hnew, List.map_map]
    exact hs.nodup_inside id location
  · rw [lostInside_eq_nil fun id hold => ?_]
    · exact List.nodup_nil
    · by_contra hn
      exact h ⟨id, hold, fun x hx => hn ⟨x, hx⟩⟩

/-- The texts of the reported locations are different. -/
theorem Formed.nodup_reports (hs : s.Formed) :
    ((reports s t k aim).map fun report => report.1.toText).Nodup := by
  unfold reports
  rw [List.map_append, List.map_map, List.map_map]
  refine List.Nodup.append (nodup_outward aim.location) (hs.nodup_lostInside aim.location) ?_
  rw [List.disjoint_left]
  intro text h h'
  obtain ⟨p, hp, rfl⟩ := List.mem_map.mp h
  obtain ⟨q, hq, htext⟩ := List.mem_map.mp h'
  obtain ⟨id, r, slot, -, -, hr, rfl⟩ := hs.mem_lostInside.mp hq
  have hlength := congrArg List.length (Path.toText_eq_iff.mp htext)
  have hle := (mem_outward.mp hp).length_le
  have hpos := List.length_pos_iff.mpr hr.ne_nil
  simp only [List.length_map, List.length_append] at hlength
  omega

theorem pairs_due : (due s t k aim).map Due.pair = (reports s t k aim).flatMap fun report =>
    ((t.registry.listenersAt report.1.toText).filter fun l => aim.origin ≠ some l).map fun l =>
      (report.1.toText, l) := by
  unfold due
  rw [List.map_flatMap]
  simp only [List.map_map]
  rfl

theorem Formed.nodup_due (hs : s.Formed) (ht : t.registry.WellFormed) :
    ((due s t k aim).map Due.pair).Nodup := by
  rw [pairs_due, List.nodup_flatMap]
  constructor
  · intro report _
    refine List.Nodup.map (fun l l' h => (Prod.mk.inj h).2) ?_
    exact (ht.nodup_listenersAt report.1.toText).filter _
  · refine (List.pairwise_map.mp hs.nodup_reports).imp fun {report report'} hne => ?_
    refine List.disjoint_left.mpr fun pair h h' => ?_
    obtain ⟨l, -, rfl⟩ := List.mem_map.mp h
    obtain ⟨l', -, heq⟩ := List.mem_map.mp h'
    exact hne (Prod.mk.inj heq).1.symm

theorem Formed.touches_iff (hs : s.Formed) {path : String} :
    Touches s t aim.location path ↔ ∃ report ∈ reports s t k aim, report.1.toText = path := by
  unfold Touches reports
  constructor
  · intro h
    rcases h with ⟨p, hp, rfl⟩ | ⟨id, r, slot, hold, hnew, hr, rfl⟩
    · exact ⟨_, List.mem_append_left _ (List.mem_map_of_mem (mem_outward.mpr hp)), rfl⟩
    · have hm := hs.mem_lostInside.mpr ⟨id, r, slot, hold, hnew, hr, rfl⟩
      exact ⟨_, List.mem_append_right _ (List.mem_map_of_mem hm), rfl⟩
  · intro h
    obtain ⟨report, hm, rfl⟩ := h
    rcases List.mem_append.mp hm with hm | hm
    · obtain ⟨p, hp, rfl⟩ := List.mem_map.mp hm
      exact Or.inl ⟨p, mem_outward.mp hp, rfl⟩
    · obtain ⟨p, hp, rfl⟩ := List.mem_map.mp hm
      obtain ⟨id, r, slot, hold, hnew, hr, rfl⟩ := hs.mem_lostInside.mp hp
      exact Or.inr ⟨id, r, slot, hold, hnew, hr, rfl⟩

theorem Formed.mem_due (hs : s.Formed) {path : String} {l : ListenerId} :
    (path, l) ∈ (due s t k aim).map Due.pair ↔
      l ∈ t.registry.listenersAt path ∧ aim.origin ≠ some l ∧
        Touches s t aim.location path := by
  rw [pairs_due, List.mem_flatMap, hs.touches_iff (k := k)]
  constructor
  · intro h
    obtain ⟨report, hm, h⟩ := h
    obtain ⟨l', hl, heq⟩ := List.mem_map.mp h
    obtain ⟨rfl, rfl⟩ := Prod.mk.inj heq
    obtain ⟨hl, horigin⟩ := List.mem_filter.mp hl
    exact ⟨hl, by simpa using horigin, report, hm, rfl⟩
  · intro h
    obtain ⟨hl, horigin, report, hm, rfl⟩ := h
    exact ⟨report, hm, List.mem_map.mpr ⟨l, List.mem_filter.mpr ⟨hl, by simpa using horigin⟩, rfl⟩⟩

/-! ## The calls -/

theorem heard_eq (hregistry : r.registry = t.registry) (horigin : r.origin = aim.origin)
    (path : String) (change : Change) :
    r.heard path change = (((t.registry.listenersAt path).filter fun l =>
      aim.origin ≠ some l).map fun l => (⟨path, l, change⟩ : Due)).map Due.call := by
  rw [heard, hregistry, horigin, List.map_map]
  rfl

theorem Formed.member_descends (hs : s.Formed) {id : CellId} {r : Path} {slot : Slot}
    (h : s.Descends id r slot) : r.foldlM s.member (.cell id) = some slot := by
  induction h with
  | member h =>
    rw [List.foldlM_cons, member, hs.get?_of_mem h]
    rfl
  | step h _ ih =>
    rw [List.foldlM_cons, member, hs.get?_of_holds h]
    exact ih

theorem Formed.slotOf_descends (hs : s.Formed) {id : CellId} {r : Path} {slot : Slot}
    (h : s.Descends id r slot) : slotOf (s.tree slot) = slot := by
  induction h with
  | member h => exact hs.slotOf_tree h
  | step _ _ ih => exact ih

/-- What is listed inside a cell is found at its location. -/
theorem Formed.nodeAt_inside (hs : s.Formed) {location : Path} {id : CellId}
    (hid : s.at? location = some (.cell id)) :
    ∀ e ∈ (s.tree (.cell id)).inside location, s.nodeAt k e.1 = some (Node.ofTree k e.2) := by
  intro e he
  obtain ⟨path, slot, hpath, htree, hdescends⟩ := (hs.mem_inside id location).mp he
  rw [hpath, htree, nodeAt, at?_append, hid, Option.bind_some, hs.member_descends hdescends,
    Option.map_some, Node.ofTree, hs.slotOf_descends hdescends]

/-- An edit leaves something without a place if no array or object is at its location any more. -/
theorem Accounts.orphans_iff (acc : Accounts s t edit) {id : CellId}
    (hold : edit.old = some (.cell id)) :
    orphans edit = true ↔ ∀ x, t.at? edit.location ≠ some (.cell x) := by
  rw [acc.new, orphans, hold, Option.any_some, Slot.isComposite, Bool.true_and]
  constructor
  · intro h x hx
    rcases Bool.or_eq_true_iff.mp h with hop | hscalar
    · rw [acc.deleted (eq_of_beq hop)] at hx
      cases hx
    · rw [hx] at hscalar
      cases hscalar
  · intro h
    refine Bool.or_eq_true_iff.mpr (Or.inr ?_)
    cases hnew : edit.new with
    | none => rfl
    | some slot =>
      cases slot with
      | cell x => exact absurd hnew (h x)
      | scalar v =>
        have hscalar : v.isComposite = false := acc.wellFormed hnew
        rw [Option.any_some, Slot.isComposite, hscalar]
        rfl

/-- What an edit leaves without a place is what is no longer inside its location. -/
theorem Accounts.lost (acc : Accounts s t edit) (hs : s.Formed) (hcells : r.cells = t.cells) :
    (r.lost edit).map Prod.fst = lostInside s t edit.location ∧
      ∀ e ∈ r.lost edit, s.nodeAt k e.1 = some (Node.ofTree k e.2) := by
  have nothing : (∀ id, edit.old = some (.cell id) → orphans edit = false) →
      lostInside s t edit.location = [] := by
    intro h
    refine lostInside_eq_nil fun id hid => ?_
    have hold : edit.old = some (.cell id) := acc.old.symm.trans hid
    by_contra hn
    have horphans := (acc.orphans_iff hold).mpr fun x hx => hn ⟨x, hx⟩
    rw [h id hold] at horphans
    cases horphans
  unfold Store.lost
  cases hold : edit.old with
  | none =>
    rw [nothing fun id h => by rw [hold] at h; cases h]
    exact ⟨rfl, fun e he => absurd he List.not_mem_nil⟩
  | some old =>
    cases old with
    | scalar v =>
      rw [nothing fun id h => by rw [hold] at h; cases h]
      exact ⟨rfl, fun e he => absurd he List.not_mem_nil⟩
    | cell id =>
      have hid : s.at? edit.location = some (.cell id) := acc.old.trans hold
      dsimp only
      split
      · next horphans =>
        rw [tree_frame hcells, acc.kept hold (.refl s id),
          lostInside_eq hid ((acc.orphans_iff hold).mp horphans)]
        exact ⟨rfl, hs.nodeAt_inside hid⟩
      · next horphans =>
        rw [nothing fun _ _ => Bool.eq_false_iff.mpr horphans]
        exact ⟨rfl, fun e he => absurd he List.not_mem_nil⟩

theorem calls_due (hs : s.Formed) (acc : Accounts s t edit) (hcells : r.cells = t.cells)
    (hregistry : r.registry = t.registry) (aim : Aim) (horigin : r.origin = aim.origin)
    (hop : edit.op = aim.op) (hlocation : edit.location = aim.location) :
    r.heardOf k edit = (due s t k aim).map Due.call := by
  obtain ⟨hlost, hnodes⟩ := acc.lost (k := k) hs hcells
  have hchange : changeOf k edit =
      { op := aim.op, path := aim.location.toText, old := s.nodeAt k aim.location,
        new := t.nodeAt k aim.location } := by
    rw [changeOf, nodeAt, nodeAt, ← hlocation, acc.old, acc.new, hop]
  unfold heardOf due reports
  rw [List.flatMap_append, List.map_append]
  refine congrArg₂ (· ++ ·) ?_ ?_
  · rw [heardOutward, hlocation, hchange, List.flatMap_map, List.map_flatMap]
    simp only [heard_eq hregistry horigin]
  · rw [← hlocation, ← hlost, List.map_map, List.flatMap_map, List.map_flatMap]
    refine List.flatMap_congr fun e he => ?_
    rw [heardLoss, heard_eq hregistry horigin, lossOf, ← hnodes e he]
    rfl

/-- The report of an edit from `s` to `w` delivers it, also from `s'` to `t` if these have the same
documents and registries. -/
theorem Accounts.delivers {s' w : Store} (acc : Accounts s w edit)
    (hs : s.Formed) (hregistry : s.registry.WellFormed) (hw : w.registry = s.registry)
    (hcells : s'.cells = s.cells) (hroot : s'.root = s.root) (hlisten : s'.registry = s.registry)
    (hcells' : t.cells = w.cells) (hroot' : t.root = w.root)
    (hlisten' : t.registry = w.promote.registry) :
    Delivers s' t k ⟨edit.op, edit.location, w.origin⟩ (w.promote.heardOf k edit) := by
  have hs' : s'.Formed := hs.frame hcells
  have acc' : Accounts s' t edit := acc.frame hcells hroot hcells' hroot'
  have ht : t.registry.WellFormed := hlisten' ▸ wellFormed_promote (hw ▸ hregistry)
  refine ⟨fun path => ?_, ?_, hs'.nodup_due ht, fun path l => hs'.mem_due, fun x d hx hd => ?_⟩
  · have joined := w.promote_listenersAt path
    rw [← hlisten', hw, ← hlisten] at joined
    rw [joined, arrivals, arrivals, hw, hlisten, resolve_frame hcells' hroot']
  · exact calls_due (r := w.promote) hs' acc' hcells'.symm hlisten'.symm _ rfl rfl rfl
  · rw [toJson, toJson, acc'.kept (acc'.old.symm.trans hx) hd]

end Store

namespace Operation

/-- Where an operation writes, in which store, and behind which listener. -/
def aim {σ : Type} (u : Universe σ) : Operation → Option (StoreId × Aim)
  | set ref key _ => aimAt ref.store ref.cell key .set (u.store ref.store).origin
  | push ref _ =>
    aimAt ref.store ref.cell (.index ((u.store ref.store).length ref.cell)) .set
      (u.store ref.store).origin
  | change k path _ origin =>
    match (u.store k).locate path with
    | .ok (id, name) => aimAt k id (.name name) .set origin
    | .error _ => none
  | delete ref key => aimAt ref.store ref.cell key .delete (u.store ref.store).origin
  | _ => none
where
  aimAt (k : StoreId) (id : CellId) (key : Key) (op : Op) (origin : Option ListenerId) :
      Option (StoreId × Aim) :=
    ((u.store k).keyAt id key).toOption.map fun location => (k, ⟨op, location, origin⟩)

theorem aimAt_eq_some {σ : Type} {u : Universe σ} {k : StoreId} {id : CellId} {key : Key}
    {location : Path} {op : Op} {origin : Option ListenerId}
    (h : (u.store k).keyAt id key = .ok location) :
    aim.aimAt u k id key op origin = some (k, ⟨op, location, origin⟩) := by
  rw [aim.aimAt, h]
  rfl

/-- Writing at a key, or removing a member of an object that is there. -/
def Writes {σ : Type} (u : Universe σ) : Operation → Prop
  | set .. | push .. | change .. => True
  | delete ref key =>
    (u.store ref.store).isArray ref.cell = false ∧
      ((u.store ref.store).get? ref.cell (.name key.toName)).isSome
  | _ => False

end Operation

variable {A : Store.Policy} {u v : Universe Journal} {k : StoreId} {reach : Nat} {ref : CellRef}
  {key : Key} {value : Value}

/-- What a write from `u` to `v` delivers, by the calls that were made. -/
def Delivered (u v : Universe Journal) (k : StoreId) (aim : Aim) : Prop :=
  ∃ calls, v.memory.calls = u.memory.calls ++ calls ∧
    Store.Delivers (u.store k) (v.store k) k aim calls

namespace Store

theorem Accounts.delivered {edit : Edit} {w : Store} (acc : Accounts (u.store k) w edit)
    (reachable : (u.store k).Reachable A)
    (surroundings : w.surroundings = (u.store k).surroundings) (hk : k < u.stores.size) :
    Delivered u ((u.setStore k w.promote).tell (w.promote.heardOf k edit)) k
      ⟨edit.op, edit.location, (u.store k).origin⟩ := by
  have horigin : w.origin = (u.store k).origin := congrArg (fun x => x.2.1) surroundings
  refine ⟨_, Universe.calls_tell _, ?_⟩
  rw [Universe.store_tell, Universe.store_setStore_self hk, ← horigin]
  exact acc.delivers reachable.sound.toFormed reachable.registry (congrArg Prod.fst surroundings)
    rfl rfl rfl rfl rfl rfl

/-- A store has been edited at a key, and the edit has been reported. -/
def Reported (u v : Universe Journal) (ref : CellRef) (key : Key) (op : Op) : Prop :=
  ∃ edit w, Accounts (u.store ref.store) w edit ∧
    w.surroundings = (u.store ref.store).surroundings ∧ edit.op = op ∧
    (u.store ref.store).keyAt ref.cell key = .ok edit.location ∧ ref.store < u.stores.size ∧
    v = (u.setStore ref.store w.promote).tell (w.promote.heardOf ref.store edit)

theorem Reported.delivered {op : Op} (h : Reported u v ref key op) (hu : u.Steady A) :
    ∃ location, (u.store ref.store).keyAt ref.cell key = .ok location ∧
      Delivered u v ref.store ⟨op, location, (u.store ref.store).origin⟩ := by
  obtain ⟨edit, w, acc, surroundings, hop, hkey, hk, rfl⟩ := h
  exact ⟨edit.location, hkey, hop ▸ acc.delivered (hu ref.store) surroundings hk⟩

theorem reported_write (hu : u.Steady A)
    (h : (write (recording reach) ref key value.node).run u = (.ok (), v)) :
    Reported u v ref key .set := by
  cases hset : (u.store ref.store).set ref.cell key (u.incoming ref.store value.node) with
  | error e =>
    rw [write_run, hset] at h
    cases h
  | ok result =>
    obtain ⟨edit, w⟩ := result
    rw [recorded_write hu hset] at h
    cases h
    obtain ⟨path, key', c, target, -, -, slot, t, -, hedit, -⟩ := Store.set_eq_ok hset
    have sound := (hu ref.store).sound
    have legal := hu.legal ref.store value
    refine ⟨edit, w, sound.accounts_set legal hset, Store.surroundings_set hset, ?_, ?_,
      Universe.lt_size_of_place? target.place, rfl⟩
    · rw [hedit]
    · rw [hedit]
      exact target.keyAt

theorem reported_push (hu : u.Steady A)
    (h : (push (recording reach) ref value.node).run u = (.ok (), v)) :
    Reported u v ref (.index ((u.store ref.store).length ref.cell)) .set := by
  rw [push_run] at h
  split at h
  · exact reported_write hu h
  · cases h

/-- A change is a write with another listener behind it. -/
theorem delivered_change (hu : u.Steady A) {path : String} {origin : Option ListenerId}
    (h : (change (recording reach) k path value.node origin).run u = (.ok (), v)) :
    ∃ id name location, (u.store k).locate path = .ok (id, name) ∧
      (u.store k).keyAt id (.name name) = .ok location ∧
      Delivered u v k ⟨.set, location, origin⟩ := by
  rw [change_run] at h
  cases hlocate : (u.store k).locate path with
  | error e =>
    rw [hlocate] at h
    cases h
  | ok located =>
    obtain ⟨id, name⟩ := located
    rw [hlocate] at h
    dsimp only at h
    rcases hrun : (write (recording reach) ⟨k, id⟩ (.name name) value.node).run
      (u.setStore k { u.store k with origin }) with ⟨outcome, v'⟩
    rw [hrun] at h
    cases h
    have steady : (u.setStore k { u.store k with origin }).Steady A :=
      hu.setStore ((hu k).step (.origin origin))
    obtain ⟨edit, w, acc, surroundings, hop, hkey, hk', rfl⟩ := reported_write steady hrun
    have hk : k < u.stores.size := by simpa [Universe.setStore] using hk'
    rw [Universe.store_setStore_self hk] at acc surroundings hkey
    refine ⟨id, name, edit.location, rfl, hkey, _, Universe.calls_tell _, ?_⟩
    have reachable := (hu k).step (.origin (A := A) origin)
    have horigin : w.origin = origin := congrArg (fun x => x.2.1) surroundings
    rw [Universe.store_setStore_self (by simpa [Universe.setStore] using hk), Universe.store_tell,
      Universe.store_setStore_self hk', ← horigin, ← hop]
    exact acc.delivers reachable.sound.toFormed reachable.registry (congrArg Prod.fst surroundings)
      rfl rfl rfl rfl rfl rfl

/-- A member that is there is removed from an object. -/
theorem reported_remove (hu : u.Steady A)
    (harray : (u.store ref.store).isArray ref.cell = false)
    (hthere : ((u.store ref.store).get? ref.cell (.name key.toName)).isSome)
    (h : (remove (recording reach) ref key).run u = (.ok (), v)) :
    Reported u v ref key .delete := by
  cases hdelete : (u.store ref.store).delete ref.cell key with
  | error e =>
    rw [remove_run, hdelete] at h
    cases h
  | ok removed =>
    cases removed with
    | none =>
      obtain ⟨path, key', c, target, hnone⟩ := delete_eq_none hdelete
      rw [get?_eq target.content, ← target.key_eq_name harray, hnone] at hthere
      cases hthere
    | some removed =>
      obtain ⟨removal, w⟩ := removed
      rw [recorded_remove reach hu hdelete] at h
      cases h
      obtain ⟨path, key', c, old, target, -, hedit, -, -⟩ := Store.delete_eq_ok hdelete
      obtain rfl := target.key_eq_name harray
      have hlocation : removal.edit.location = path ++ [Key.name key.toName] := by rw [hedit]
      have sound := (hu ref.store).sound
      refine ⟨removal.edit, w, sound.accounts_delete hlocation hdelete,
        Store.surroundings_delete hdelete, ?_, ?_, Universe.lt_size_of_place? target.place, ?_⟩
      · rw [hedit]
      · rw [hlocation]
        exact target.keyAt
      · rw [heardRemoval_name hlocation]

end Store

namespace Operation

variable {op : Operation}

/-- A write that succeeds is delivered. -/
theorem delivered (hu : u.Steady A) (hw : op.Writes u)
    (h : (op.perform (recording reach)).run u = (.ok (), v)) :
    ∃ k aim, op.aim u = some (k, aim) ∧ Delivered u v k aim := by
  cases op with
  | set ref key value =>
    obtain ⟨location, hkey, delivered⟩ := (Store.reported_write hu h).delivered hu
    exact ⟨_, _, aimAt_eq_some hkey, delivered⟩
  | push ref value =>
    obtain ⟨location, hkey, delivered⟩ := (Store.reported_push hu h).delivered hu
    exact ⟨_, _, aimAt_eq_some hkey, delivered⟩
  | change k path value origin =>
    obtain ⟨id, name, location, hlocate, hkey, delivered⟩ := Store.delivered_change hu h
    refine ⟨_, _, ?_, delivered⟩
    rw [aim, hlocate]
    exact aimAt_eq_some hkey
  | delete ref key =>
    obtain ⟨location, hkey, delivered⟩ := (Store.reported_remove hu hw.1 hw.2 h).delivered hu
    exact ⟨_, _, aimAt_eq_some hkey, delivered⟩
  | load | tick | subscribe | unsubscribe => exact hw.elim

end Operation

namespace Universe

/-- **A write that succeeds, in whatever state of whatever run, is told exactly once to each
listener at a path that it touches, but not to the one behind it, and to nobody else: outward from
its location, then to those inside what it has left without a place.** -/
theorem Reached.told_exactly {react : ListenerId → Change → Client} {note depth : Nat}
    (h : u.Reached (Client.reacting react note depth)) {w : Universe Journal}
    (hw : u.Passed w.stores) {op : Operation} (writes : op.Writes w)
    (hrun : (op.perform (recording reach)).run w = (.ok (), v)) :
    ∃ k aim, op.aim w = some (k, aim) ∧ Delivered w v k aim := by
  have stepwise : u.Stepwise Store.Policy.free := h.stepwise_free
  have steady : w.Steady Store.Policy.free := stepwise.seen hw
  exact op.delivered steady writes hrun

/-- Listener `7` waits for the root of the document. -/
def afterSubscribe : Universe Journal :=
  (((Operation.subscribe 0 "$" 7).run (recording 0)).run afterLoad).2

/-- Removes the member `a` of the document. -/
def memberRemoval : Operation := .delete ⟨0, 2⟩ (.name "a")

theorem told_of_removal : ∃ v calls,
    (memberRemoval.perform (recording 0)).run afterSubscribe = (.ok (), v) ∧
    v.memory.calls = afterSubscribe.memory.calls ++ calls ∧
    calls = [(7, ⟨.delete, Path.toText [.name "a"], some (.cell ⟨0, 1⟩), none⟩)] := by
  have reached : afterSubscribe.Reached (recording 0) :=
    .next reached_afterLoad (.subscribe 0 "$" 7)
  have writes : memberRemoval.Writes afterSubscribe := ⟨rfl, rfl⟩
  have hrun : (memberRemoval.perform (recording 0)).run afterSubscribe = (.ok (), _) := rfl
  obtain ⟨k, aim, haim, calls, hcalls, delivers⟩ := reached.told_exactly (.inl rfl) writes hrun
  refine ⟨_, calls, hrun, hcalls, ?_⟩
  cases haim
  exact delivers.calls_eq.trans rfl

end Universe

end LiveJson
