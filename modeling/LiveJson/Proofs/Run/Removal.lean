import LiveJson.Proofs.Run.Delivery
import LiveJson.Proofs.Run.Faithful
import LiveJson.Proofs.Store.Shifted

/-! # Who is told of the removal of an array element

The removal is reported outward from the element that has gone. The elements behind it have moved
up, so each path that was listened to and runs through the place of the removed element or one
behind it is looked up again, and where it leads to another node than before its listeners are told
of that. -/

namespace LiveJson

open Store (Policy)

variable {u w : Universe Journal} {k : StoreId} {reach i : Nat} {array : Path}

namespace Store

variable {s t : Store} {id : CellId} {key : Key} {old : Slot}

/-- From `s` to `t` the first node that the path selects turns into another one, or into none, or
from none into one, and that is what the change says. -/
def Resampled (s t : Store) (k : StoreId) (path : String) (change : Change) : Prop :=
  ∃ before after, s.select path none = .ok before ∧ t.select path none = .ok after ∧
    sameOption (after.map slotOf) (before.map slotOf) = false ∧
    change = { op := if after.isSome then .set else .delete, path,
               old := before.map (Node.ofTree k), new := after.map (Node.ofTree k) }

/-- The calls tell of the removal of the element `old` at position `i` of an array, from `s` to `t`,
and then of the shifts, each a path with what is told at it. -/
structure TellsRemoval (s t : Store) (k : StoreId) (array : Path) (i : Nat) (old : Slot)
    (shifts : List (String × Change)) (calls : List Call) : Prop where
  /-- The waiting listeners whose queries resolve now have joined those registered before. -/
  joined : ∀ path, t.registry.listenersAt path =
    Registry.joined (s.registry.listenersAt path) (arrivals s t path)
  origin : t.origin = s.origin
  calls_eq : calls =
    t.heardOutward (array ++ [.index i])
      { op := .delete, path := Path.toText (array ++ [.index i]), old := some (Node.ofSlot k old),
        new := none } ++
    shifts.flatMap fun shift => t.heard shift.1 shift.2
  mem_shifts : ∀ path change, (path, change) ∈ shifts ↔
    path ∈ s.registry.paths ∧ RunsThrough array i path ∧ Resampled s t k path change
  /-- The shifts come in the order of the registry. -/
  ordered : (shifts.map Prod.fst).Sublist s.registry.paths
  once : (shifts.map Prod.fst).Nodup
  /-- The removed element, and all that is in it, still reads as it did. -/
  kept : ∀ x d, old = .cell x → s.Reaches x d → t.toJson (.cell d) = s.toJson (.cell d)

/-! ## What the removal leaves to be told -/

/-- Looking at the listened paths before the removal never fails. -/
theorem listenedFrom_eq (hs : s.registry.WellFormed) (array : Path) (start : Nat) :
    s.listenedFrom array start = .ok ((s.registry.paths.filter fun path =>
      (elementIndex? array.toText path).any (start ≤ ·)).map fun path => (path, s.found path)) := by
  have looked : ∀ paths : List String, (∀ path ∈ paths, path ∈ s.registry.paths) →
      (paths.mapM fun path => (s.lookup path).map fun slot => (path, slot)) =
        .ok (paths.map fun path => (path, s.found path)) := by
    intro paths
    induction paths with
    | nil => exact fun _ => rfl
    | cons path paths ih =>
      intro h
      obtain ⟨hpath, hpaths⟩ := List.forall_mem_cons.mp h
      obtain ⟨p, rfl⟩ := hs.canonical hpath
      rw [List.mapM_cons, s.lookup_eq_found, ih hpaths]
      rfl
  exact looked _ fun path h => (List.mem_filter.mp h).1

/-- An element that is there can be removed. -/
theorem exists_delete (hs : s.registry.WellFormed) (halive : s.alive = true)
    (hplace : s.place? id = some array) {items : List Slot}
    (hcontent : s.content? id = some (.array items)) (hkey : key.asIndex = some i)
    (hold : items[i]? = some old) :
    ∃ removal t, s.delete id key = .ok (some (removal, t)) ∧
      removal.edit = { op := .delete, location := array ++ [.index i], old := some old,
                       new := none } ∧
      s.listenedFrom array i = .ok removal.shifted := by
  have hnormal : s.normalize id key = .ok (.index i) := by
    rw [normalize, isArray_eq hcontent, hkey]
    rfl
  have hget : s.get? id (.index i) = some old := (get?_eq hcontent).trans hold
  unfold Store.delete
  rw [attached_of_place? halive hplace]
  simp only [bind, Except.bind, hnormal, hget]
  rw [listenedFrom_eq hs]
  exact ⟨_, _, rfl, rfl, rfl⟩

theorem Sound.kept_delete (hs : s.Sound) {removal : Removal} {x d : CellId}
    (h : s.delete id key = .ok (some (removal, t))) (hx : removal.edit.old = some (.cell x))
    (hd : s.Reaches x d) : t.tree (.cell d) = s.tree (.cell d) := by
  obtain ⟨path, key', c, old, v, target, hold, hedit, -, removes⟩ := hs.delete_eq_ok h
  rw [hedit] at hx
  refine target.tree_kept hs (removes.sound hs target).toFormed (fun _ hne => ?_) (hold.trans hx) hd
  exact (unplaced_content? removes.unplaced_eq).trans (content?_setContent_of_ne hne)

/-! ## The shifts -/

/-- The listened paths through an element at position `start` or behind it that lead from `s` to `t`
to another node, with what is told at each. -/
def shifts (s t : Store) (k : StoreId) (array : Path) (start : Nat) : List (String × Change) :=
  ((s.registry.paths.filter fun path => (elementIndex? array.toText path).any (start ≤ ·)).filter
    fun path => !sameOption (t.found path) (s.found path)).map fun path =>
      (path, t.shiftOf k (path, s.found path))

theorem paths_shifts (s t : Store) (k : StoreId) (array : Path) (start : Nat) :
    (s.shifts t k array start).map Prod.fst = (s.registry.paths.filter fun path =>
      (elementIndex? array.toText path).any (start ≤ ·)).filter
        fun path => !sameOption (t.found path) (s.found path) := by
  rw [shifts, List.map_map]
  exact List.map_id _

theorem shifts_sublist (s t : Store) (k : StoreId) (array : Path) (start : Nat) :
    ((s.shifts t k array start).map Prod.fst).Sublist s.registry.paths := by
  rw [paths_shifts]
  exact List.filter_sublist.trans List.filter_sublist

theorem resampled_iff {path : String} (h : ∃ p : Path, path = p.toText) {change : Change} :
    Resampled s t k path change ↔
      sameOption (t.found path) (s.found path) = false ∧
        change = t.shiftOf k (path, s.found path) := by
  obtain ⟨p, rfl⟩ := h
  obtain ⟨before, hbefore, hs⟩ := s.exists_select_toText p
  obtain ⟨after, hafter, ht⟩ := t.exists_select_toText p
  have hshift : t.shiftOf k (p.toText, s.found p.toText) =
      { op := if after.isSome then .set else .delete, path := p.toText,
        old := before.map (Node.ofTree k), new := after.map (Node.ofTree k) } := by
    rw [shiftOf, hs, ht, Option.isSome_map, Option.map_map, Option.map_map]
    rfl
  rw [hs, ht] at *
  constructor
  · rintro ⟨before', after', hbefore', hafter', hdiffer, rfl⟩
    cases hbefore.symm.trans hbefore'
    cases hafter.symm.trans hafter'
    exact ⟨hdiffer, hshift.symm⟩
  · rintro ⟨hdiffer, rfl⟩
    exact ⟨before, after, hbefore, hafter, hdiffer, hshift⟩

theorem mem_shifts (hs : s.registry.WellFormed) {path : String} {change : Change} :
    (path, change) ∈ s.shifts t k array i ↔
      path ∈ s.registry.paths ∧ RunsThrough array i path ∧ Resampled s t k path change := by
  have members : (path, change) ∈ s.shifts t k array i ↔ path ∈ s.registry.paths ∧
      (elementIndex? array.toText path).any (i ≤ ·) = true ∧
        sameOption (t.found path) (s.found path) = false ∧
          change = t.shiftOf k (path, s.found path) := by
    simp only [shifts, List.mem_map, List.mem_filter, Bool.not_eq_true', Prod.mk.injEq]
    constructor
    · rintro ⟨path, ⟨⟨hpath, hruns⟩, hdiffer⟩, rfl, rfl⟩
      exact ⟨hpath, hruns, hdiffer, rfl⟩
    · rintro ⟨hpath, hruns, hdiffer, rfl⟩
      exact ⟨path, ⟨⟨hpath, hruns⟩, hdiffer⟩, rfl, rfl⟩
  rw [members]
  refine and_congr_right fun hpath => ?_
  have canonical := hs.canonical hpath
  rw [runsThrough_iff canonical, resampled_iff canonical]

/-- What is told about the listened paths is what the shifts say. -/
theorem flatMap_heardShift (t : Store) (k : StoreId) (found : String → Option Slot) :
    ∀ paths : List String, (paths.map fun path => (path, found path)).flatMap (t.heardShift k) =
      ((paths.filter fun path => !sameOption (t.found path) (found path)).map fun path =>
        (path, t.shiftOf k (path, found path))).flatMap fun shift => t.heard shift.1 shift.2
  | [] => rfl
  | path :: paths => by
    rw [List.map_cons, List.flatMap_cons, flatMap_heardShift t k found paths, List.filter_cons,
      heardShift]
    cases sameOption (t.found path) (found path) <;> rfl

theorem tellsRemoval (sound : s.Sound) (registry : s.registry.WellFormed) {removal : Removal}
    (h : s.delete id key = .ok (some (removal, t)))
    (hedit : removal.edit =
      { op := .delete, location := array ++ [.index i], old := some old, new := none })
    (hshifted : s.listenedFrom array i = .ok removal.shifted) :
    TellsRemoval s t.promote k array i old (s.shifts t.promote k array i)
      (t.promote.heardRemoval k removal) := by
  have surroundings := surroundings_delete h
  have hregistry : t.registry = s.registry := congrArg Prod.fst surroundings
  refine ⟨fun path => ?_, congrArg (fun x => x.2.1) surroundings, ?_,
    fun _ _ => mem_shifts registry, shifts_sublist .., ?_, fun x d hx hd => ?_⟩
  · have joined := t.promote_listenersAt path
    have resolves : t.promote.resolve = t.resolve := resolve_frame rfl rfl
    rw [hregistry] at joined
    rw [joined, arrivals, arrivals, hregistry, resolves]
  · rw [listenedFrom_eq registry] at hshifted
    rw [heardRemoval, hedit, List.getLast?_concat]
    dsimp only
    rw [← Except.ok.inj hshifted, flatMap_heardShift]
    rfl
  · exact registry.distinct.sublist (shifts_sublist ..)
  · have kept := sound.kept_delete h (hedit ▸ congrArg some hx) hd
    have same : t.promote.tree = t.tree := tree_frame rfl
    rw [toJson, toJson, same, kept]

end Store

namespace Universe

/-- **Removing an element that is there, in whatever state of whatever run, succeeds and tells, in
this order: outward from the element that it is gone, with what it was; then, in the order of the
registry, at each path that was listened to and runs through an element at its position or behind
it, if the path leads to another node than before, of both nodes. Between operations nobody is
behind it.** -/
theorem Reached.removal_told_exactly {react : ListenerId → Change → Client} {note depth : Nat}
    (h : u.Reached (Client.reacting react note depth)) (hw : u.Passed w.stores) {ref : CellRef}
    {key : Key} {items : List Slot} {old : Slot} (hplace : w.place? ref = some array)
    (hcontent : (w.store ref.store).content? ref.cell = some (.array items))
    (hkey : key.asIndex = some i) (hold : items[i]? = some old) :
    ∃ v shifts calls, ((Operation.delete ref key).perform (recording reach)).run w = (.ok (), v) ∧
      v.memory.calls = w.memory.calls ++ calls ∧
      Store.TellsRemoval (w.store ref.store) (v.store ref.store) ref.store array i old shifts
        calls ∧
      (w.stores = u.stores → (w.store ref.store).origin = none) := by
  have steady : w.Steady Policy.free := h.stepwise_free.seen hw
  have reachable := steady ref.store
  have halive := reachable.alive
  have hplace' : (w.store ref.store).place? ref.cell = some array := by
    rw [place?, halive] at hplace
    exact hplace
  obtain ⟨removal, t, hdelete, hedit, hshifted⟩ :=
    Store.exists_delete reachable.registry halive hplace' hcontent hkey hold
  refine ⟨_, (w.store ref.store).shifts t.promote ref.store array i, _,
    Store.recorded_remove reach steady hdelete, calls_tell _, ?_, fun hrest => ?_⟩
  · rw [store_tell, store_setStore_self (lt_size_of_place? hplace')]
    exact Store.tellsRemoval reachable.sound reachable.registry hdelete hedit hshifted
  · rw [store_congr hrest]
    exact h.amid.origin ref.store

def flags : Document where
  json := .array [.bool true, .bool false]
  wellFormed := by simp [Json.WellFormed, Json.ItemsWellFormed]

/-- Listener `8` listens to the second of two elements. -/
def afterFlags : Universe Journal :=
  (start 1).after (recording 0) [.load 0 flags, .subscribe 0 "$[1]" 8]

/-- When the first element is removed, there is no second one any more. -/
theorem told_of_first_removal : ∃ v shifts calls,
    ((Operation.delete ⟨0, 0⟩ (.index 0)).perform (recording 0)).run afterFlags = (.ok (), v) ∧
    Store.TellsRemoval (afterFlags.store 0) (v.store 0) 0 [] 0 (.scalar (.bool true)) shifts calls ∧
    calls = [(8, ⟨.delete, "$[1]", some (.plain (.bool false)), none⟩)] := by
  have reached : afterFlags.Reached (recording 0) := .next (.next (.start 1) _) _
  have place : afterFlags.place? ⟨0, 0⟩ = some [] := rfl
  have content : (afterFlags.store 0).content? 0 =
      some (.array [.scalar (.bool true), .scalar (.bool false)]) := rfl
  have first : (Key.index 0).asIndex = some 0 := rfl
  obtain ⟨v, shifts, calls, hrun, hcalls, tells, -⟩ :=
    reached.removal_told_exactly (.inl rfl) place content first rfl
  have told : (((Operation.delete ⟨0, 0⟩ (.index 0)).perform (recording 0)).run
      afterFlags).2.memory.calls =
      [(8, ⟨.delete, "$[1]", some (.plain (.bool false)), none⟩)] := rfl
  have nobody : afterFlags.memory.calls = [] := rfl
  rw [hrun, hcalls, nobody] at told
  exact ⟨v, shifts, calls, hrun, tells, told⟩

end Universe

end LiveJson
