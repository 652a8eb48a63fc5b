import LiveJson.Proofs.Run.Report

/-! # Who is behind a write makes no difference to it

The listener behind a write is read when listeners are told, and nowhere else: an edit comes to the
same with any listener behind it, and the calls that report it are those that would be made with
nobody behind it, without those to the listener. -/

namespace LiveJson

namespace Store

variable {s t : Store} {id : CellId} (o : Option ListenerId)

@[simp] theorem root_onBehalf : (s.onBehalf o).root = s.root := rfl

@[simp] theorem registry_onBehalf : (s.onBehalf o).registry = s.registry := rfl

@[simp] theorem origin_onBehalf : (s.onBehalf o).origin = o := rfl

@[simp] theorem place?_onBehalf : (s.onBehalf o).place? id = s.place? id := rfl

@[simp] theorem content?_onBehalf : (s.onBehalf o).content? id = s.content? id := rfl

@[simp] theorem entries_onBehalf : (s.onBehalf o).entries id = s.entries id := rfl

/-! ## Edits -/

theorem reaches_onBehalf (target : CellId) :
    ∀ n id, (s.onBehalf o).reaches target n id = s.reaches target n id
  | 0, _ => rfl
  | n + 1, id => by
    simp only [reaches, entries_onBehalf]
    congr 2
    funext entry
    obtain ⟨key, slot⟩ := entry
    cases slot with
    | scalar v => rfl
    | cell child => exact reaches_onBehalf target n child

theorem relocateTo_onBehalf : ∀ (n : Nat) (id : CellId) (place : Path) (s : Store),
    relocateTo n id place (s.onBehalf o) = (relocateTo n id place s).onBehalf o
  | 0, _, _, _ => rfl
  | n + 1, id, place, s => by
    simp only [relocateTo, entries_onBehalf]
    rw [List.foldl_hom (fun t : Store => t.onBehalf o)]
    · rfl
    · intro t entry
      obtain ⟨key, slot⟩ := entry
      cases slot with
      | scalar v => rfl
      | cell child => exact relocateTo_onBehalf n child _ t

theorem relocate_onBehalf (id : CellId) (place : Path) :
    (s.onBehalf o).relocate id place = (s.relocate id place).onBehalf o :=
  relocateTo_onBehalf o _ id place s

theorem forgetTo_onBehalf : ∀ (n : Nat) (id : CellId) (location : Path) (s : Store),
    forgetTo n id location (s.onBehalf o) = (forgetTo n id location s).onBehalf o
  | 0, _, _, _ => rfl
  | n + 1, id, location, s => by
    cases h : (s.place? id).any (location.isPrefixOf ·) with
    | true =>
      have hplace : (s.onBehalf o).setPlace id none = (s.setPlace id none).onBehalf o := rfl
      simp only [forgetTo, entries_onBehalf, place?_onBehalf, h, if_true, hplace]
      refine List.foldl_hom (fun t : Store => t.onBehalf o) fun t entry => ?_
      obtain ⟨key, slot⟩ := entry
      cases slot with
      | scalar v => rfl
      | cell child => exact forgetTo_onBehalf n child location t
    | false => simp only [forgetTo, place?_onBehalf, h, Bool.false_eq_true, if_false]

theorem forgetSlot_onBehalf (slot : Slot) (location : Path) :
    (s.onBehalf o).forgetSlot slot location = (s.forgetSlot slot location).onBehalf o := by
  cases slot with
  | scalar v => rfl
  | cell id => exact forgetTo_onBehalf o _ id location s

mutual

theorem wrap_onBehalf (place : Path) : ∀ (v : Json) (s : Store),
    wrap place v (s.onBehalf o) = ((wrap place v s).1, (wrap place v s).2.onBehalf o)
  | .array items, s => by
    simp only [wrap, wrapItems_onBehalf place items 0 s]
    rfl
  | .object members, s => by
    simp only [wrap, wrapMembers_onBehalf place members s]
    rfl
  | .null, _ | .bool _, _ | .number _, _ | .string _, _ => rfl

theorem wrapItems_onBehalf (place : Path) : ∀ (vs : List Json) (start : Nat) (s : Store),
    wrapItems place start vs (s.onBehalf o) =
      ((wrapItems place start vs s).1, (wrapItems place start vs s).2.onBehalf o)
  | [], _, _ => rfl
  | v :: vs, start, s => by
    simp only [wrapItems, wrap_onBehalf _ v s, wrapItems_onBehalf place vs (start + 1)]

theorem wrapMembers_onBehalf (place : Path) : ∀ (ms : List (String × Json)) (s : Store),
    wrapMembers place ms (s.onBehalf o) =
      ((wrapMembers place ms s).1, (wrapMembers place ms s).2.onBehalf o)
  | [], _ => rfl
  | (name, v) :: ms, s => by
    simp only [wrapMembers, wrap_onBehalf _ v s, wrapMembers_onBehalf place ms]

end

theorem place_onBehalf (location : Path) (incoming : Incoming) :
    (s.onBehalf o).place location incoming =
      ((s.place location incoming).1, (s.place location incoming).2.onBehalf o) := by
  cases incoming with
  | move child => rw [place, relocate_onBehalf]; rfl
  | copy v => exact wrap_onBehalf o location v s

theorem isCyclic_onBehalf (incoming : Incoming) :
    (s.onBehalf o).isCyclic id incoming = s.isCyclic id incoming := by
  cases incoming with
  | move child => exact reaches_onBehalf o id _ child
  | copy v => rfl

theorem set_onBehalf (id : CellId) (key : Key) (incoming : Incoming) :
    (s.onBehalf o).set id key incoming =
      (s.set id key incoming).map fun r => (r.1, r.2.onBehalf o) := by
  have hattached : (s.onBehalf o).attached id = s.attached id := rfl
  have hnormalize : (s.onBehalf o).normalize id key = s.normalize id key := rfl
  unfold Store.set
  rw [hattached, hnormalize]
  cases s.attached id with
  | error e => rfl
  | ok path =>
    cases s.normalize id key with
    | error e => rfl
    | ok key =>
      have hbeyond : (s.onBehalf o).isBeyond id key = s.isBeyond id key := rfl
      have hget : (s.onBehalf o).get? id key = s.get? id key := rfl
      simp only [bind, Except.bind, hbeyond, hget, isCyclic_onBehalf]
      split
      · rfl
      · split
        · rfl
        · cases s.get? id key with
          | none =>
            simp only [place_onBehalf, content?_onBehalf]
            split <;> rfl
          | some slot =>
            simp only [forgetSlot_onBehalf, place_onBehalf, content?_onBehalf]
            split <;> rfl

theorem reseat_onBehalf (id : CellId) (path : Path) (start : Nat) :
    (s.onBehalf o).reseat id path start = (s.reseat id path start).onBehalf o := by
  refine List.foldl_hom (fun t : Store => t.onBehalf o) fun t entry => ?_
  obtain ⟨key, slot⟩ := entry
  cases slot with
  | scalar v => rfl
  | cell child => exact relocate_onBehalf o child _

theorem eraseAt_onBehalf (id : CellId) (key : Key) (location : Path) :
    (s.onBehalf o).eraseAt id key location = (s.eraseAt id key location).onBehalf o := by
  have hget : (s.onBehalf o).get? id key = s.get? id key := rfl
  unfold eraseAt
  dsimp only
  rw [hget, content?_onBehalf]
  cases s.get? id key with
  | none => cases s.content? id <;> rfl
  | some slot =>
    cases s.content? id with
    | none => exact forgetSlot_onBehalf o slot location
    | some c => exact forgetSlot_onBehalf (s := s.setContent id (c.erase key)) o slot location

theorem lookup_onBehalf (path : String) : (s.onBehalf o).lookup path = s.lookup path := by
  have htree : (s.onBehalf o).tree = s.tree := tree_frame rfl
  have hroot : (s.onBehalf o).rootTree? = s.rootTree? := by
    rw [rootTree?, htree]
    rfl
  unfold lookup select selectAll
  rw [hroot]

theorem listenedFrom_onBehalf (array : Path) (start : Nat) :
    (s.onBehalf o).listenedFrom array start = s.listenedFrom array start := by
  unfold listenedFrom
  simp only [lookup_onBehalf, registry_onBehalf]

theorem delete_onBehalf (id : CellId) (key : Key) :
    (s.onBehalf o).delete id key =
      (s.delete id key).map (Option.map fun r => (r.1, r.2.onBehalf o)) := by
  have hattached : (s.onBehalf o).attached id = s.attached id := rfl
  have hnormalize : (s.onBehalf o).normalize id key = s.normalize id key := rfl
  unfold delete
  rw [hattached, hnormalize]
  cases s.attached id with
  | error e => rfl
  | ok path =>
    cases s.normalize id key with
    | error e => rfl
    | ok key =>
      have hget : (s.onBehalf o).get? id key = s.get? id key := rfl
      simp only [bind, Except.bind, hget, listenedFrom_onBehalf, eraseAt_onBehalf, reseat_onBehalf]
      cases s.get? id key with
      | none => rfl
      | some old =>
        cases key with
        | name n => rfl
        | index i =>
          dsimp only
          cases s.listenedFrom path i <;> rfl

theorem load_onBehalf (document : Json) :
    (s.onBehalf o).load document = (s.load document).map fun t => t.onBehalf o := by
  unfold load
  rw [wrap_onBehalf, root_onBehalf]
  rcases wrap [] document s with ⟨_ | root, wrapped⟩
  · rfl
  · dsimp only
    cases s.root with
    | none => rfl
    | some previous =>
      exact congrArg Except.ok (forgetTo_onBehalf o _ previous [] { wrapped with
        root := some root, reloadDue := true })

theorem locate_onBehalf (path : String) : (s.onBehalf o).locate path = s.locate path := by
  have htree : (s.onBehalf o).tree = s.tree := tree_frame rfl
  have hroot : (s.onBehalf o).rootTree? = s.rootTree? := by
    rw [rootTree?, htree]
    rfl
  unfold locate
  rw [hroot, htree]

/-! ## Subscriptions -/

theorem resolve_onBehalf : (s.onBehalf o).resolve = s.resolve := resolve_frame rfl rfl

theorem promote_onBehalf : (s.onBehalf o).promote = s.promote.onBehalf o := by
  unfold promote
  rw [resolve_onBehalf]
  rfl

theorem subscribe_onBehalf (query : String) (listener : ListenerId) :
    (s.onBehalf o).subscribe query listener =
      ((s.subscribe query listener).1, (s.subscribe query listener).2.onBehalf o) := by
  unfold subscribe
  rw [resolve_onBehalf]
  rcases s.resolve query with e | (_ | path) <;> rfl

theorem unsubscribe_onBehalf (query : String) (listener : ListenerId) :
    (s.onBehalf o).unsubscribe query listener =
      ((s.unsubscribe query listener).1, (s.unsubscribe query listener).2.onBehalf o) := by
  unfold unsubscribe
  rw [resolve_onBehalf]
  rcases s.resolve query with e | (_ | path) <;> rfl

/-! ## Calls -/

/-- The calls without those to a listener. -/
def without (b : Option ListenerId) (calls : List Call) : List Call :=
  calls.filter fun call => b ≠ some call.1

theorem without_append (b : Option ListenerId) (calls calls' : List Call) :
    without b (calls ++ calls') = without b calls ++ without b calls' :=
  List.filter_append ..

theorem without_flatMap {α : Type} (b : Option ListenerId) (l : List α) (f : α → List Call) :
    without b (l.flatMap f) = l.flatMap fun a => without b (f a) := by
  rw [without, List.filter_flatMap]
  rfl

/-- The store with nobody behind what is written. -/
abbrev anonymous (s : Store) : Store := s.onBehalf none

theorem heard_anonymous (path : String) (change : Change) :
    s.heard path change = without s.origin (s.anonymous.heard path change) := by
  simp only [heard, without, List.filter_map, origin_onBehalf, registry_onBehalf,
    List.filter_filter]
  congr 1
  refine List.filter_congr fun id _ => ?_
  simp

theorem heardOutward_anonymous (location : Path) (change : Change) :
    s.heardOutward location change = without s.origin (s.anonymous.heardOutward location change) := by
  unfold heardOutward
  rw [without_flatMap]
  exact List.flatMap_congr fun p _ => s.heard_anonymous p.toText change

theorem heardOf_anonymous (k : StoreId) (edit : Edit) :
    s.heardOf k edit = without s.origin (s.anonymous.heardOf k edit) := by
  have hlost : s.anonymous.lost edit = s.lost edit := by
    unfold lost
    rw [tree_frame (s := s) (t := s.anonymous) rfl]
  unfold heardOf
  rw [without_append, without_flatMap, hlost, ← heardOutward_anonymous]
  exact congrArg _ (List.flatMap_congr fun e _ => heard_anonymous e.1.toText _)

theorem found_onBehalf (path : String) : (s.onBehalf o).found path = s.found path := by
  rw [found, lookup_onBehalf]
  rfl

theorem heardRemoval_anonymous (k : StoreId) (removal : Removal) :
    s.heardRemoval k removal = without s.origin (s.anonymous.heardRemoval k removal) := by
  have hshift : ∀ before, s.heardShift k before =
      without s.origin (s.anonymous.heardShift k before) := by
    intro before
    unfold heardShift shiftOf
    rw [found_onBehalf]
    split
    · rfl
    · exact heard_anonymous _ _
  unfold heardRemoval
  split
  · rw [without_append, without_flatMap, ← heardOutward_anonymous]
    exact congrArg _ (List.flatMap_congr fun before _ => hshift before)
  · exact heardOf_anonymous k removal.edit

theorem heardLoad_anonymous (k : StoreId) :
    s.heardLoad k = without s.origin (s.anonymous.heardLoad k) := by
  unfold heardLoad loadOf
  rw [without_flatMap]
  refine List.flatMap_congr fun path _ => ?_
  rw [found_onBehalf]
  exact heard_anonymous path _

end Store

/-! ## Operations -/

open Store (Policy without)

variable {A : Policy} {u : Universe Journal} {k : StoreId} {reach : Nat}

/-- The universe with nobody behind what is written in store `k`. -/
def Universe.anonymous (u : Universe Journal) (k : StoreId) : Universe Journal :=
  u.setStore k (u.store k).anonymous

namespace Universe

theorem store_anonymous (u : Universe Journal) (k : StoreId) :
    (u.anonymous k).store k = (u.store k).anonymous := by
  simp only [anonymous, setStore, store, Array.getElem?_modify, if_pos]
  cases u.stores[k]? <;> rfl

theorem Steady.anonymous (hu : u.Steady A) (k : StoreId) : (u.anonymous k).Steady A :=
  hu.setStore ((hu k).step (.origin none))

theorem incoming_anonymous (u : Universe Journal) (k j : StoreId) (node : Node) :
    (u.anonymous k).incoming j node = u.incoming j node :=
  (alike_setStore (s := (u.store k).anonymous) rfl rfl rfl).incoming j node

end Universe

/-- The first action, from `u`, makes the calls that the second one makes from `v`, without those to
`b`, and both end alike. -/
def Action.Silences (b : Option ListenerId) (act act' : Action Journal Unit)
    (u v : Universe Journal) : Prop :=
  ∃ outcome u' v' calls, act.run u = (outcome, u') ∧ act'.run v = (outcome, v') ∧
    u'.memory.calls = u.memory.calls ++ without b calls ∧ v'.memory.calls = v.memory.calls ++ calls

theorem Action.silences_quiet {act act' : Action Journal Unit} {u u' v v' : Universe Journal}
    {outcome : Except StoreError Unit} (b : Option ListenerId) (h : act.run u = (outcome, u'))
    (h' : act'.run v = (outcome, v')) (hu : u'.memory = u.memory) (hv : v'.memory = v.memory) :
    Silences b act act' u v :=
  ⟨outcome, u', v', [], h, h', by rw [hu]; simp [without], by rw [hv, List.append_nil]⟩

theorem Action.silences_tell {act act' : Action Journal Unit} {u v u' v' : Universe Journal}
    {outcome : Except StoreError Unit} {b : Option ListenerId} {calls : List Call}
    (h : act.run u = (outcome, u'.tell (without b calls))) (h' : act'.run v = (outcome, v'.tell calls))
    (hu : u'.memory = u.memory) (hv : v'.memory = v.memory) : Silences b act act' u v :=
  ⟨outcome, _, _, calls, h, h', by rw [Universe.calls_tell, hu], by rw [Universe.calls_tell, hv]⟩

namespace Store

open LiveJson.Action (Silences)

theorem silences_write (hu : u.Steady A) (reach : Nat) (ref : CellRef) (key : Key) (value : Value) :
    Silences (u.store ref.store).origin (write (recording reach) ref key value.node)
      (write (recording reach) ref key value.node) u (u.anonymous ref.store) := by
  have hset' : ((u.anonymous ref.store).store ref.store).set ref.cell key
      ((u.anonymous ref.store).incoming ref.store value.node) =
        ((u.store ref.store).set ref.cell key (u.incoming ref.store value.node)).map
          fun r => (r.1, r.2.anonymous) := by
    rw [u.store_anonymous, u.incoming_anonymous]
    exact set_onBehalf none ref.cell key _
  cases hset : (u.store ref.store).set ref.cell key (u.incoming ref.store value.node) with
  | error e =>
    have hrun := write_run (recording reach) ref key value.node u
    have hrun' := write_run (recording reach) ref key value.node (u.anonymous ref.store)
    rw [hset'] at hrun'
    rw [hset] at hrun hrun'
    exact Action.silences_quiet _ hrun hrun' rfl rfl
  | ok result =>
    obtain ⟨edit, s⟩ := result
    rw [hset] at hset'
    have rest := Store.rest_set hset
    have horigin : s.promote.origin = (u.store ref.store).origin := by
      rw [rest]
      rfl
    have hrun : (write (recording reach) ref key value.node).run u = _ := recorded_write hu hset
    have hrun' : (write (recording reach) ref key value.node).run (u.anonymous ref.store) = _ :=
      recorded_write (hu.anonymous ref.store) hset'
    rw [heardOf_anonymous, horigin] at hrun
    rw [promote_onBehalf] at hrun'
    exact Action.silences_tell hrun hrun' rfl rfl

theorem silences_push (hu : u.Steady A) (reach : Nat) (ref : CellRef) (value : Value) :
    Silences (u.store ref.store).origin (push (recording reach) ref value.node)
      (push (recording reach) ref value.node) u (u.anonymous ref.store) := by
  have hrun := push_run (recording reach) ref value.node u
  have hrun' := push_run (recording reach) ref value.node (u.anonymous ref.store)
  have harray : ((u.anonymous ref.store).store ref.store).isArray ref.cell =
      (u.store ref.store).isArray ref.cell := by
    rw [u.store_anonymous]
    rfl
  have hlength : ((u.anonymous ref.store).store ref.store).length ref.cell =
      (u.store ref.store).length ref.cell := by
    rw [u.store_anonymous]
    rfl
  rw [harray, hlength] at hrun'
  split at hrun
  · next h =>
    rw [if_pos h] at hrun'
    unfold Action.Silences
    rw [hrun, hrun']
    exact silences_write hu reach ref _ value
  · next h =>
    rw [if_neg h] at hrun'
    exact Action.silences_quiet _ hrun hrun' rfl rfl

theorem silences_remove (hu : u.Steady A) (reach : Nat) (ref : CellRef) (key : Key) :
    Silences (u.store ref.store).origin (remove (recording reach) ref key)
      (remove (recording reach) ref key) u (u.anonymous ref.store) := by
  have hdelete' : ((u.anonymous ref.store).store ref.store).delete ref.cell key =
      ((u.store ref.store).delete ref.cell key).map (Option.map fun r => (r.1, r.2.anonymous)) := by
    rw [u.store_anonymous]
    exact delete_onBehalf none ref.cell key
  have hrun := remove_run (recording reach) ref key u
  have hrun' := remove_run (recording reach) ref key (u.anonymous ref.store)
  cases hdelete : (u.store ref.store).delete ref.cell key with
  | error e =>
    rw [hdelete] at hdelete' hrun
    rw [hdelete'] at hrun'
    exact Action.silences_quiet _ hrun hrun' rfl rfl
  | ok removed =>
    cases removed with
    | none =>
      rw [hdelete] at hdelete' hrun
      rw [hdelete'] at hrun'
      exact Action.silences_quiet _ hrun hrun' rfl rfl
    | some removed =>
      obtain ⟨removal, s⟩ := removed
      rw [hdelete] at hdelete'
      have rest := Store.rest_delete hdelete
      have horigin : s.promote.origin = (u.store ref.store).origin := by
        rw [rest]
        rfl
      have hrun := recorded_remove reach hu hdelete
      have hrun' := recorded_remove reach (hu.anonymous ref.store) hdelete'
      rw [heardRemoval_anonymous, horigin] at hrun
      rw [promote_onBehalf] at hrun'
      exact Action.silences_tell hrun hrun' rfl rfl

theorem silences_tick (hu : u.Steady A) (reach : Nat) (k : StoreId) :
    Silences (u.store k).origin (tick (recording reach) k) (tick (recording reach) k) u
      (u.anonymous k) := by
  have hdue' : ((u.anonymous k).store k).reloadDue = (u.store k).reloadDue := by
    rw [u.store_anonymous]
    rfl
  cases hdue : (u.store k).reloadDue with
  | false =>
    have hrun := tick_run_of_not_due (recording reach) hdue
    have hrun' := tick_run_of_not_due (recording reach) (hdue'.trans hdue)
    exact Action.silences_quiet _ hrun hrun' rfl rfl
  | true =>
    have hrun := recorded_tick reach hu hdue
    have hrun' := recorded_tick reach (hu.anonymous k) (hdue'.trans hdue)
    have hstore : ((u.anonymous k).store k).reported.promote =
        (u.store k).reported.promote.anonymous := by
      rw [u.store_anonymous]
      exact promote_onBehalf (s := (u.store k).reported) none
    rw [heardLoad_anonymous] at hrun
    rw [hstore] at hrun'
    exact Action.silences_tell hrun hrun' rfl rfl

theorem silences_loadIn (k : StoreId) (document : Json) (b : Option ListenerId) :
    Silences b (loadIn k document) (loadIn k document) u (u.anonymous k) := by
  have hload' := load_onBehalf (s := u.store k) none document
  rw [← anonymous, ← u.store_anonymous] at hload'
  have hrun := loadIn_run k document u
  have hrun' := loadIn_run k document (u.anonymous k)
  rw [hload'] at hrun'
  cases hload : (u.store k).load document with
  | error e =>
    rw [hload] at hrun hrun'
    exact Action.silences_quiet b hrun hrun' rfl rfl
  | ok s =>
    rw [hload] at hrun hrun'
    exact Action.silences_quiet b hrun hrun' rfl rfl

/-- A change is not told to the listener that it names, whoever else is behind a write. -/
theorem silences_change (hu : u.Steady A) (reach : Nat) (k : StoreId) (path : String)
    (value : Value) (origin : Option ListenerId) :
    Silences origin (change (recording reach) k path value.node origin)
      (change (recording reach) k path value.node none) u (u.anonymous k) := by
  have hlocate' : ((u.anonymous k).store k).locate path = (u.store k).locate path := by
    rw [u.store_anonymous]
    exact locate_onBehalf none path
  cases hlocate : (u.store k).locate path with
  | error e =>
    have hrun : (change (recording reach) k path value.node origin).run u = (.error e, u) := by
      rw [change_run, hlocate]
    have hrun' : (change (recording reach) k path value.node none).run (u.anonymous k) =
        (.error e, u.anonymous k) := by
      rw [change_run, hlocate', hlocate]
    exact Action.silences_quiet _ hrun hrun' rfl rfl
  | ok located =>
    let w := u.setStore k ((u.store k).onBehalf origin)
    have hself := Universe.store_setStore_self (lt_size_of_locate hlocate)
    have horigin : (w.store k).origin = origin := by
      rw [hself]
      rfl
    have hw : w.anonymous k =
        (u.anonymous k).setStore k (((u.anonymous k).store k).onBehalf none) := by
      simp only [w, Universe.anonymous, hself, Universe.setStore_setStore]
      rfl
    have steady : w.Steady A := hu.setStore ((hu k).step (.origin origin))
    have silences := silences_write steady reach ⟨k, located.1⟩ (.name located.2) value
    rw [horigin, hw] at silences
    obtain ⟨outcome, u', v', calls, hwrite, hwrite', htold, htold'⟩ := silences
    have hrun := change_run_of_locate hlocate (recording reach) value.node origin
    have hrun' := change_run_of_locate (hlocate'.trans hlocate) (recording reach) value.node none
    rw [hwrite] at hrun
    rw [hwrite'] at hrun'
    exact ⟨outcome, _, _, calls, hrun, hrun', htold, htold'⟩

theorem silences_subscribeIn (k : StoreId) (query : String) (listener : ListenerId)
    (b : Option ListenerId) : Silences b (subscribeIn k query listener)
      (subscribeIn k query listener) u (u.anonymous k) := by
  have hrun := subscribeIn_run k query listener u
  have hrun' := subscribeIn_run k query listener (u.anonymous k)
  rw [u.store_anonymous, subscribe_onBehalf] at hrun'
  exact Action.silences_quiet b hrun hrun' rfl rfl

theorem silences_unsubscribeIn (k : StoreId) (query : String) (listener : ListenerId)
    (b : Option ListenerId) : Silences b (unsubscribeIn k query listener)
      (unsubscribeIn k query listener) u (u.anonymous k) := by
  have hrun := unsubscribeIn_run k query listener u
  have hrun' := unsubscribeIn_run k query listener (u.anonymous k)
  rw [u.store_anonymous, unsubscribe_onBehalf] at hrun'
  exact Action.silences_quiet b hrun hrun' rfl rfl

end Store

namespace Operation

/-- The operation without the listener that it names, if it names one. -/
def anonymous : Operation → Operation
  | change k path value _ => change k path value none
  | op => op

/-- With listeners that only record, an operation makes the calls that it would make with nobody
behind any write, without those to the listener behind its own. -/
theorem silences_perform (hu : u.Steady A) (reach : Nat) (op : Operation) :
    Action.Silences (op.behind u) (op.perform (recording reach))
      (op.anonymous.perform (recording reach)) u (u.anonymous op.store) := by
  cases op with
  | load k document => exact Store.silences_loadIn k document.json _
  | tick k => exact Store.silences_tick hu reach k
  | set ref key value => exact Store.silences_write hu reach ref key value
  | push ref value => exact Store.silences_push hu reach ref value
  | delete ref key => exact Store.silences_remove hu reach ref key
  | change k path value origin => exact Store.silences_change hu reach k path value origin
  | subscribe k query listener => exact Store.silences_subscribeIn k query listener _
  | unsubscribe k query listener => exact Store.silences_unsubscribeIn k query listener _

end Operation

end LiveJson
