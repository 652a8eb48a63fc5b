import LiveJson.Proofs.Run.Moves
import LiveJson.Proofs.Run.Recorded
import LiveJson.Proofs.Store.Document

/-! # The live document follows the plain one

As long as no cell moves, a live document behaves like a plain value: each operation that succeeds
edits the value at the place of the cell it works on, each that fails leaves it as it is, and every
cell holds the part of the value that is at its place. -/

namespace LiveJson

open Store (Policy)

/-- What becomes of the document of store `k` when the value of a cell is edited. -/
def Universe.edit {σ : Type} (u : Universe σ) (k : StoreId) (ref : CellRef) (f : Json → Json) :
    Option Json :=
  if ref.store = k then (u.place? ref).bind fun p => (u.store k).document.map (Json.edit f p)
  else (u.store k).document

namespace Operation

variable {σ : Type}

/-- The cell that an operation edits, and what becomes of the value of the cell. -/
def editing (u : Universe σ) : Operation → Option (CellRef × (Json → Json))
  | set ref key value => some (ref, Json.put key (u.toJson value.node))
  | push ref value => some (ref, Json.push (u.toJson value.node))
  | delete ref key => some (ref, Json.drop key)
  | change k path value _ =>
    match (u.store k).locate path with
    | .ok (id, name) => some (⟨k, id⟩, Json.put (.name name) (u.toJson value.node))
    | .error _ => none
  | _ => none

/-- What becomes of the document of store `k` when the operation succeeds, as a plain value. -/
def document (u : Universe σ) (k : StoreId) (op : Operation) : Option Json :=
  match op with
  | load j document =>
    if j = k ∧ k < u.stores.size then some document.json else (u.store k).document
  | _ =>
    match op.editing u with
    | some (ref, f) => u.edit k ref f
    | none => (u.store k).document

end Operation

variable {A : Policy} {u v w : Universe Journal} {k : StoreId} {reach : Nat} {s : Store}
  {ref : CellRef} {f : Json → Json}

namespace Universe

/-- While no cell of a store moves, every cell lies at its place only. -/
theorem StepwiseBy.exact (h : u.StepwiseBy (Policy.never.onlyIn k)) {stores : Array Store}
    (hs : u.Passed stores) : ((seen stores).store k).Exact :=
  ((h stores hs k).mono fun _ _ (h : Policy.never.onlyIn k k _ _) => (h rfl).elim).exact

theorem Steady.free (hu : u.Steady A) : u.Steady Policy.free :=
  fun k => (hu k).mono fun _ _ _ => trivial

theorem Steady.place? (hu : u.Steady A) (ref : CellRef) :
    u.place? ref = (u.store ref.store).place? ref.cell := if_pos (hu ref.store).alive

/-! ## Stores with the same document -/

theorem Alike.document (h : Alike u v) (k : StoreId) :
    (v.store k).document = (u.store k).document :=
  Store.document_frame (h.cells k) (h.root k)

theorem Alike.edit (h : Alike u v) : v.edit k ref f = u.edit k ref f := by
  unfold Universe.edit
  rw [h.place?, h.document]

theorem Alike.keyAt (h : Alike u v) (k : StoreId) (id : CellId) (key : Key) :
    (v.store k).keyAt id key = (u.store k).keyAt id key := by
  have hattached : (v.store k).attached id = (u.store k).attached id := by
    simp only [Store.attached, Store.place?, h.cells, h.alive]
  have hnormalize : (v.store k).normalize id key = (u.store k).normalize id key := by
    simp only [Store.normalize, Store.isArray, Store.content?, h.cells]
    rfl
  rw [Store.keyAt, hattached, hnormalize, Store.keyAt]

/-! ## Edited documents -/

/-- The cell has a place, and from `u` to `v` the document of store `k` was edited there if the cell
is part of it. -/
structure Edited (u v : Universe Journal) (k : StoreId) (ref : CellRef) (f : Json → Json) :
    Prop where
  place : ∃ p, u.place? ref = some p
  document : (v.store k).document = u.edit k ref f

theorem Edited.of_setStore (hu : u.Steady A) {p : Path}
    (hp : (u.store ref.store).place? ref.cell = some p)
    (h : ref.store = k → s.document = (u.store ref.store).document.map (Json.edit f p)) :
    Edited u (u.setStore ref.store s.promote) k ref f := by
  refine ⟨⟨p, (hu.place? ref).trans hp⟩, ?_⟩
  unfold edit
  by_cases hk : ref.store = k
  · subst hk
    rw [if_pos rfl, hu.place?, hp, store_setStore_self (lt_size_of_place? hp)]
    exact (Store.document_frame (s := s) (t := s.promote) rfl rfl).trans (h rfl)
  · rw [if_neg hk, store_setStore_of_ne (Ne.symm hk)]

theorem Edited.tell (h : Edited u v k ref f) (calls : List Call) : Edited u (v.tell calls) k ref f :=
  ⟨h.place, h.document⟩

theorem incoming_eq_copy {k : StoreId} {node : Node}
    (h : ∀ x, u.incoming k node ≠ .move x) : u.incoming k node = .copy (u.toJson node) := by
  cases node with
  | plain v => rfl
  | cell ref =>
    have hn : ¬ (ref.store = k ∧ ((u.store k).place? ref.cell).isSome = true) :=
      fun hm => h ref.cell (if_pos hm)
    exact if_neg hn

end Universe

open Universe (Edited)

namespace Store

/-! ## Each operation -/

theorem edited_write (hu : u.Steady A) (hexact : (u.store k).Exact) {key : Key} {value : Value}
    (hcopy : ref.store = k → ∀ location, (u.store ref.store).keyAt ref.cell key = .ok location →
      u.incoming ref.store value.node = .copy (u.toJson value.node))
    (h : (write (recording reach) ref key value.node).run u = (.ok (), v)) :
    Edited u v k ref (Json.put key (u.toJson value.node)) := by
  cases hset : (u.store ref.store).set ref.cell key (u.incoming ref.store value.node) with
  | error e =>
    rw [write_run, hset] at h
    cases h
  | ok result =>
    obtain ⟨edit, s⟩ := result
    rw [recorded_write hu hset] at h
    cases h
    obtain ⟨path, key', c, target, -⟩ := Store.set_eq_ok hset
    refine (Edited.of_setStore hu target.place fun hk => ?_).tell _
    subst hk
    have legal := hu.legal ref.store value
    rw [hcopy rfl _ target.keyAt] at hset legal
    obtain ⟨p, hp, hdoc⟩ := (hu ref.store).sound.document_set hexact legal hset
    cases target.place.symm.trans hp
    exact hdoc

theorem unchanged_write (hu : u.Steady A) {key : Key} {value : Value} {e : StoreError}
    (h : (write (recording reach) ref key value.node).run u = (.error e, v)) : v = u := by
  cases hset : (u.store ref.store).set ref.cell key (u.incoming ref.store value.node) with
  | error e =>
    rw [write_run, hset] at h
    cases h
    rfl
  | ok result =>
    rw [recorded_write hu hset] at h
    cases h

theorem edited_remove (hu : u.Steady A) (hexact : (u.store k).Exact) {key : Key}
    (h : (remove (recording reach) ref key).run u = (.ok (), v)) :
    Edited u v k ref (Json.drop key) := by
  have sound := (hu ref.store).sound
  cases hdelete : (u.store ref.store).delete ref.cell key with
  | error e =>
    rw [remove_run, hdelete] at h
    cases h
  | ok removed =>
    cases removed with
    | none =>
      rw [remove_run, hdelete] at h
      cases h
      obtain ⟨path, _, _, target, -⟩ := Store.delete_eq_none hdelete
      refine ⟨⟨path, (hu.place? ref).trans target.place⟩, ?_⟩
      unfold Universe.edit
      split
      · next hk =>
        subst hk
        obtain ⟨p, hp, hdoc⟩ := sound.document_delete_none hexact hdelete
        rw [hu.place?, hp]
        exact hdoc
      · rfl
    | some removed =>
      obtain ⟨removal, s⟩ := removed
      rw [recorded_remove reach hu hdelete] at h
      cases h
      obtain ⟨path, _, _, _, target, -⟩ := Store.delete_eq_ok hdelete
      refine (Edited.of_setStore hu target.place fun hk => ?_).tell _
      subst hk
      obtain ⟨p, hp, hdoc⟩ := sound.document_delete hexact hdelete
      cases target.place.symm.trans hp
      exact hdoc

theorem unchanged_remove (hu : u.Steady A) {key : Key} {e : StoreError}
    (h : (remove (recording reach) ref key).run u = (.error e, v)) : v = u := by
  cases hdelete : (u.store ref.store).delete ref.cell key with
  | error e =>
    rw [remove_run, hdelete] at h
    cases h
    rfl
  | ok removed =>
    cases removed with
    | none =>
      rw [remove_run, hdelete] at h
      cases h
    | some removed =>
      obtain ⟨removal, s⟩ := removed
      rw [recorded_remove reach hu hdelete] at h
      cases h

theorem edited_push (hu : u.Steady A) (hexact : (u.store k).Exact) {value : Value}
    (hcopy : ref.store = k → ∀ location, (u.store ref.store).keyAt ref.cell
        (.index ((u.store ref.store).length ref.cell)) = .ok location →
      u.incoming ref.store value.node = .copy (u.toJson value.node))
    (h : (push (recording reach) ref value.node).run u = (.ok (), v)) :
    Edited u v k ref (Json.push (u.toJson value.node)) := by
  rw [push_run] at h
  split at h
  · next harray =>
    have written := edited_write hu hexact hcopy h
    refine ⟨written.place, ?_⟩
    rw [written.document]
    unfold Universe.edit
    split
    · next hk =>
      subst hk
      have formed := (hu ref.store).sound.toFormed
      cases hp : u.place? ref with
      | none => rfl
      | some p =>
        obtain ⟨c, hc⟩ := content?_of_place? ((hu.place? ref).symm.trans hp)
        rw [isArray_eq hc] at harray
        cases c with
        | object members => cases harray
        | array items =>
          have hlies := (hu ref.store).sound.liesAt ((hu.place? ref).symm.trans hp)
          obtain ⟨d, hd, hfollow⟩ := Option.bind_eq_some_iff.mp (formed.follow_document hlies)
          rw [formed.toJson_cell hc] at hfollow
          rw [hd, Option.bind_some, Option.bind_some, Option.map_some, Option.map_some,
            length_eq hc]
          refine congrArg some (Json.edit_congr hfollow ?_)
          rw [Content.toJson, ← Json.put_length, List.length_map]
          rfl
    · rfl
  · cases h

theorem unchanged_push (hu : u.Steady A) {value : Value} {e : StoreError}
    (h : (push (recording reach) ref value.node).run u = (.error e, v)) : v = u := by
  rw [push_run] at h
  split at h
  · exact unchanged_write hu h
  · cases h
    rfl

theorem steady_write (hu : u.Steady Policy.free) {key : Key} {value : Value}
    {outcome : Except StoreError Unit}
    (h : (write (recording reach) ref key value.node).run u = (outcome, v)) :
    v.Steady Policy.free := by
  cases hset : (u.store ref.store).set ref.cell key (u.incoming ref.store value.node) with
  | error e =>
    rw [write_run, hset] at h
    cases h
    exact hu
  | ok result =>
    obtain ⟨edit, s⟩ := result
    rw [recorded_write hu hset] at h
    cases h
    have legal := hu.legal ref.store value
    have reachable := (hu ref.store).step (.set legal (fun _ _ => trivial) hset)
    exact hu.setStore (reachable.step .promote)

/-- What a change does is what its write does, but for the listener that the store names behind
it. -/
theorem change_alike (hu : u.Steady A) {path : String} {id : CellId} {name : String}
    {value : Value} {origin : Option ListenerId} {outcome : Except StoreError Unit}
    (hlocate : (u.store k).locate path = .ok (id, name))
    (h : (change (recording reach) k path value.node origin).run u = (outcome, v)) :
    ∃ w w', Universe.Alike u w ∧ w.Steady A ∧
      (write (recording reach) ⟨k, id⟩ (.name name) value.node).run w = (outcome, w') ∧
      Universe.Alike w' v ∧ w'.Steady Policy.free := by
  rw [change_run, hlocate] at h
  dsimp only at h
  have alike : Universe.Alike u (u.setStore k { u.store k with origin }) :=
    Universe.alike_setStore rfl rfl rfl
  have steady : (u.setStore k { u.store k with origin }).Steady A :=
    hu.setStore ((hu k).step (.origin origin))
  rcases hrun : (write (recording reach) ⟨k, id⟩ (.name name) value.node).run
    (u.setStore k { u.store k with origin }) with ⟨outcome', w'⟩
  rw [hrun] at h
  cases h
  exact ⟨_, w', alike, steady, hrun, Universe.alike_setStore rfl rfl rfl,
    steady_write steady.free hrun⟩

end Store

namespace Operation

variable {op : Operation} {key : Key} {value : Value} {location : Path}

/-- What is written is copied if no cell may move. -/
theorem AllowedBy.copies (h : op.AllowedBy (Policy.never.onlyIn ref.store) u.stores)
    (hw : op.written u.stores = some (ref, key, value))
    (hkey : (u.store ref.store).keyAt ref.cell key = .ok location) :
    u.incoming ref.store value.node = .copy (u.toJson value.node) := by
  refine Universe.incoming_eq_copy fun x hx => ?_
  obtain ⟨hnode, hplace⟩ := Universe.incoming_eq_move.mp hx
  obtain ⟨p, hp⟩ := Option.isSome_iff_exists.mp hplace
  cases value with
  | plain document => cases hnode
  | cell r =>
    rw [Node.cell.inj hnode] at hw
    exact h ref key hw hp hkey rfl

/-- Operations that edit no document. -/
theorem alike_tick (reach : Nat) (hu : u.Steady A) (k : StoreId) :
    ∃ v, (Store.tick (recording reach) k).run u = (.ok (), v) ∧ Universe.Alike u v := by
  cases hdue : (u.store k).reloadDue with
  | false => exact ⟨u, Store.tick_run_of_not_due _ hdue, .refl u⟩
  | true =>
    have alike : Universe.Alike u (u.setStore k (u.store k).reported.promote) :=
      Universe.alike_setStore rfl rfl rfl
    exact ⟨_, Store.recorded_tick reach hu hdue, alike.tell _⟩

theorem alike_register {registry : Registry} {registered : Except PathError Unit × Store}
    {outcome : Except StoreError Unit} (hr : registered.2 = { u.store k with registry })
    (h : (do
      Action.setStore k registered.2
      Action.ofPath registered.1 : Action Journal Unit).run u = (outcome, v)) :
    Universe.Alike u v := by
  have alike : Universe.Alike u (u.setStore k registered.2) := by
    rw [hr]
    exact Universe.alike_setStore rfl rfl rfl
  rw [Action.run_bind, Action.run_setStore] at h
  dsimp only at h
  cases hout : registered.1 with
  | error e => rw [hout] at h; cases h; exact alike
  | ok _ => rw [hout] at h; cases h; exact alike

theorem alike_subscribe {query : String} {listener : ListenerId} {outcome : Except StoreError Unit}
    (h : (Store.subscribeIn k query listener).run u = (outcome, v)) : Universe.Alike u v := by
  obtain ⟨registry, hr⟩ := (u.store k).subscribe_frame query listener
  exact alike_register hr h

theorem alike_unsubscribe {query : String} {listener : ListenerId}
    {outcome : Except StoreError Unit}
    (h : (Store.unsubscribeIn k query listener).run u = (outcome, v)) : Universe.Alike u v := by
  obtain ⟨registry, hr⟩ := (u.store k).unsubscribe_frame query listener
  exact alike_register hr h

theorem document_of_editing (h : op.editing u = some (ref, f)) (k : StoreId) :
    op.document u k = u.edit k ref f := by
  unfold document
  cases op with
  | load j document => cases h
  | _ => dsimp only; rw [h]

/-- What a successful operation is to come to for store `k`. -/
structure Follows (op : Operation) (u v : Universe Journal) (k : StoreId) : Prop where
  place : ∀ {ref f}, op.editing u = some (ref, f) → ∃ p, u.place? ref = some p
  document : (v.store k).document = op.document u k

theorem Follows.of_edited (h : op.editing u = some (ref, f)) (edited : Edited u v k ref f) :
    op.Follows u v k where
  place h' := by
    cases h.symm.trans h'
    exact edited.place
  document := edited.document.trans (document_of_editing h k).symm

theorem follows_load (hu : u.Steady A) {document : Document} {j : StoreId}
    (h : (Store.loadIn k document.json).run u = (.ok (), v)) :
    (load k document).Follows u v j := by
  refine ⟨fun h => (by cases h), ?_⟩
  show _ = if k = j ∧ j < u.stores.size then some document.json else (u.store j).document
  rw [Store.loadIn, Action.run_bind, Action.run_getStore] at h
  dsimp only at h
  cases hload : (u.store k).load document.json with
  | error e => rw [hload] at h; cases h
  | ok s =>
    rw [hload, Action.run_setStore] at h
    cases h
    split
    · next hj =>
      obtain ⟨rfl, hk⟩ := hj
      rw [Universe.store_setStore_self hk]
      exact (hu k).sound.document_load document.wellFormed hload
    · next hj =>
      by_cases hk : k = j
      · subst hk
        rw [Universe.store_setStore_of_le (Nat.le_of_not_lt fun hlt => hj ⟨rfl, hlt⟩)]
      · rw [Universe.store_setStore_of_ne (Ne.symm hk)]

theorem follows_change (hu : u.Steady A) {j : StoreId} (hexact : (u.store j).Exact)
    {path : String} {origin : Option ListenerId}
    (hallowed : (change k path value origin).AllowedBy (Policy.never.onlyIn j) u.stores)
    (h : (Store.change (recording reach) k path value.node origin).run u = (.ok (), v)) :
    (change k path value origin).Follows u v j := by
  cases hlocate : (u.store k).locate path with
  | error e =>
    rw [Store.change_run, hlocate] at h
    cases h
  | ok located =>
    obtain ⟨id, name⟩ := located
    obtain ⟨w, w', alike, hw, hrun, alike', hw'⟩ := Store.change_alike hu hlocate h
    have hcopy : k = j → ∀ location, (w.store k).keyAt id (.name name) = .ok location →
        w.incoming k value.node = .copy (w.toJson value.node) := by
      rintro rfl location hkey
      rw [alike.keyAt] at hkey
      rw [alike.incoming, alike.toJson]
      have hwritten : (change k path value origin).written u.stores =
          some (⟨k, id⟩, .name name, value) := by
        unfold Universe.store at hlocate
        simp only [written, hlocate]
      exact hallowed.copies hwritten hkey
    have written := Store.edited_write hw (hexact.frame (alike.cells j)) hcopy hrun
    have hediting : (change k path value origin).editing u =
        some (⟨k, id⟩, Json.put (.name name) (u.toJson value.node)) := by
      simp only [editing, hlocate]
    refine .of_edited hediting ⟨alike.place? _ ▸ written.place, ?_⟩
    rw [alike'.document, written.document, alike.edit, alike.toJson]

/-- An operation that succeeds does what plain editing does. -/
theorem follows (hu : u.Steady A) (hexact : (u.store k).Exact)
    (hallowed : op.AllowedBy (Policy.never.onlyIn k) u.stores)
    (h : (op.perform (recording reach)).run u = (.ok (), v)) : op.Follows u v k := by
  have same (alike : Universe.Alike u v) (hnone : op.editing u = none)
      (hdoc : op.document u k = (u.store k).document) : op.Follows u v k :=
    ⟨fun h => (by rw [hnone] at h; cases h), (alike.document k).trans hdoc.symm⟩
  cases op with
  | load j document => exact follows_load hu h
  | tick j =>
    obtain ⟨w, hrun, alike⟩ := alike_tick reach hu j
    cases hrun.symm.trans h
    exact same alike rfl rfl
  | set ref key value =>
    refine .of_edited rfl (Store.edited_write hu hexact (fun hk _ hkey => ?_) h)
    subst hk
    exact hallowed.copies rfl hkey
  | push ref value =>
    refine .of_edited rfl (Store.edited_push hu hexact (fun hk _ hkey => ?_) h)
    subst hk
    exact hallowed.copies rfl hkey
  | delete ref key => exact .of_edited rfl (Store.edited_remove hu hexact h)
  | change j path value origin => exact follows_change hu hexact hallowed h
  | subscribe j query listener => exact same (alike_subscribe h) rfl rfl
  | unsubscribe j query listener => exact same (alike_unsubscribe h) rfl rfl

theorem unchanged (hu : u.Steady A) {e : StoreError}
    (h : (op.perform (recording reach)).run u = (.error e, v)) (k : StoreId) :
    (v.store k).document = (u.store k).document := by
  cases op with
  | load j document =>
    change (Store.loadIn j document.json).run u = _ at h
    rw [Store.loadIn, Action.run_bind, Action.run_getStore] at h
    dsimp only at h
    cases hload : (u.store j).load document.json with
    | error e => rw [hload] at h; cases h; rfl
    | ok s => rw [hload, Action.run_setStore] at h; cases h
  | tick j =>
    obtain ⟨w, hrun, -⟩ := alike_tick reach hu j
    cases hrun.symm.trans h
  | set ref key value => rw [Store.unchanged_write hu h]
  | push ref value => rw [Store.unchanged_push hu h]
  | delete ref key => rw [Store.unchanged_remove hu h]
  | change j path value origin =>
    cases hlocate : (u.store j).locate path with
    | error e =>
      change (Store.change (recording reach) j path value.node origin).run u = _ at h
      rw [Store.change_run, hlocate] at h
      cases h
      rfl
    | ok located =>
      obtain ⟨id, name⟩ := located
      obtain ⟨w, w', alike, hw, hrun, alike', hw'⟩ := Store.change_alike hu hlocate h
      rw [Store.unchanged_write hw hrun] at alike' hw'
      rw [alike'.document, alike.document]
  | subscribe j query listener => exact (alike_subscribe h).document k
  | unsubscribe j query listener => exact (alike_unsubscribe h).document k

end Operation

namespace Universe

/-- **While no cell of a store moves, each operation does to its document what plain editing does, or
nothing if it fails; and at every moment each cell of the document lies at its place only and holds
the part of the document that is there.** -/
theorem Reached.document_follows {react : ListenerId → Change → Client} {reach depth : Nat}
    (h : u.Reached (Client.reacting react reach depth)) {k : StoreId}
    (hJ : Journal.CompliesBy (Policy.never.onlyIn k) u.memory) :
    (∀ op : Operation, op.AllowedBy (Policy.never.onlyIn k) u.stores → ∀ note v,
      ((op.perform (recording note)).run u = (.ok (), v) →
        (∀ ref f, op.editing u = some (ref, f) → ∃ p, u.place? ref = some p) ∧
        (v.store k).document = op.document u k) ∧
      ∀ e, (op.perform (recording note)).run u = (.error e, v) →
        (v.store k).document = (u.store k).document) ∧
    ∀ stores, u.Passed stores →
      ((seen stores).store k).SinglyPlaced ∧
      ∀ p d, ((seen stores).store k).LiesAt p d →
        ((seen stores).store k).document.bind (Json.follow p) =
          some (((seen stores).store k).toJson (.cell d)) := by
  have hu := h.stepwiseBy hJ
  refine ⟨fun op hallowed note v => ⟨fun hrun => ?_, fun e hrun => ?_⟩, fun stores hs => ?_⟩
  · have follows := op.follows hu.steady (hu.exact (.inl rfl)) hallowed hrun
    exact ⟨fun ref f => follows.place, follows.document⟩
  · exact op.unchanged hu.steady hrun k
  · have sound := (hu stores hs k).sound
    exact ⟨sound.exact_iff_singlyPlaced.mp (hu.exact hs),
      fun p d hd => sound.toFormed.follow_document hd⟩

theorem complies_afterLoad (A : StoreId → Store.Policy) :
    Journal.CompliesBy A afterLoad.memory := by
  intro moment hm op hop
  rcases List.mem_cons.mp hm with rfl | hm
  · cases hop
  · cases List.mem_singleton.mp hm
    cases hop
    intro ref key x p location hw
    cases hw

/-- A new member for the member `a` of the document. -/
def memberWrite : Operation := .set ⟨0, 1⟩ (.name "c") (.plain ⟨.bool true, trivial⟩)

theorem document_after_write : ∃ v,
    (memberWrite.perform (recording 0)).run afterLoad = (.ok (), v) ∧
    (v.store 0).document =
      some (.object [("a", .object [("b", .object []), ("c", .bool true)])]) := by
  have allowed : memberWrite.AllowedBy (Policy.never.onlyIn 0) afterLoad.stores := by
    intro ref key x p location hw
    cases hw
  refine ⟨_, rfl, ?_⟩
  have follows :=
    ((reached_afterLoad.document_follows (complies_afterLoad _)).1 memberWrite allowed 0 _).1 rfl
  exact follows.2.trans rfl

end Universe

end LiveJson
