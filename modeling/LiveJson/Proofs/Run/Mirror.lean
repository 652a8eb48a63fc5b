import LiveJson.Json.Writer
import LiveJson.Proofs.Run.Effect
import LiveJson.Proofs.Run.Documents
import LiveJson.Proofs.Run.Delivery
import LiveJson.Proofs.Store.Named

/-! # A listener at the root can keep a copy of the document

Whoever is registered at the root of a document, and nowhere else, is told of each write once. What
is told names the location and the value, so the same edit can be made in a copy; after a load the
copy is behind until the tick that hands over the document as a whole. -/

namespace LiveJson

open Store (Policy)

/-! ## The copy -/

/-- What a copy of the document becomes when a change is made in it too. The new value is read in
the stores of the moment, and a change that does not fit the copy is left out. -/
def Change.apply (stores : Array Store) (change : Change) (copy : Json) : Json :=
  match change.op, change.new.map (Universe.seen stores).toJson with
  | .load, some v => v
  | .set, some v => copy.editAt (fun key => Json.put key v) (Path.names change.path)
  | .delete, _ => copy.editAt Json.drop (Path.names change.path)
  | _, none => copy

/-- What becomes of a copy when a listener makes all changes in it that it is told of. -/
def Journal.mirror (listener : ListenerId) (copy : Json) (journal : Journal) : Json :=
  journal.foldr (fun moment copy =>
    match moment.event with
    | .told l change => if l = listener then change.apply moment.stores copy else copy
    | _ => copy) copy

/-- What a listener is told by the calls. -/
def heardBy (listener : ListenerId) (calls : List Call) : List Change :=
  calls.filterMap fun call => if call.1 = listener then some call.2 else none

/-- The copy when the changes have been made one after the other. -/
def Change.applyAll (stores : Array Store) (changes : List Change) (copy : Json) : Json :=
  changes.foldl (fun copy change => change.apply stores copy) copy

variable {A : Policy} {u v w : Universe Journal} {k : StoreId} {reach : Nat} {s t : Store}
  {listener : ListenerId} {copy : Json} {calls : List Call}

theorem Journal.mirror_append (news old : Journal) :
    mirror listener copy (news ++ old) = mirror listener (mirror listener copy old) news :=
  List.foldr_append

theorem Universe.mirror_tell (u : Universe Journal) (listener : ListenerId) (calls : List Call) :
    ∃ news, (u.tell calls).memory = news ++ u.memory ∧ ∀ copy,
      Journal.mirror listener copy news = Change.applyAll u.stores (heardBy listener calls) copy := by
  refine ⟨_, rfl, fun copy => ?_⟩
  unfold Journal.mirror Change.applyAll heardBy
  rw [List.foldr_reverse, List.foldl_map]
  induction calls generalizing copy with
  | nil => rfl
  | cons call calls ih =>
    rw [List.foldl_cons, ih, List.filterMap_cons]
    dsimp only
    split <;> rfl

/-! ## What the root hears -/

theorem heardBy_append (calls calls' : List Call) :
    heardBy listener (calls ++ calls') = heardBy listener calls ++ heardBy listener calls' :=
  List.filterMap_append

theorem heardBy_flatMap {α : Type} (l : List α) (f : α → List Call) :
    heardBy listener (l.flatMap f) = l.flatMap fun a => heardBy listener (f a) :=
  List.filterMap_flatMap

theorem heardBy_eq_nil (h : ∀ call ∈ calls, call.1 ≠ listener) : heardBy listener calls = [] :=
  List.filterMap_eq_nil_iff.mpr fun call hcall => if_neg (h call hcall)

namespace Store

/-- The listener is registered at the root and nowhere else, and nothing is written in its name. -/
structure HasAtRoot (s : Store) (listener : ListenerId) : Prop where
  wellFormed : s.registry.WellFormed
  listens : ∀ path, listener ∈ s.registry.listenersAt path ↔ path = "$"
  origin : s.origin ≠ some listener

variable {change : Change} {edit : Edit} {removal : Removal} {path : Path}

/-- Of the calls for one path the listener hears one if the path is the root. -/
theorem HasAtRoot.heardBy_heard (h : s.HasAtRoot listener) (path : String) (change : Change) :
    heardBy listener (s.heard path change) = if path = "$" then [change] else [] := by
  have each : ∀ ids : List ListenerId, heardBy listener (ids.map fun id => (id, change)) =
      List.replicate (ids.count listener) change := by
    intro ids
    induction ids with
    | nil => rfl
    | cons id ids ih =>
      rw [List.map_cons, heardBy, List.filterMap_cons, List.count_cons]
      by_cases hid : id = listener
      · simp only [hid, if_true, beq_self_eq_true]
        rw [List.replicate_succ, ← ih]
        rfl
      · simp only [hid, if_false, beq_iff_eq, Nat.add_zero]
        exact ih
  have horigin : decide (s.origin ≠ some listener) = true := decide_eq_true h.origin
  rw [heard, each, List.count_filter (p := fun id => decide (s.origin ≠ some id)) horigin,
    (h.wellFormed.nodup_listenersAt path).count]
  simp only [h.listens]
  split <;> rfl

theorem toText_eq_root {p : Path} : p.toText = "$" ↔ p = [] := by
  refine ⟨fun h => ?_, fun h => h ▸ rfl⟩
  by_contra hp
  exact Path.toText_ne_root hp h

/-- Of the calls for distinct paths, among them the root, the listener hears those for the root. -/
theorem HasAtRoot.heardBy_flatMap_heard (h : s.HasAtRoot listener) {paths : List String}
    (hpaths : paths.Nodup) (hroot : "$" ∈ paths) (change : String → Change) :
    heardBy listener (paths.flatMap fun path => s.heard path (change path)) = [change "$"] := by
  obtain ⟨before, behind, rfl⟩ := List.append_of_mem hroot
  rw [List.nodup_append, List.nodup_cons] at hpaths
  obtain ⟨-, ⟨hbehind, -⟩, hbefore⟩ := hpaths
  rw [heardBy_flatMap, List.flatMap_append, List.flatMap_cons]
  simp only [h.heardBy_heard]
  rw [List.flatMap_eq_nil_iff.mpr fun p hp => if_neg (hbefore p hp "$" List.mem_cons_self),
    List.flatMap_eq_nil_iff.mpr fun p hp => if_neg (ne_of_mem_of_not_mem hp hbehind)]
  rfl

theorem HasAtRoot.heardBy_outward (h : s.HasAtRoot listener) (location : Path) (change : Change) :
    heardBy listener (s.heardOutward location change) = [change] := by
  have hroot : "$" ∈ (outward location).map Path.toText :=
    List.mem_map.mpr ⟨[], mem_outward.mpr List.nil_prefix, rfl⟩
  rw [heardOutward, ← List.flatMap_map Path.toText fun path => s.heard path change]
  exact h.heardBy_flatMap_heard (nodup_outward location) hroot fun _ => change

theorem HasAtRoot.heardBy_heardOf (h : s.HasAtRoot listener) (hs : s.Formed)
    (hedit : edit.location ≠ []) :
    heardBy listener (s.heardOf k edit) = [changeOf k edit] := by
  have hlost : ∀ e ∈ s.lost edit, e.1 ≠ [] := by
    intro e he
    unfold lost at he
    split at he
    · split at he
      · obtain ⟨r, slot, hpath, -, -⟩ := (hs.mem_inside _ edit.location).mp he
        rw [hpath]
        exact fun hnil => hedit (List.append_eq_nil_iff.mp hnil).1
      · exact absurd he List.not_mem_nil
    · exact absurd he List.not_mem_nil
  rw [heardOf, heardBy_append, h.heardBy_outward, heardBy_flatMap]
  simp only [heardLoss, h.heardBy_heard, toText_eq_root]
  rw [List.flatMap_eq_nil_iff.mpr fun e he => if_neg (hlost e he), List.append_nil]

theorem HasAtRoot.heardBy_heardRemoval (h : s.HasAtRoot listener) (hs : s.Formed)
    (hremoval : removal.edit.location ≠ []) (hshifted : ∀ e ∈ removal.shifted, e.1 ≠ "$") :
    heardBy listener (s.heardRemoval k removal) = [changeOf k removal.edit] := by
  unfold heardRemoval
  split
  · have hshift : ∀ e ∈ removal.shifted, heardBy listener (s.heardShift k e) = [] := by
      intro e he
      unfold heardShift
      split
      · rfl
      · rw [h.heardBy_heard, if_neg (hshifted e he)]
    rw [heardBy_append, h.heardBy_outward, heardBy_flatMap, List.flatMap_eq_nil_iff.mpr hshift,
      List.append_nil]
  · exact h.heardBy_heardOf hs hremoval

theorem HasAtRoot.heardBy_heardLoad (h : s.HasAtRoot listener) :
    heardBy listener (s.heardLoad k) = [s.loadOf k "$"] := by
  have hroot : "$" ∈ s.registry.paths := by
    have hmem := (h.listens "$").mpr rfl
    unfold Registry.listenersAt at hmem
    cases hget : Members.get? "$" s.registry.registered with
    | none => rw [hget] at hmem; exact absurd hmem List.not_mem_nil
    | some here => exact Members.mem_names_of_mem (Members.mem_of_get? hget)
  exact h.heardBy_flatMap_heard h.wellFormed.distinct hroot (s.loadOf k)

theorem ne_root_of_mem_shifted {id : CellId} {key : Key}
    (h : s.delete id key = .ok (some (removal, t))) : ∀ e ∈ removal.shifted, e.1 ≠ "$" := by
  obtain ⟨path, key', c, old, -, -, -, hshifts, -⟩ := Store.delete_eq_ok h
  intro e he hroot
  cases key' with
  | index i =>
    obtain ⟨-, hindex⟩ := mem_listenedFrom hshifts e he
    rw [hroot, elementIndex?_root] at hindex
    cases hindex
  | name n =>
    have hnil : removal.shifted = [] := hshifts
    rw [hnil] at he
    cases he

theorem Sound.found_root (hs : s.Sound) {root : CellId} (hroot : s.root = some root) :
    s.found "$" = some (.cell root) := by
  obtain ⟨c, hc⟩ := content?_of_place? (hs.rooted.mpr hroot)
  have hslot : slotOf (s.tree (.cell root)) = .cell root := by
    rw [hs.toFormed.tree_cell hc]
    cases c <;> rfl
  have htree : s.rootTree? = some (s.tree (.cell root)) := by rw [rootTree?, hroot]; rfl
  rw [found, lookup_root htree, hslot]
  rfl

/-! ## The copy follows the document -/

/-- There is a document, and the copy is equal to it unless it was loaded and not reported yet. -/
structure Reflects (s : Store) (copy : Json) : Prop where
  loaded : ∃ document, s.document = some document
  current : s.reloadDue = false → s.document = some copy

theorem document_promote (s : Store) : s.promote.document = s.document := document_frame rfl rfl

theorem Reflects.frame (h : s.Reflects copy) (hdocument : t.document = s.document)
    (hdue : t.reloadDue = s.reloadDue) : t.Reflects copy :=
  ⟨hdocument ▸ h.loaded, fun ht => hdocument.trans (h.current (hdue ▸ ht))⟩

end Store

open Store (Reflects HasAtRoot)

/-- The stores of a moment in which store `k` is `s`. -/
def Store.At (s : Store) (k : StoreId) (stores : Array Store) : Prop :=
  (Universe.seen stores).store k = s

theorem Store.At.toJson {stores : Array Store} (h : s.At k stores) (slot : Slot) :
    (Universe.seen stores).toJson (Node.ofSlot k slot) = s.toJson slot := by
  cases slot with
  | scalar v => exact (Store.toJson_scalar v).symm
  | cell d => rw [← h]; rfl

/-- After a write the copy is brought up to date by what the root hears of it. -/
theorem Store.Reflects.written (h : s.Reflects copy) (hs : s.Sound) (he : s.Exact) {id : CellId}
    {key : Key} {v : Json} {edit : Edit} (hv : v.WellFormed)
    (hset : s.set id key (.copy v) = .ok (edit, t)) {stores : Array Store}
    (hstores : t.promote.At k stores) :
    t.promote.Reflects ((changeOf k edit).apply stores copy) := by
  obtain ⟨document, hdocument⟩ := h.loaded
  obtain ⟨hop, ⟨slot, hnew, hslot⟩, hwritten⟩ := hs.replay_set he hv hset hdocument
  rw [← t.document_promote] at hwritten
  refine ⟨⟨_, hwritten⟩, fun hdue => ?_⟩
  have legal : s.Legal (.copy v) := hv
  have hbefore : s.reloadDue = false := by
    rw [Store.rest_set hset] at hdue
    exact hdue
  cases hdocument.symm.trans (h.current hbefore)
  have hread : ((changeOf k edit).new.map (Universe.seen stores).toJson) = some v := by
    rw [changeOf, hnew, Option.map_some, Option.map_some, hstores.toJson]
    rw [Store.toJson_frame (t := t.promote) (s := t) rfl, hslot]
  rw [Change.apply, hread]
  simp only [changeOf, hop]
  exact hwritten

/-- The same after a removal. -/
theorem Store.Reflects.removed (h : s.Reflects copy) (hs : s.Sound) (he : s.Exact) {id : CellId}
    {key : Key} {removal : Removal} (hdelete : s.delete id key = .ok (some (removal, t)))
    (stores : Array Store) :
    t.promote.Reflects ((changeOf k removal.edit).apply stores copy) := by
  obtain ⟨document, hdocument⟩ := h.loaded
  obtain ⟨hop, hremoved⟩ := hs.replay_delete he hdelete hdocument
  rw [← t.document_promote] at hremoved
  refine ⟨⟨_, hremoved⟩, fun hdue => ?_⟩
  have hbefore : s.reloadDue = false := by
    rw [Store.rest_delete hdelete] at hdue
    exact hdue
  cases hdocument.symm.trans (h.current hbefore)
  rw [Change.apply]
  simp only [changeOf, hop]
  exact hremoved

/-- A tick hands over the document as a whole. -/
theorem Store.Reflects.reported (h : s.Reflects copy) (hs : s.Sound) {stores : Array Store}
    (hstores : s.reported.promote.At k stores) :
    s.reported.promote.Reflects ((s.reported.promote.loadOf k "$").apply stores copy) := by
  obtain ⟨document, hdocument⟩ := h.loaded
  have sound : s.reported.promote.Sound := hs.frame rfl rfl
  have hreported : s.reported.promote.document = some document := by
    rw [Store.document_promote, Store.document_frame (t := s.reported) (s := s) rfl rfl, hdocument]
  refine ⟨⟨document, hreported⟩, fun _ => ?_⟩
  obtain ⟨root, hroot, rfl⟩ := Option.map_eq_some_iff.mp hdocument
  have hread : ((s.reported.promote.loadOf k "$").new.map (Universe.seen stores).toJson) =
      some (s.toJson (.cell root)) := by
    rw [Store.loadOf, sound.found_root hroot, Option.map_some, Option.map_some, hstores.toJson,
      Store.toJson_frame (t := s.reported.promote) (s := s) rfl]
  rw [Change.apply, hread]
  exact hreported

namespace Operation

variable {op : Operation} {outcome : Except StoreError Unit}

/-- An operation on the store keeps the copy up to date, by what the root hears. -/
theorem Effect.reflects (h : op.Effect u outcome s calls) (hu : u.Steady A)
    (hexact : (u.store op.store).Exact) (hroot : s.HasAtRoot listener)
    (hallowed : op.AllowedBy (Policy.never.onlyIn op.store) u.stores)
    (hcopy : (u.store op.store).Reflects copy) {stores : Array Store}
    (hstores : s.At op.store stores) :
    s.Reflects (Change.applyAll stores (heardBy listener calls) copy) := by
  have sound := (hu op.store).sound
  cases h with
  | @loaded k document s h =>
    have rest := Store.rest_load h
    refine ⟨⟨_, sound.document_load document.wellFormed h⟩, fun hdue => ?_⟩
    rw [rest] at hdue
    cases hdue
  | reported h =>
    rw [hroot.heardBy_heardLoad]
    exact hcopy.reported sound hstores
  | @written op ref key value edit t hop h =>
    rw [store_of_written hop] at hexact hallowed hcopy sound hstores
    obtain ⟨path, key', _, target, -, -, slot, _, -, hedit, -⟩ := Store.set_eq_ok h
    have hkey : (u.store ref.store).keyAt ref.cell key = .ok (path ++ [key']) := target.keyAt
    have hincoming := hallowed.copies hop hkey
    have hvalue : (u.toJson value.node).WellFormed := by
      have legal := hu.legal ref.store value
      rw [hincoming] at legal
      exact legal
    have legal : ((u.store ref.store).onBehalf (op.behind u)).Legal
        (.copy (u.toJson value.node)) := hvalue
    rw [hincoming] at h
    have hsound : ((u.store ref.store).onBehalf (op.behind u)).Sound := sound.frame rfl rfl
    have hcopy : ((u.store ref.store).onBehalf (op.behind u)).Reflects copy :=
      hcopy.frame (Store.document_frame rfl rfl) rfl
    have hlocation : edit.location ≠ [] := by rw [hedit]; simp
    rw [hroot.heardBy_heardOf (hsound.set legal h).toFormed.promote hlocation]
    exact hcopy.written hsound (hexact.frame rfl) hvalue h hstores
  | @removed ref key removal t h =>
    obtain ⟨path, key', _, _, _, -, hedit, -, -⟩ := Store.delete_eq_ok h
    have hlocation : removal.edit.location ≠ [] := by rw [hedit]; simp
    rw [hroot.heardBy_heardRemoval (sound.delete h).toFormed.promote hlocation
      (Store.ne_root_of_mem_shifted h)]
    exact hcopy.removed sound hexact h stores
  | subscribed k query l =>
    obtain ⟨registry, hr⟩ := (u.store k).subscribe_frame query l
    rw [hr]
    exact hcopy.frame (Store.document_frame rfl rfl) rfl
  | unsubscribed k query l =>
    obtain ⟨registry, hr⟩ := (u.store k).unsubscribe_frame query l
    rw [hr]
    exact hcopy.frame (Store.document_frame rfl rfl) rfl
  | _ => exact hcopy

end Operation

/-! ## Through a run -/

namespace Universe

/-- The listener is registered at the root of store `k`, and nowhere else. -/
def Attends (u : Universe Journal) (listener : ListenerId) (k : StoreId) : Prop :=
  ∀ j path, listener ∈ (u.store j).registry.listenersAt path ↔ j = k ∧ path = "$"

theorem attends_congr (h : v.stores = u.stores) : v.Attends listener k ↔ u.Attends listener k :=
  forall_congr' fun j => by rw [store_congr h]

theorem lt_size_of_reflects (h : (u.store k).Reflects copy) : k < u.stores.size := by
  refine Nat.lt_of_not_le fun hle => ?_
  obtain ⟨document, hdocument⟩ := h.loaded
  rw [store, Array.getElem?_eq_none hle] at hdocument
  cases hdocument

end Universe

namespace Operation

variable {op : Operation} {outcome : Except StoreError Unit}

/-- Nobody is called about a store that does not exist. -/
theorem Effect.lt_size (h : op.Effect u outcome s calls) (hcalls : calls ≠ []) :
    op.store < u.stores.size := by
  cases h with
  | reported h => exact Universe.lt_size_of_reloadDue h
  | @written op ref key value edit s hop h =>
    obtain ⟨path, _, _, target, -⟩ := Store.set_eq_ok h
    rw [store_of_written hop]
    exact Universe.lt_size_of_place? target.place
  | removed h =>
    obtain ⟨path, _, _, _, target, -⟩ := Store.delete_eq_ok h
    exact Universe.lt_size_of_place? target.place
  | _ => exact absurd rfl hcalls

theorem behind_ne (hop : ∀ j path value, op ≠ .change j path value (some listener))
    (horigin : (u.store op.store).origin = none) : op.behind u ≠ some listener := by
  intro h
  cases op with
  | change j path value origin => exact hop j path value (by rw [← h, behind])
  | _ => cases horigin.symm.trans h

/-- The calls that an operation makes keep the copy up to date: they tell the root of each edit of
its store, and of nothing else. -/
theorem Does.mirrors (h : op.Does reach u outcome s calls) (hu : u.Steady Policy.free)
    (hexact : (u.store k).Exact) (horigin : (u.store op.store).origin = none)
    (hop : ∀ j path value, op ≠ .change j path value (some listener))
    (hallowed : op.AllowedBy (Policy.never.onlyIn k) u.stores)
    (attends : ((op.perform (recording reach)).run u).2.Attends listener k)
    (hcopy : (u.store k).Reflects copy) :
    ∃ news, ((op.perform (recording reach)).run u).2.memory = news ++ u.memory ∧
      (((op.perform (recording reach)).run u).2.store k).Reflects
        (Journal.mirror listener copy news) := by
  obtain ⟨news, hnews, hmirror⟩ := (u.setStore op.store s).mirror_tell listener calls
  refine ⟨news, ?_, ?_⟩
  · rw [h.1]
    exact hnews
  have listens (hsize : op.store < u.stores.size) (path : String) :
      listener ∈ s.registry.listenersAt path ↔ op.store = k ∧ path = "$" := by
    have after := attends op.store path
    rw [Universe.store_congr h.stores, Universe.store_setStore_self hsize] at after
    exact after
  rw [hmirror, Universe.store_congr h.stores]
  by_cases hk : op.store = k
  · subst hk
    have hsize := Universe.lt_size_of_reflects hcopy
    have root : s.HasAtRoot listener := by
      refine ⟨(h.2.reachable hu).registry, fun path => ?_, ?_⟩
      · rw [listens hsize, and_iff_right rfl]
      · rcases h.2.origin with hs | hs
        · rw [hs, horigin]
          simp
        · rw [hs]
          exact behind_ne hop horigin
    rw [Universe.store_setStore_self hsize]
    have reflects := h.2.reflects hu hexact root hallowed hcopy
      (Universe.store_setStore_self hsize s : s.At op.store (u.setStore op.store s).stores)
    exact reflects.frame (Store.document_frame rfl rfl) rfl
  · -- Nobody is told who is not registered with the store that has changed.
    have hnone : heardBy listener calls = [] := by
      refine heardBy_eq_nil fun call hcall hl => ?_
      obtain ⟨path, hpath⟩ := h.2.registered call hcall
      rw [hl] at hpath
      exact hk ((listens (h.2.lt_size (List.ne_nil_of_mem hcall)) path).mp hpath).1
    rw [hnone, Universe.store_setStore_of_ne (Ne.symm hk)]
    exact hcopy

end Operation

namespace Universe

variable {ops : List Operation}

theorem grows_perform (op : Operation) (u : Universe Journal) :
    u.memory <:+ ((op.perform (recording reach)).run u).2.memory := by
  have free : Journal.CompliesBy (fun _ => Policy.free) [] :=
    fun _ hm => absurd hm List.not_mem_nil
  have leading := Client.leading_reacting free (fun _ _ => .done) reach 0
  exact (op.leads_perform leading fun _ _ _ _ _ _ _ _ _ => trivial).grows

/-- That the operation has begun is on record when it has ended. -/
theorem grows_run (reach : Nat) (op : Operation) (u : Universe Journal) :
    ⟨.began op, u.stores⟩ :: u.memory <:+ ((op.run (recording reach)).run u).2.memory :=
  (grows_perform op (u.note (.began op))).trans (List.suffix_cons _ _)

theorem grows_after (ops : List Operation) (u : Universe Journal) :
    u.memory <:+ (u.after (recording reach) ops).memory := by
  induction ops generalizing u with
  | nil => exact List.suffix_refl _
  | cons op ops ih => exact ((List.suffix_cons _ _).trans (grows_run reach op u)).trans (ih _)

/-- As nobody reacts, the operations that begin are those of the caller. -/
theorem Reached.compliesBy_after {A : StoreId → Policy} (h : u.Reached (recording reach))
    (hu : Journal.CompliesBy A u.memory) {ops : List Operation}
    (hops : ∀ op ∈ ops, ∀ stores, op.AllowedBy A stores) :
    Journal.CompliesBy A (u.after (recording reach) ops).memory := by
  induction ops generalizing u with
  | nil => exact hu
  | cons op ops ih =>
    obtain ⟨hop, hops⟩ := List.forall_mem_cons.mp hops
    have steady : (u.note (.began op)).Steady Policy.free := h.steady
    obtain ⟨outcome, s, calls, hperform, -⟩ := op.exists_does steady reach
    refine ih (.next h op) (fun moment hm op' hevent => ?_) hops
    dsimp only at hm
    rw [Operation.run_eq, hperform] at hm
    rcases List.mem_cons.mp hm with rfl | hm
    · cases hevent
    rcases List.mem_append.mp hm with hm | hm
    · obtain ⟨call, -, rfl⟩ := List.mem_map.mp (List.mem_reverse.mp hm)
      cases hevent
    rcases List.mem_cons.mp hm with rfl | hm
    · cases hevent
      exact hop _
    · exact hu moment hm op' hevent

/-- A whole operation adds to the journal what brings the copy up to date. -/
theorem Reached.mirrors_run (h : u.Reached (recording reach)) {op : Operation}
    (hop : ∀ j path value, op ≠ .change j path value (some listener))
    (attends : ((op.run (recording reach)).run u).2.Attends listener k)
    (hJ : Journal.CompliesBy (Policy.never.onlyIn k) ((op.run (recording reach)).run u).2.memory)
    (hcopy : (u.store k).Reflects copy) :
    ∃ news, ((op.run (recording reach)).run u).2.memory = news ++ u.memory ∧
      (((op.run (recording reach)).run u).2.store k).Reflects
        (Journal.mirror listener copy news) := by
  have began := (grows_run reach op u).subset
  have before : Journal.CompliesBy (Policy.never.onlyIn k) u.memory :=
    fun moment hmoment => hJ moment (began (List.mem_cons_of_mem _ hmoment))
  have allowed : op.AllowedBy (Policy.never.onlyIn k) u.stores :=
    hJ _ (began List.mem_cons_self) op rfl
  have exact : (u.store k).Exact := (h.stepwiseBy before).exact (.inl rfl)
  have steady : (u.note (.began op)).Steady Policy.free := h.steady
  obtain ⟨outcome, s, calls, does⟩ := op.exists_does steady reach
  obtain ⟨news, hnews, reflects⟩ :=
    does.mirrors steady exact (h.origin _) hop allowed ((attends_congr rfl).mp attends) hcopy
  rcases hperform : (op.perform (recording reach)).run (u.note (.began op)) with ⟨outcome, v⟩
  rw [hperform] at hnews reflects
  have hrun : ((op.run (recording reach)).run u).2 = v.note (.ended op outcome) := by
    rw [Operation.run_eq, hperform]
  rw [hrun]
  refine ⟨⟨.ended op outcome, v.stores⟩ :: (news ++ [⟨.began op, u.stores⟩]), ?_, ?_⟩
  · rw [List.cons_append, List.append_assoc]
    exact congrArg (List.cons _) hnews
  · -- What began and what ended is nothing that a listener is told.
    have hcopy : Journal.mirror listener copy (news ++ [⟨.began op, u.stores⟩]) =
        Journal.mirror listener copy news := Journal.mirror_append news _
    exact hcopy ▸ reflects

/-- The same for a run of operations. -/
theorem Reached.mirrors_after (h : u.Reached (recording reach)) {ops : List Operation}
    (hops : ∀ j path value, .change j path value (some listener) ∉ ops)
    (attends : ∀ done, done <+: ops → (u.after (recording reach) done).Attends listener k)
    (hJ : Journal.CompliesBy (Policy.never.onlyIn k) (u.after (recording reach) ops).memory)
    (hcopy : (u.store k).Reflects copy) :
    ∃ news, (u.after (recording reach) ops).memory = news ++ u.memory ∧
      ((u.after (recording reach) ops).store k).Reflects (Journal.mirror listener copy news) := by
  induction ops generalizing u copy with
  | nil => exact ⟨[], rfl, hcopy⟩
  | cons op ops ih =>
    have first : Journal.CompliesBy (Policy.never.onlyIn k)
        ((op.run (recording reach)).run u).2.memory :=
      fun moment hmoment => hJ moment ((grows_after ops _).subset hmoment)
    have hop : ∀ j path value, op ≠ .change j path value (some listener) :=
      fun j path value heq => hops j path value (heq ▸ List.mem_cons_self)
    obtain ⟨here, hhere, hcopy⟩ :=
      h.mirrors_run hop (attends [op] (List.prefix_append [op] ops)) first hcopy
    obtain ⟨later, hlater, hcopy⟩ := ih (.next h op)
      (fun j path value hmem => hops j path value (List.mem_cons_of_mem op hmem))
      (fun done hdone => attends (op :: done) (List.cons_prefix_cons.mpr ⟨rfl, hdone⟩)) hJ hcopy
    refine ⟨later ++ here, ?_, ?_⟩
    · rw [List.append_assoc, ← hhere]
      exact hlater
    · rw [Journal.mirror_append]
      exact hcopy

/-- **While no cell of the document moves, whoever listens at the root and nowhere else can keep a
copy of the document: the changes that are told, made in the copy one after the other, give the
document again whenever no load waits to be reported.** -/
theorem Reached.mirror_eq_document (h : v.Reached (recording reach))
    (hcopy : (v.store k).document = some copy) {ops : List Operation}
    (hops : ∀ j path value, .change j path value (some listener) ∉ ops)
    (attends : ∀ done, done <+: ops → (v.after (recording reach) done).Attends listener k)
    (hw : w = v.after (recording reach) ops)
    (hJ : Journal.CompliesBy (Policy.never.onlyIn k) w.memory) :
    ∃ news, w.memory = news ++ v.memory ∧
      ((w.store k).reloadDue = false →
        (w.store k).document = some (Journal.mirror listener copy news)) := by
  subst hw
  obtain ⟨news, hnews, reflects⟩ :=
    h.mirrors_after hops attends hJ ⟨⟨copy, hcopy⟩, fun _ => hcopy⟩
  exact ⟨news, hnews, reflects.current⟩

end Universe

/-! ## Who listens at the root -/

namespace Operation

variable {op : Operation} {outcome : Except StoreError Unit}

/-- Once there is a document, there is one. -/
theorem Effect.root_isSome (h : op.Effect u outcome s calls) (hu : u.Steady A)
    (hroot : (u.store op.store).root.isSome) : s.root.isSome := by
  cases h with
  | @loaded k document s h =>
    have hdocument := (hu k).sound.document_load document.wellFormed h
    obtain ⟨root, hroot, -⟩ := Option.map_eq_some_iff.mp hdocument
    rw [hroot]
    rfl
  | @written op ref key value edit s hop h =>
    rw [store_of_written hop] at hroot
    change s.root.isSome
    rw [rest_written h]
    exact hroot
  | @removed ref key removal s h =>
    change s.root.isSome
    rw [Store.rest_delete h]
    exact hroot
  | subscribed k query listener =>
    obtain ⟨registry, hr⟩ := (u.store k).subscribe_frame query listener
    rw [hr]
    exact hroot
  | unsubscribed k query listener =>
    obtain ⟨registry, hr⟩ := (u.store k).unsubscribe_frame query listener
    rw [hr]
    exact hroot
  | _ => exact hroot

end Operation

namespace Universe

/-- There is a document in store `k`, at whose root the listener is registered, and it neither is
registered anywhere else nor waits. -/
structure Resident (u : Universe Journal) (listener : ListenerId) (k : StoreId) : Prop where
  loaded : (u.store k).root.isSome
  knows : ∀ j, (u.store j).registry.Knows listener fun path => j = k ∧ path = "$"

theorem resident_congr (h : v.stores = u.stores) (hu : u.Resident listener k) :
    v.Resident listener k where
  loaded := by rw [store_congr h]; exact hu.loaded
  knows j := by rw [store_congr h]; exact hu.knows j

theorem resolve_root (h : (u.store k).root.isSome) :
    (u.store k).resolve "$" = .ok (some "$") := by
  obtain ⟨root, hroot⟩ := Option.isSome_iff_exists.mp h
  have htree : (u.store k).rootTree? = some ((u.store k).tree (.cell root)) := by
    rw [Store.rootTree?, hroot]
    rfl
  exact Store.resolve_root htree

theorem Resident.perform (h : u.Resident listener k) (hu : u.Steady Policy.free) {op : Operation}
    (hop : op.Spares listener k) :
    ((op.perform (recording reach)).run u).2.Resident listener k := by
  obtain ⟨outcome, s, calls, does⟩ := op.exists_does hu reach
  have hknows := does.2.knows hu hop (resolve_root h.loaded) (h.knows op.store)
  have each (j : StoreId) := u.store_setStore_cases op.store (s.onBehalf (u.store op.store).origin) j
  refine resident_congr does.stores ⟨?_, fun j => ?_⟩
  · obtain hk | ⟨rfl, hk⟩ := each k
    · rw [hk]
      exact h.loaded
    · rw [hk]
      exact does.2.root_isSome hu h.loaded
  · obtain hj | ⟨rfl, hj⟩ := each j
    · rw [hj]
      exact h.knows j
    · rw [hj]
      exact hknows

theorem Reached.resident_after (h : u.Reached (recording reach)) {ops : List Operation}
    (hops : ∀ op ∈ ops, op.Spares listener k) (resident : u.Resident listener k) :
    (u.after (recording reach) ops).Resident listener k := by
  induction ops generalizing u with
  | nil => exact resident
  | cons op ops ih =>
    obtain ⟨hop, hops⟩ := List.forall_mem_cons.mp hops
    have began : (u.note (.began op)).Resident listener k := ⟨resident.loaded, resident.knows⟩
    have performed : (((op.perform (recording reach)).run (u.note (.began op))).2).Resident
        listener k := began.perform h.steady hop
    exact ih (.next h op) hops ⟨performed.loaded, performed.knows⟩

/-- Whoever is new and subscribes to the root of a document is registered there and nowhere else, and
stays so through all that is done but other subscriptions of its own. -/
theorem Reached.attends_after (h : u.Reached (recording reach))
    (hnew : ∀ j, (u.store j).registry.Knows listener fun _ => False)
    (hloaded : (u.store k).root.isSome) {ops : List Operation}
    (hops : ∀ op ∈ ops, op.Spares listener k) :
    (u.after (recording reach) (.subscribe k "$" listener :: ops)).Attends listener k := by
  have hk : k < u.stores.size := by
    refine Nat.lt_of_not_le fun hle => ?_
    rw [store, Array.getElem?_eq_none hle] at hloaded
    cases hloaded
  have hstores : (((Operation.subscribe k "$" listener).run (recording reach)).run u).2.stores =
      (u.setStore k ((u.store k).subscribe "$" listener).2).stores := by
    rw [Operation.run_eq]
    exact congrArg (fun run => run.2.stores)
      (Store.subscribeIn_run k "$" listener (u.note (.began (.subscribe k "$" listener))))
  have resident : (((Operation.subscribe k "$" listener).run (recording reach)).run u).2.Resident
      listener k := by
    refine resident_congr hstores ⟨?_, fun j => ?_⟩
    · rw [store_setStore_self hk]
      obtain ⟨registry, hr⟩ := (u.store k).subscribe_frame "$" listener
      rw [hr]
      exact hloaded
    · by_cases hj : j = k
      · subst hj
        rw [store_setStore_self hk]
        exact (Store.knows_subscribe_self (hnew j) (resolve_root hloaded)).congr fun path => by
          rw [false_or, and_iff_right rfl, eq_comm]
      · rw [store_setStore_of_ne hj]
        exact (hnew j).congr fun path => by simp [hj]
  intro j path
  exact (((h.next _).resident_after hops resident).knows j).listens path

/-- The document is edited before its load has been reported, and again afterwards. -/
def edits : List Operation := [memberWrite, .tick 0, memberRemoval]

theorem mirror_after_edits : ∃ w news,
    w = afterSubscribe.after (recording 0) edits ∧
    w.memory = news ++ afterSubscribe.memory ∧
    (w.store 0).document = some (Journal.mirror 7 nested.json news) ∧
    (w.store 0).document = some (.object []) := by
  have reached : afterSubscribe.Reached (recording 0) := .next reached_afterLoad (.subscribe 0 "$" 7)
  have new : ∀ j, (afterLoad.store j).registry.Knows 7 fun _ => False := by
    intro j
    have hempty : (afterLoad.store j).registry = {} := by cases j <;> rfl
    rw [hempty]
    exact Registry.knows_empty
  have spared : ∀ op ∈ edits, op.Spares 7 0 := by
    simp [edits, memberWrite, memberRemoval, Operation.Spares]
  have attends : ∀ done, done <+: edits →
      (afterSubscribe.after (recording 0) done).Attends 7 0 := fun done hdone =>
    reached_afterLoad.attends_after new rfl fun op hop => spared op (hdone.subset hop)
  have unsigned : ∀ j path value, .change j path value (some 7) ∉ edits := by
    simp [edits, memberWrite, memberRemoval]
  have complies : Journal.CompliesBy (Policy.never.onlyIn 0)
      (afterSubscribe.after (recording 0) edits).memory := by
    have plain : ∀ op ∈ .load 0 nested :: .subscribe 0 "$" 7 :: edits, ∀ stores,
        op.AllowedBy (Policy.never.onlyIn 0) stores := by
      intro op hop stores ref key x p location hw
      simp only [edits, List.mem_cons, List.not_mem_nil, or_false] at hop
      rcases hop with rfl | rfl | rfl | rfl | rfl <;> cases hw
    exact (Reached.start 1).compliesBy_after (fun _ hm => by cases hm) plain
  obtain ⟨news, hnews, hdocument⟩ := reached.mirror_eq_document rfl unsigned attends rfl complies
  exact ⟨_, news, rfl, hnews, hdocument rfl, rfl⟩

/-- The document `[1, 2, 3]`. -/
def numbers : Document where
  json := .array [.number (.int 1), .number (.int 2), .number (.int 3)]
  wellFormed := by simp [Json.WellFormed, Json.ItemsWellFormed]

def afterNumbers : Universe Journal := (start 1).after (recording 0) [.load 0 numbers]

/-- Listener `7` listens at the root of the document. -/
def afterRootSubscribe : Universe Journal := afterNumbers.after (recording 0) [.subscribe 0 "$" 7]

/-- The document is reported, the listener subscribes to its first element as well, and the element
is removed. -/
def elementRemoval : List Operation :=
  [.tick 0, .subscribe 0 "$[0]" 7, .delete ⟨0, 0⟩ (.index 0)]

theorem reached_afterNumbers : afterNumbers.Reached (recording 0) :=
  .next (.start 1) (.load 0 numbers)

theorem attends_afterRootSubscribe : afterRootSubscribe.Attends 7 0 := by
  refine reached_afterNumbers.attends_after (fun j => ?_) rfl fun op hop => ?_
  · have hempty : (afterNumbers.store j).registry = {} := by cases j <;> rfl
    rw [hempty]
    exact Registry.knows_empty
  · cases hop

/-- Whoever listens to an element as well is told twice that it is gone, and loses two elements of
the copy. -/
theorem copy_lags_behind_two_subscriptions : ∃ w news,
    afterRootSubscribe.Reached (recording 0) ∧ afterRootSubscribe.Attends 7 0 ∧
    (afterRootSubscribe.store 0).document = some numbers.json ∧
    w = afterRootSubscribe.after (recording 0) elementRemoval ∧
    (∀ j path value, .change j path value (some 7) ∉ elementRemoval) ∧
    Journal.CompliesBy (Policy.never.onlyIn 0) w.memory ∧
    w.memory = news ++ afterRootSubscribe.memory ∧ (w.store 0).reloadDue = false ∧
    (w.store 0).document.map Json.write = some "[2,3]" ∧
    (Journal.mirror 7 numbers.json news).write = "[2]" := by
  have reached : afterRootSubscribe.Reached (recording 0) :=
    .next reached_afterNumbers (.subscribe 0 "$" 7)
  obtain ⟨news, hnews⟩ : afterRootSubscribe.memory <:+
      (afterRootSubscribe.after (recording 0) elementRemoval).memory := grows_after elementRemoval _
  have before : afterRootSubscribe.memory.length = 4 := by decide +kernel
  have after : (afterRootSubscribe.after (recording 0) elementRemoval).memory.length = 14 := by
    decide +kernel
  have told : (Journal.mirror 7 numbers.json
      ((afterRootSubscribe.after (recording 0) elementRemoval).memory.take 10)).write = "[2]" := by
    decide +kernel
  rw [← hnews, List.length_append, before] at after
  rw [← hnews, List.take_left' (by omega)] at told
  refine ⟨_, news, reached, attends_afterRootSubscribe, by rfl, rfl, by simp [elementRemoval], ?_,
    hnews.symm, by decide +kernel, by decide +kernel, told⟩
  have idle {op : Operation} (h : ∀ stores, op.written stores = none) (stores : Array Store) :
      op.AllowedBy (Policy.never.onlyIn 0) stores :=
    fun ref key x p location hw => by rw [h] at hw; cases hw
  have empty : Journal.CompliesBy (Policy.never.onlyIn 0) (start 1).memory :=
    fun _ hm => absurd hm List.not_mem_nil
  refine reached.compliesBy_after (reached_afterNumbers.compliesBy_after
    ((Reached.start 1).compliesBy_after empty ?_) ?_) ?_
  · exact List.forall_mem_singleton.mpr (idle fun _ => rfl)
  · exact List.forall_mem_singleton.mpr (idle fun _ => rfl)
  · intro op hop
    simp only [elementRemoval, List.mem_cons, List.not_mem_nil, or_false] at hop
    rcases hop with rfl | rfl | rfl <;> exact idle fun _ => rfl

end Universe

end LiveJson
