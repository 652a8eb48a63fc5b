import LiveJson.Proofs.Run.Telling

/-! # Operations that are only recorded

With listeners that only record, an operation does what the edit of its store does: if the edit
fails, nothing has changed, and otherwise the edited store takes its place, with its pending
subscriptions promoted, and the report is in the journal. -/

namespace LiveJson

open Store (Policy)

variable {A : Policy} {u v w : Universe Journal} {k j : StoreId} {reach : Nat} {s t : Store}

namespace Universe

theorem lt_size_of_place? {d : CellId} {p : Path} (h : (u.store k).place? d = some p) :
    k < u.stores.size := by
  refine Nat.lt_of_not_le fun hle => ?_
  rw [store, Array.getElem?_eq_none hle] at h
  exact absurd (Store.lt_size_of_place? h) (Nat.not_lt_zero _)

theorem lt_size_of_reloadDue (h : (u.store k).reloadDue = true) : k < u.stores.size := by
  refine Nat.lt_of_not_le fun hle => ?_
  rw [store, Array.getElem?_eq_none hle] at h
  cases h

theorem promoted_setStore (hk : k < u.stores.size) (s : Store) :
    (u.setStore k s).promoted k = u.setStore k s.promote := by
  rw [promoted, store_setStore_self hk, setStore_setStore]

theorem Steady.setStore (hu : u.Steady A) (hs : s.Reachable A) : (u.setStore k s).Steady A := by
  intro j
  rcases u.store_setStore_cases k s j with h | ⟨-, h⟩
  · rw [h]; exact hu j
  · rw [h]; exact hs

/-! ## Stores with the same cells -/

/-- The stores differ in nothing that concerns their documents. -/
structure Alike (u v : Universe Journal) : Prop where
  cells : ∀ k, (v.store k).cells = (u.store k).cells
  root : ∀ k, (v.store k).root = (u.store k).root
  alive : ∀ k, (v.store k).alive = (u.store k).alive

theorem Alike.refl (u : Universe Journal) : Alike u u := ⟨fun _ => rfl, fun _ => rfl, fun _ => rfl⟩

theorem alike_setStore (hc : s.cells = (u.store k).cells) (hr : s.root = (u.store k).root)
    (ha : s.alive = (u.store k).alive) : Alike u (u.setStore k s) := by
  have each : ∀ {α : Type} (f : Store → α), f s = f (u.store k) →
      ∀ j, f ((u.setStore k s).store j) = f (u.store j) := by
    intro α f hf j
    rcases u.store_setStore_cases k s j with h | ⟨rfl, h⟩
    · rw [h]
    · rw [h, hf]
  exact ⟨each _ hc, each _ hr, each _ ha⟩

theorem Alike.tell (h : Alike u v) (calls : List Call) : Alike u (v.tell calls) :=
  ⟨h.cells, h.root, h.alive⟩

theorem Alike.place? (h : Alike u v) (ref : CellRef) : v.place? ref = u.place? ref := by
  simp only [Universe.place?, Store.place?, h.cells, h.alive]

theorem Alike.toJson (h : Alike u v) (node : Node) : v.toJson node = u.toJson node := by
  cases node with
  | plain value => rfl
  | cell ref =>
    show (v.store ref.store).toJson _ = (u.store ref.store).toJson _
    rw [Store.toJson_frame (h.cells ref.store)]

theorem Alike.incoming (h : Alike u v) (k : StoreId) (node : Node) :
    v.incoming k node = u.incoming k node := by
  cases node with
  | plain value => rfl
  | cell ref =>
    have hplace : (v.store k).place? ref.cell = (u.store k).place? ref.cell := by
      rw [Store.place?, h.cells]
      rfl
    show (if _ then _ else _) = if _ then _ else _
    rw [hplace, h.toJson]

end Universe

namespace Store

variable {ref : CellRef} {key : Key} {value : Value} {edit : Edit} {listeners : Listeners Journal}

/-! ## What is recorded -/

theorem recorded_write (hu : u.Steady A)
    (h : (u.store ref.store).set ref.cell key (u.incoming ref.store value.node) = .ok (edit, s)) :
    (write (recording reach) ref key value.node).run u =
      (.ok (), (u.setStore ref.store s.promote).tell (s.promote.heardOf ref.store edit)) := by
  obtain ⟨path, _, _, target, -⟩ := Store.set_eq_ok h
  have hk := Universe.lt_size_of_place? target.place
  have sound := (hu ref.store).sound.set (hu.legal ref.store value) h
  rw [write_run, h, ← Universe.promoted_setStore hk]
  refine tells_notify ?_ sound.toFormed.promote edit
  rw [Universe.store_setStore_self hk]

theorem recorded_remove (reach : Nat) (hu : u.Steady A) {removal : Removal}
    (h : (u.store ref.store).delete ref.cell key = .ok (some (removal, s))) :
    (remove (recording reach) ref key).run u =
      (.ok (), (u.setStore ref.store s.promote).tell
        (s.promote.heardRemoval ref.store removal)) := by
  obtain ⟨path, key', c, old, target, -, hedit, hshifts, -⟩ := Store.delete_eq_ok h
  have hk := Universe.lt_size_of_place? target.place
  have hlast : removal.edit.location.getLast? = some key' := by
    rw [hedit, List.getLast?_concat]
  have hstore : ((u.setStore ref.store s).store ref.store).promote = s.promote := by
    rw [Universe.store_setStore_self hk]
  rw [remove_run, h, ← Universe.promoted_setStore hk, heardRemoval]
  dsimp only
  rw [hlast]
  cases key' with
  | index i =>
    have hcanonical := listenedFrom_canonical (hu ref.store).registry hshifts
    exact tells_notifyRemoval hstore hcanonical
  | name n =>
    have sound := (hu ref.store).sound.delete h
    exact tells_notify hstore sound.toFormed.promote removal.edit

/-- Removing a name is reported like a write. -/
theorem heardRemoval_name {removal : Removal} {path : Path} {name : String}
    (h : removal.edit.location = path ++ [.name name]) :
    s.heardRemoval k removal = s.heardOf k removal.edit := by
  rw [heardRemoval, h, List.getLast?_concat]

theorem tick_run_of_not_due (listeners : Listeners Journal) (h : (u.store k).reloadDue = false) :
    (tick listeners k).run u = (.ok (), u) := by
  unfold tick
  rw [Action.run_bind, Action.run_getStore]
  dsimp only
  rw [h]
  rfl

/-- The store with nothing to report any more. -/
def reported (s : Store) : Store := { s with reloadDue := false }

theorem recorded_tick (reach : Nat) (hu : u.Steady A) (h : (u.store k).reloadDue = true) :
    (tick (recording reach) k).run u =
      (.ok (), (u.setStore k (u.store k).reported.promote).tell
        ((u.store k).reported.promote.heardLoad k)) := by
  have hk : k < u.stores.size := by
    refine Nat.lt_of_not_le fun hle => ?_
    rw [Universe.store, Array.getElem?_eq_none hle] at h
    cases h
  have hstore : ((u.setStore k (u.store k).reported).store k).promote =
      (u.store k).reported.promote := by
    rw [Universe.store_setStore_self hk]
  have registry := wellFormed_promote (s := (u.store k).reported) (hu k).registry
  unfold tick
  rw [Action.run_bind, Action.run_getStore]
  dsimp only
  rw [h, if_pos rfl, Action.run_bind, Action.run_setStore, ← Universe.promoted_setStore hk]
  exact tells_notifyLoad reach hstore registry

end Store

end LiveJson
