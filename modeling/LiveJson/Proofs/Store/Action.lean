import LiveJson.Store.Flight

/-! # What an action does

An action takes a state of all stores to an outcome and a next state. Here is what the elementary
actions and the operations run, one step at a time, whatever the listeners are and keep. -/

namespace LiveJson

variable {σ α β : Type} {u : Universe σ} {k : StoreId}

namespace Universe

theorem store_setStore_of_ne {j : StoreId} (h : j ≠ k) (s : Store) :
    (u.setStore k s).store j = u.store j := by
  simp [Universe.setStore, Universe.store, Array.getElem?_modify, Ne.symm h]

/-- A store that is not there is not set. -/
theorem store_setStore (u : Universe σ) (k : StoreId) (s : Store) :
    (u.setStore k s).store k = s ∨ (u.setStore k s).store k = u.store k := by
  simp only [Universe.setStore, Universe.store, Array.getElem?_modify, if_pos]
  cases u.stores[k]? with
  | none => exact Or.inr rfl
  | some t => exact Or.inl rfl

theorem store_setStore_cases (u : Universe σ) (k : StoreId) (s : Store) (j : StoreId) :
    (u.setStore k s).store j = u.store j ∨ j = k ∧ (u.setStore k s).store j = s := by
  by_cases hj : j = k
  · subst hj
    exact (u.store_setStore j s).symm.imp id fun h => ⟨rfl, h⟩
  · exact Or.inl (store_setStore_of_ne hj s)

theorem store_setStore_self (hk : k < u.stores.size) (s : Store) :
    (u.setStore k s).store k = s := by
  simp [setStore, store, Array.getElem_modify, hk]

theorem store_setStore_of_le (hk : u.stores.size ≤ k) (s : Store) :
    (u.setStore k s).store k = u.store k := by
  simp [setStore, store, Array.getElem?_modify, Array.getElem?_eq_none hk]

theorem setStore_setStore (u : Universe σ) (k : StoreId) (s t : Store) :
    (u.setStore k s).setStore k t = u.setStore k t := by
  simp only [setStore, Universe.mk.injEq, and_true]
  apply Array.ext'
  apply List.ext_getElem?
  intro i
  simp only [Array.getElem?_toList, Array.getElem?_modify]
  split <;> simp [Function.comp_def]

@[simp] theorem setStore_store (u : Universe σ) (k : StoreId) :
    u.setStore k (u.store k) = u := by
  have hstores : (u.stores.modify k fun _ => u.store k) = u.stores := by
    apply Array.ext'
    apply List.ext_getElem?
    intro i
    simp only [Array.getElem?_toList, Array.getElem?_modify, store]
    split
    · next hi => subst hi; cases u.stores[k]? <;> rfl
    · rfl
  rw [setStore, hstores]

theorem size_setStore (u : Universe σ) (k : StoreId) (s : Store) :
    (u.setStore k s).stores.size = u.stores.size := Array.size_modify ..

end Universe

namespace Action

theorem run_bind (act : Action σ α) (next : α → Action σ β) (u : Universe σ) :
    (act >>= next).run u =
      match act.run u with
      | (.ok a, v) => (next a).run v
      | (.error e, v) => (.error e, v) := by
  change (ExceptT.bindCont next (act.run u).1).run (act.run u).2 = _
  rcases act.run u with ⟨_ | _, v⟩ <;> rfl

theorem run_get (u : Universe σ) : (get : Action σ (Universe σ)).run u = (.ok u, u) := rfl

theorem run_getStore (k : StoreId) (u : Universe σ) :
    (getStore k).run u = (.ok (u.store k), u) := rfl

theorem run_setStore (k : StoreId) (s : Store) (u : Universe σ) :
    (setStore k s).run u = (.ok (), u.setStore k s) := rfl

theorem run_attempt (act : Action σ α) (u : Universe σ) :
    (attempt act).run u = (.ok (act.run u).1, (act.run u).2) := rfl

end Action

namespace Store

theorem write_run (listeners : Listeners σ) (ref : CellRef) (key : Key) (node : Node)
    (u : Universe σ) : (write listeners ref key node).run u =
      match (u.store ref.store).set ref.cell key (u.incoming ref.store node) with
      | .error e => (.error e, u)
      | .ok (edit, s) => (notify listeners ref.store edit).run (u.setStore ref.store s) := by
  unfold write
  rw [Action.run_bind, Action.run_get]
  dsimp only
  cases (u.store ref.store).set ref.cell key (u.incoming ref.store node) <;> rfl

theorem remove_run (listeners : Listeners σ) (ref : CellRef) (key : Key)
    (u : Universe σ) : (remove listeners ref key).run u =
      match (u.store ref.store).delete ref.cell key with
      | .error e => (.error e, u)
      | .ok none => (.ok (), u)
      | .ok (some (removal, s)) =>
        let w := u.setStore ref.store s
        match removal.edit.location.getLast? with
        | some (.index _) => (notifyRemoval listeners ref.store removal).run w
        | _ => (notify listeners ref.store removal.edit).run w := by
  unfold remove
  rw [Action.run_bind, Action.run_getStore]
  dsimp only
  cases (u.store ref.store).delete ref.cell key with
  | error e => rfl
  | ok removed =>
    cases removed with
    | none => rfl
    | some removed =>
      obtain ⟨removal, s⟩ := removed
      dsimp only
      cases removal.edit.location.getLast? with
      | none => rfl
      | some key => cases key <;> rfl

theorem push_run (listeners : Listeners σ) (ref : CellRef) (node : Node)
    (u : Universe σ) : (push listeners ref node).run u =
      if (u.store ref.store).isArray ref.cell then
        (write listeners ref (.index ((u.store ref.store).length ref.cell)) node).run u
      else (.error (.invalidKey (toString ((u.store ref.store).length ref.cell))), u) := by
  unfold push
  rw [Action.run_bind, Action.run_getStore]
  dsimp only
  cases (u.store ref.store).isArray ref.cell <;> rfl

theorem change_run (listeners : Listeners σ) (k : StoreId) (path : String) (node : Node)
    (origin : Option ListenerId) (u : Universe σ) :
    (change listeners k path node origin).run u =
      match (u.store k).locate path with
      | .error e => (.error e, u)
      | .ok (id, key) =>
        let w := u.setStore k { u.store k with origin }
        let (outcome, v) := (write listeners ⟨k, id⟩ (.name key) node).run w
        (outcome, v.setStore k { v.store k with origin := (u.store k).origin }) := by
  unfold change
  rw [Action.run_bind, Action.run_getStore]
  dsimp only
  cases (u.store k).locate path with
  | error e => rfl
  | ok located =>
    obtain ⟨id, key⟩ := located
    dsimp only
    rw [Action.run_bind, Action.run_setStore]
    dsimp only
    rw [Action.run_bind, Action.run_attempt]
    dsimp only
    rcases (write listeners ⟨k, id⟩ (.name key) node).run _ with ⟨_ | _, v⟩ <;> rfl

theorem loadIn_run (k : StoreId) (document : Json) (u : Universe σ) :
    (loadIn k document).run u =
      match (u.store k).load document with
      | .error e => (.error e, u)
      | .ok s => (.ok (), u.setStore k s) := by
  unfold loadIn
  rw [Action.run_bind, Action.run_getStore]
  dsimp only
  cases (u.store k).load document <;> rfl

theorem ofPath_run (outcome : Except PathError Unit) (u : Universe σ) :
    (Action.ofPath outcome).run u = (outcome.mapError .path, u) := by
  cases outcome <;> rfl

theorem subscribeIn_run (k : StoreId) (query : String) (listener : ListenerId)
    (u : Universe σ) : (subscribeIn k query listener).run u =
      (((u.store k).subscribe query listener).1.mapError .path,
        u.setStore k ((u.store k).subscribe query listener).2) := by
  unfold subscribeIn
  rw [Action.run_bind, Action.run_getStore]
  dsimp only
  rw [Action.run_bind, Action.run_setStore]
  exact ofPath_run _ _

theorem unsubscribeIn_run (k : StoreId) (query : String) (listener : ListenerId)
    (u : Universe σ) : (unsubscribeIn k query listener).run u =
      (((u.store k).unsubscribe query listener).1.mapError .path,
        u.setStore k ((u.store k).unsubscribe query listener).2) := by
  unfold unsubscribeIn
  rw [Action.run_bind, Action.run_getStore]
  dsimp only
  rw [Action.run_bind, Action.run_setStore]
  exact ofPath_run _ _

/-- A fetch begins only if no other of the store is under way. -/
theorem takeOff_eq_ok {s t : Store} {location : Except StoreError Location}
    {method : Option String} {request : Request} (h : s.takeOff location method = .ok (request, t)) :
    s.loading = false ∧ t = { s with loading := true } := by
  unfold takeOff at h
  obtain ⟨place, -, h⟩ := bind_eq_ok.mp h
  split at h
  · cases h
  · next hs =>
    cases h
    exact ⟨Bool.eq_false_iff.mpr hs, rfl⟩

theorem takeOffIn_run (k : StoreId) (location : Except StoreError Location)
    (method : Option String) (u : Universe σ) : (takeOffIn k location method).run u =
      match (u.store k).takeOff location method with
      | .error e => (.error e, u)
      | .ok (request, s) => (.ok request, u.setStore k s) := by
  unfold takeOffIn
  rw [Action.run_bind, Action.run_getStore]
  dsimp only
  cases (u.store k).takeOff location method <;> rfl

/-- The fetch is over before the answer is looked at. -/
theorem land_run (k : StoreId) (answer : Except StoreError Json) (u : Universe σ) :
    (land k answer).run u =
      let ended := u.setStore k { u.store k with loading := false }
      match answer with
      | .ok document => (loadIn k document).run ended
      | .error e => (.error e, ended) := by
  cases answer <;> rfl

end Store

end LiveJson
