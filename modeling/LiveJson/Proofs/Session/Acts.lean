import LiveJson.Proofs.Session.Flights

/-! # Acts keep scenes in order

Every act of a session that begins in a scene that is in order ends in one, whatever becomes of it,
and calls listeners only in such scenes. So do the scripts of the listeners themselves. -/

namespace LiveJson.Session

open LiveJson.Action (Agrees AgreesAt)

variable {u v : Scene} {k : StoreId} {id : String}

namespace InOrder

/-- New stores that are not loading, and new names for stores that are there. -/
theorem grow {v : Scene} (h : InOrder u) (hstores : v.stores = u.stores ∨ v.stores = u.stores.push {})
    (hflights : v.memory.flights = u.memory.flights)
    (hmodels : ∀ {name k}, (name, k) ∈ v.memory.models →
      (name, k) ∈ u.memory.models ∨ k < v.stores.size)
    (hnamed : ∀ {name k}, (name, k) ∈ v.memory.named →
      (name, k) ∈ u.memory.named ∨ k < v.stores.size) : InOrder v := by
  have size : u.stores.size ≤ v.stores.size := by
    rcases hstores with hs | hs
    · exact Nat.le_of_eq (congrArg Array.size hs.symm)
    · rw [hs, Array.size_push]; exact Nat.le_succ _
  have store : ∀ j, v.store j = u.store j := by
    intro j
    rcases hstores with hs | hs
    · rw [Universe.store, hs]; rfl
    · rw [Universe.store, hs, Array.getElem?_push]
      split
      · next hj =>
        rw [Universe.store, Array.getElem?_eq_none (Nat.le_of_eq hj.symm)]
        rfl
      · rfl
  refine ⟨hflights ▸ h.distinct, fun j => ?_, fun hm => ?_, fun hm => ?_⟩
  · rw [hflights, store, h.marked]
  · exact (hmodels hm).elim (fun hm => Nat.lt_of_lt_of_le (h.models hm) size) id
  · exact (hnamed hm).elim (fun hm => Nat.lt_of_lt_of_le (h.named hm) size) id

end InOrder

/-! ## Acts -/

theorem agrees_updateMemory {f : Memory → Memory} (hflights : ∀ m, (f m).flights = m.flights)
    (hmodels : ∀ m, (f m).models = m.models) (hnamed : ∀ m, (f m).named = m.named) :
    Agrees InOrder (updateMemory f) (updateMemory f) := fun _ hu =>
  ⟨rfl, hu.frame rfl (fun _ => rfl) (hflights _) (hmodels _) (hnamed _)⟩

theorem agrees_addListener (listener : Listener) :
    Agrees InOrder (addListener listener) (addListener listener) := by
  intro u hu
  refine Action.agrees_get ?_
  refine (agrees_updateMemory ?_ ?_ ?_).bind (fun _ => Action.agrees_pure _) u hu
  · exact fun _ => rfl
  · exact fun _ => rfl
  · exact fun _ => rfl

theorem agrees_listenerOf (name : String) :
    Agrees InOrder (listenerOf name) (listenerOf name) := by
  intro u hu
  refine Action.agrees_get ?_
  split
  · exact Action.agrees_pure _ u hu
  · exact agrees_addListener _ u hu

theorem agrees_keep (name : Option String) (node : Option Node) :
    Agrees InOrder (keep name node) (keep name node) := by
  unfold keep
  split
  · exact agrees_updateMemory (fun _ => rfl) (fun _ => rfl) (fun _ => rfl)
  · exact Action.agrees_pure _

theorem agrees_viewOf (node : Option Node) : Agrees InOrder (viewOf node) (viewOf node) :=
  Action.agrees_of_quiet fun _ => rfl

theorem agrees_targetOf (k : StoreId) (on : Option String) :
    Agrees InOrder (targetOf k on) (targetOf k on) := by
  refine Action.agrees_of_quiet fun u => ?_
  cases on with
  | none => rfl
  | some name =>
    unfold targetOf
    rw [Action.run_bind, Action.run_get]
    dsimp only
    split <;> rfl

theorem agrees_writtenOf (value : Written) :
    Agrees InOrder (writtenOf value) (writtenOf value) := by
  refine Action.agrees_of_quiet fun u => ?_
  cases value <;> rfl

theorem agrees_withTarget {on : Option String} {act act' : CellRef → Play Reply}
    (h : ∀ ref, Agrees InOrder (act ref) (act' ref)) :
    Agrees InOrder (withTarget k on act) (withTarget k on act') := by
  refine (agrees_targetOf k on).bind fun target => ?_
  cases target with
  | none => exact Action.agrees_pure _
  | some ref => exact h ref

theorem agrees_withNode {name : String} {act act' : Node → Play Reply}
    (h : ∀ node, Agrees InOrder (act node) (act' node)) :
    Agrees InOrder (withNode name act) (withNode name act') := by
  intro u hu
  refine Action.agrees_get ?_
  split
  · exact h _ u hu
  · exact Action.agrees_pure _ u hu

theorem agrees_withWritten {value : Written} {act act' : Node → Play Unit}
    (h : ∀ node, Agrees InOrder (act node) (act' node)) :
    Agrees InOrder (withWritten value act) (withWritten value act') := by
  refine (agrees_writtenOf value).bind fun written => ?_
  cases written with
  | none => exact Action.agrees_pure _
  | some node => exact (h node).bind fun _ => Action.agrees_pure _

theorem agrees_query (k : StoreId) (on : Option String) (detached : Option Json)
    (plan : Option QueryPlan) (callback : Bool) :
    Agrees InOrder (query k on detached plan callback) (query k on detached plan callback) := by
  unfold query
  split
  · exact Action.agrees_pure _
  · dsimp only
    split
    · exact Action.agrees_pure _
    · exact agrees_withTarget fun ref => Action.agrees_of_quiet fun _ => rfl

/-! ### Stores by name -/

theorem run_bind_ok {α β : Type} {act : Play α} {next : α → Play β} {a : α}
    (h : act.run u = (.ok a, v)) : (act >>= next).run u = (next a).run v := by
  rw [Action.run_bind, h]

theorem lt_size_push : u.stores.size < (u.stores.push {}).size := by
  rw [Array.size_push]
  exact Nat.lt_succ_self _

/-- A name was there before, or it is the new name of a store that is there. -/
theorem named_or_lt {names : List (String × StoreId)} {new name : String} {j size : StoreId}
    (hk : k < size) (h : (name, j) ∈ Members.insert new k names) : (name, j) ∈ names ∨ j < size := by
  rcases Members.mem_of_mem_insert h with h | h
  · exact Or.inl h
  · cases h
    exact Or.inr hk

/-- The store that goes by the name of a model is there, at the latest when it is asked for. -/
theorem modelOf_run (hu : InOrder u) (name : String) : ∃ k v,
    (modelOf name).run u = (.ok k, v) ∧ InOrder v ∧ k < v.stores.size := by
  unfold modelOf
  rw [Action.run_bind, Action.run_get]
  dsimp only
  cases hm : Members.get? name u.memory.models with
  | some k => exact ⟨k, u, rfl, hu, hu.models (Members.mem_of_get? hm)⟩
  | none =>
    exact ⟨u.stores.size, _, rfl, hu.grow (.inr rfl) rfl (named_or_lt lt_size_push) .inl,
      lt_size_push⟩

theorem sharedStore_run (hu : InOrder u) (name : String) : ∃ k v,
    (sharedStore name).run u = (.ok k, v) ∧ InOrder v ∧ k < v.stores.size := by
  unfold sharedStore
  rw [Action.run_bind, Action.run_get]
  dsimp only
  cases hm : Members.get? name u.memory.named with
  | some k => exact ⟨k, u, rfl, hu, hu.named (Members.mem_of_get? hm)⟩
  | none =>
    exact ⟨u.stores.size, _, rfl, hu.grow (.inr rfl) rfl .inl (named_or_lt lt_size_push),
      lt_size_push⟩

theorem agreesAt_of_ok {α β : Type} {act : Play α} {next next' : α → Play β} {a : α}
    (h : act.run u = (.ok a, v)) (h' : AgreesAt InOrder v (next a) (next' a)) :
    AgreesAt InOrder u (act >>= next) (act >>= next') := by
  unfold AgreesAt
  rw [run_bind_ok h, run_bind_ok h]
  exact h'

theorem agrees_modelOf {α : Type} {name : String} {next next' : StoreId → Play α}
    (h : ∀ k v, InOrder v → k < v.stores.size → AgreesAt InOrder v (next k) (next' k)) :
    Agrees InOrder (modelOf name >>= next) (modelOf name >>= next') := by
  intro u hu
  obtain ⟨k, v, hrun, hv, hk⟩ := modelOf_run hu name
  exact agreesAt_of_ok hrun (h k v hv hk)

theorem agrees_sharedStore {α : Type} {name : String} {next next' : StoreId → Play α}
    (h : ∀ k v, InOrder v → k < v.stores.size → AgreesAt InOrder v (next k) (next' k)) :
    Agrees InOrder (sharedStore name >>= next) (sharedStore name >>= next') := by
  intro u hu
  obtain ⟨k, v, hrun, hv, hk⟩ := sharedStore_run hu name
  exact agreesAt_of_ok hrun (h k v hv hk)

theorem agrees_nameModel (hu : InOrder u) (model : String) (hk : k < u.stores.size) :
    AgreesAt InOrder u (nameModel model k) (nameModel model k) :=
  ⟨rfl, hu.grow (.inl rfl) rfl (named_or_lt hk) .inl⟩

/-- Names can be forgotten. -/
theorem agrees_forget {f : Memory → Memory} (hflights : ∀ m, (f m).flights = m.flights)
    (hmodels : ∀ m, ∀ entry ∈ (f m).models, entry ∈ m.models)
    (hnamed : ∀ m, ∀ entry ∈ (f m).named, entry ∈ m.named) :
    Agrees InOrder (updateMemory f) (updateMemory f) := fun _ hu =>
  ⟨rfl, hu.grow (.inl rfl) (hflights _) (fun h => .inl (hmodels _ _ h))
    fun h => .inl (hnamed _ _ h)⟩

/-! ### Loads -/

theorem agrees_beginLoad (hu : InOrder u) (hk : k < u.stores.size) (id : String)
    (location : Except StoreError Location) (method : Option String) (poll : Bool) :
    AgreesAt InOrder u (beginLoad k id location method poll)
      (beginLoad k id location method poll) := by
  refine ⟨rfl, ?_⟩
  cases h : (u.store k).takeOff location method with
  | error e =>
    rw [beginLoad_run_error h]
    cases poll with
    | true => exact hu.grounded id .over fun _ => rfl
    | false => exact hu.grounded id (.rejected e) fun _ => rfl
  | ok accepted =>
    obtain ⟨request, s⟩ := accepted
    obtain ⟨idle, rfl⟩ := Store.takeOff_eq_ok h
    rw [beginLoad_run_ok h]
    cases poll with
    | true =>
      have begun := hu.begun id (.pending k) hk idle fun j => rfl
      exact begun.frame rfl (fun _ => rfl) rfl rfl rfl
    | false => exact hu.begun id (.started k request) hk idle fun j => rfl

theorem agrees_finishLoad (id : String) (answer : Except StoreError Json) :
    Agrees InOrder (finishLoad id answer) (finishLoad id answer) := by
  intro u hu
  refine ⟨rfl, ?_⟩
  cases hf : Members.get? id u.memory.flights with
  | none =>
    rw [finishLoad_run_missing (.inl hf)]
    exact hu
  | some flight =>
    have ended := hu.ended hf
    rcases flight.aloft_or_grounded with ⟨k, ha⟩ | ⟨e, rfl⟩ | rfl
    · cases answer with
      | error e =>
        rw [finishLoad_run_error hf ha]
        exact ended
      | ok document =>
        rw [finishLoad_run_ok hf ha]
        exact ((Store.agrees_loadIn InOrder.tolerant document).bind
          (fun _ => Action.agrees_pure Reply.loaded) _ ended).2
    · rw [finishLoad_run_rejected hf]
      exact ended
    · rw [finishLoad_run_missing (.inr hf)]
      exact hu

theorem agrees_dropLoad (id : String) : Agrees InOrder (dropLoad id) (dropLoad id) := by
  intro u hu
  refine ⟨rfl, ?_⟩
  rw [dropLoad_run]
  exact hu.dropped id

/-- A store that is not loading is marked and unmarked again. -/
theorem setLoading_setLoading (hk : k < u.stores.size) (idle : (u.store k).loading = false) :
    setLoading (setLoading u k true) k false = u := by
  have same : { u.store k with loading := false } = u.store k := by rw [← idle]
  unfold setLoading
  rw [Universe.store_setStore_self hk, Universe.setStore_setStore, same, Universe.setStore_store]

/-- A load whose source answers at once. -/
def loadAtOnce (k : StoreId) (location : Except StoreError Location) (method : Option String)
    (documents : List (String × Json)) : Play Reply := do
  let request ← Store.takeOffIn k location method
  Store.land k (Store.answer documents request)
  return .done

theorem loadAtOnce_run_error {location : Except StoreError Location} {method : Option String}
    {e : StoreError} (h : (u.store k).takeOff location method = .error e)
    (documents : List (String × Json)) :
    (loadAtOnce k location method documents).run u = (.error e, u) := by
  unfold loadAtOnce
  rw [Action.run_bind, Store.takeOffIn_run, h]

theorem loadAtOnce_run_ok {location : Except StoreError Location} {method : Option String}
    {request : Request} {s : Store} (hk : k < u.stores.size)
    (h : (u.store k).takeOff location method = .ok (request, s))
    (documents : List (String × Json)) :
    (loadAtOnce k location method documents).run u =
      match Store.answer documents request with
      | .ok document => (do Store.loadIn k document; return .done : Play Reply).run u
      | .error e => (.error e, u) := by
  obtain ⟨idle, rfl⟩ := Store.takeOff_eq_ok h
  have back := setLoading_setLoading hk idle
  unfold loadAtOnce
  rw [Action.run_bind, Store.takeOffIn_run, h]
  dsimp only
  rw [Action.run_bind, Store.land_run]
  unfold setLoading at back
  cases Store.answer documents request with
  | error e =>
    dsimp only [setLoading]
    rw [back]
  | ok document =>
    dsimp only [setLoading]
    rw [back, Action.run_bind]

theorem agrees_loadAtOnce (hu : InOrder u) (hk : k < u.stores.size)
    (location : Except StoreError Location) (method : Option String)
    (documents : List (String × Json)) :
    AgreesAt InOrder u (loadAtOnce k location method documents)
      (loadAtOnce k location method documents) := by
  refine ⟨rfl, ?_⟩
  cases h : (u.store k).takeOff location method with
  | error e =>
    rw [loadAtOnce_run_error h]
    exact hu
  | ok accepted =>
    obtain ⟨request, s⟩ := accepted
    rw [loadAtOnce_run_ok hk h]
    cases Store.answer documents request with
    | error e => exact hu
    | ok document =>
      exact ((Store.agrees_loadIn InOrder.tolerant document).bind
        (fun _ => Action.agrees_pure Reply.done) u hu).2

/-! ### Calls of listeners -/

theorem agrees_record (entry : LogEntry) : Agrees InOrder (record entry) (record entry) :=
  agrees_updateMemory (fun _ => rfl) (fun _ => rfl) (fun _ => rfl)

theorem agrees_called (id : ListenerId) : Agrees InOrder (called id) (called id) := by
  intro u hu
  refine Action.agrees_get ((agrees_updateMemory ?_ ?_ ?_).bind (fun _ => Action.agrees_pure _) u hu)
  · exact fun _ => rfl
  · exact fun _ => rfl
  · exact fun _ => rfl

theorem agrees_hear (id : ListenerId) (change : Change) :
    Agrees InOrder (hear id change) (hear id change) := by
  refine (agrees_called id).bind fun listener u hu => Action.agrees_get ?_
  exact (agrees_record _).bind (fun _ => Action.agrees_pure _) u hu

theorem agrees_endCall (listener : Listener) (op : Op) :
    Agrees InOrder (endCall listener op) (endCall listener op) := by
  unfold endCall
  split
  · exact Action.agrees_throw _
  · exact Action.agrees_pure _

/-! ### All acts -/

variable [UrlReader]

section
variable {listeners listeners' : Listeners Memory}
  (hl : ∀ id change, Agrees InOrder (listeners.tell id change) (listeners'.tell id change))
  (hr : listeners'.reach = listeners.reach)
include hl hr

theorem agrees_perform (model : String) (act : Act) :
    Agrees InOrder (perform listeners model act) (perform listeners' model act) := by
  have tolerant := InOrder.tolerant
  cases act with
  | load document =>
    exact agrees_modelOf fun k v hv _ =>
      (Store.agrees_loadIn tolerant document).bind (fun _ => Action.agrees_pure _) v hv
  | tick =>
    exact agrees_modelOf fun k v hv _ =>
      (Store.agrees_tick tolerant hl).bind (fun _ => Action.agrees_pure _) v hv
  | state => exact agrees_modelOf fun k v hv _ => Action.agrees_of_quiet (fun _ => rfl) v hv
  | root name =>
    exact agrees_modelOf fun k v hv _ => Action.agrees_getStore
      ((agrees_keep _ _).bind (fun _ => agrees_viewOf _) v hv)
  | select path origin name =>
    refine agrees_modelOf fun k v hv _ => Action.agrees_getStore ?_
    refine (Action.agrees_ofPath _).bind (fun found => ?_) v hv
    exact (agrees_keep _ _).bind fun _ => agrees_viewOf _
  | selectAll path origin =>
    refine agrees_modelOf fun k v hv _ => Action.agrees_getStore ?_
    exact (Action.agrees_ofPath _).bind (fun found => Action.agrees_of_quiet fun _ => rfl) v hv
  | listener name script temper =>
    exact (agrees_addListener _).bind fun _ => Action.agrees_pure _
  | subscribe path listener =>
    refine agrees_modelOf fun k v hv _ => ?_
    refine (agrees_listenerOf listener).bind (fun id => ?_) v hv
    exact (Store.agrees_subscribeIn tolerant path id).bind fun _ => Action.agrees_pure _
  | unsubscribe path listener =>
    refine agrees_modelOf fun k v hv _ => ?_
    refine (agrees_listenerOf listener).bind (fun id => ?_) v hv
    exact (Store.agrees_unsubscribeIn tolerant path id).bind fun _ => Action.agrees_pure _
  | change path value origin =>
    refine agrees_modelOf fun k v hv _ => ?_
    refine Agrees.bind ?_ (fun origin => ?_) v hv
    · cases origin with
      | none => exact Action.agrees_pure _
      | some name => exact (agrees_listenerOf name).bind fun _ => Action.agrees_pure _
    · exact agrees_withWritten fun node => Store.agrees_change tolerant hl hr path node origin
  | set on key value =>
    refine agrees_modelOf fun k v hv _ => agrees_withTarget (fun ref => ?_) v hv
    exact agrees_withWritten fun node => Store.agrees_write tolerant hl hr ref key node
  | delete on key =>
    refine agrees_modelOf fun k v hv _ => agrees_withTarget (fun ref => ?_) v hv
    exact (Store.agrees_remove tolerant hl hr ref key).bind fun _ => Action.agrees_pure _
  | push on value =>
    refine agrees_modelOf fun k v hv _ => agrees_withTarget (fun ref => ?_) v hv
    exact agrees_withWritten fun node => Store.agrees_push tolerant hl hr ref node
  | member on key name =>
    refine agrees_modelOf fun k v hv _ => agrees_withTarget (fun ref u hu => ?_) v hv
    exact Action.agrees_getStore ((agrees_keep _ _).bind (fun _ => agrees_viewOf _) u hu)
  | info on =>
    exact agrees_modelOf fun k v hv _ =>
      agrees_withTarget (fun ref => Action.agrees_of_quiet fun _ => rfl) v hv
  | pathOf name =>
    exact agrees_modelOf fun k v hv _ =>
      agrees_withNode (fun node => Action.agrees_of_quiet fun _ => rfl) v hv
  | contains on name =>
    refine agrees_modelOf fun k v hv _ => agrees_withTarget (fun ref => ?_) v hv
    exact agrees_withTarget fun other => Action.agrees_of_quiet fun _ => rfl
  | same a b => exact agrees_withNode fun x => agrees_withNode fun y => Action.agrees_pure _
  | query on detached plan callback =>
    exact agrees_modelOf fun k v hv _ => agrees_query k on detached plan callback v hv
  | loadFrom location method documents =>
    exact agrees_modelOf fun k v hv hk =>
      agrees_loadAtOnce hv hk (Location.parse location) method documents
  | beginLoad id location method poll =>
    exact agrees_modelOf fun k v hv hk =>
      agrees_beginLoad hv hk id (Location.parse location) method poll
  | endLoad id answer => exact agrees_finishLoad id answer
  | dropLoad id => exact agrees_dropLoad id
  | requests =>
    intro u hu
    refine Action.agrees_get ((agrees_updateMemory ?_ ?_ ?_).bind (fun _ => Action.agrees_pure _) u hu)
    · exact fun _ => rfl
    · exact fun _ => rfl
    · exact fun _ => rfl
  | namedCreate name =>
    refine agrees_sharedStore fun k v hv hk => ?_
    exact (agrees_nameModel hv model hk).bind fun _ w _ hw =>
      Action.agrees_of_quiet (fun _ => rfl) w hw
  | namedGet name =>
    intro u hu
    refine Action.agrees_get ?_
    split
    · next k hm =>
      have hk := hu.named (Members.mem_of_get? hm)
      exact (agrees_nameModel hu model hk).bind fun _ w _ hw =>
        Action.agrees_of_quiet (fun _ => rfl) w hw
    · exact Action.agrees_pure _ u hu
  | namedRemove name =>
    intro u hu
    refine Action.agrees_get ((agrees_forget ?_ ?_ ?_).bind (fun _ => Action.agrees_pure _) u hu)
    · exact fun _ => rfl
    · exact fun _ _ h => h
    · exact fun _ _ h => (Members.erase_sublist _ _).subset h
  | namedNames => exact Action.agrees_of_quiet fun _ => rfl
  | namedClear =>
    refine (agrees_forget ?_ ?_ ?_).bind fun _ => Action.agrees_pure _
    · exact fun _ => rfl
    · exact fun _ _ h => h
    · exact fun _ _ h => absurd h List.not_mem_nil
  | bindingModel declaration =>
    refine (Action.agrees_ofPath _).bind fun binding => ?_
    refine agrees_sharedStore fun k v hv hk => ?_
    exact (agrees_nameModel hv model hk).bind fun _ w _ hw =>
      Action.agrees_of_quiet (fun _ => rfl) w hw
  | dropModel =>
    intro u hu
    refine Action.agrees_get ((agrees_forget ?_ ?_ ?_).bind (fun _ => Action.agrees_pure _) u hu)
    · exact fun _ => rfl
    · exact fun _ _ h => (Members.erase_sublist _ _).subset h
    · exact fun _ _ h => h

end

/-! ## Scripts -/

theorem agrees_playSteps {listeners : Listeners Memory}
    (hl : ∀ id change, Agrees InOrder (listeners.tell id change) (listeners.tell id change))
    (name : String) (strict : Bool) : ∀ steps : List Step,
      Agrees InOrder (playSteps listeners name strict steps) (playSteps listeners name strict steps)
  | [] => Action.agrees_pure _
  | (model, act) :: steps => by
    refine (agrees_perform hl rfl model act).attempt.bind fun outcome => ?_
    refine (agrees_record _).bind fun _ => ?_
    split
    · exact Action.agrees_throw _
    · exact agrees_playSteps hl name strict steps

theorem agrees_tell (reach : Nat) : ∀ (depth : Nat) (id : ListenerId) (change : Change),
    Agrees InOrder (tell reach depth id change) (tell reach depth id change)
  | 0, id, change => (agrees_hear id change).bind fun listener => agrees_endCall listener change.op
  | depth + 1, id, change => by
    unfold tell
    refine (agrees_hear id change).bind fun listener => ?_
    have ends := agrees_endCall listener change.op
    dsimp only
    split
    · split
      · exact (agrees_playSteps (agrees_tell reach depth) _ _ _).bind fun _ => ends
      · exact ends
    · exact ends

end LiveJson.Session
