import LiveJson.Store.Notify

/-! The operations of a live document that tell its listeners. -/

namespace LiveJson.Store

variable {σ : Type}

/-- Writes at a key of a cell. -/
def write (listeners : Listeners σ) (ref : CellRef) (key : Key) (value : Node) :
    Action σ Unit := do
  let u ← get
  match (u.store ref.store).set ref.cell key (u.incoming ref.store value) with
  | .error e => throw e
  | .ok (edit, store) =>
    Action.setStore ref.store store
    notify listeners ref.store edit

/-- Removes a key of a cell. -/
def remove (listeners : Listeners σ) (ref : CellRef) (key : Key) : Action σ Unit := do
  let store ← Action.getStore ref.store
  match store.delete ref.cell key with
  | .error e => throw e
  | .ok none => pure ()
  | .ok (some (removal, store)) =>
    Action.setStore ref.store store
    match removal.edit.location.getLast? with
    | some (.index _) => notifyRemoval listeners ref.store removal
    | _ => notify listeners ref.store removal.edit

/-- Appends to an array. -/
def push (listeners : Listeners σ) (ref : CellRef) (value : Node) : Action σ Unit := do
  let store ← Action.getStore ref.store
  let length := store.length ref.cell
  if store.isArray ref.cell then write listeners ref (.index length) value
  else throw (.invalidKey (toString length))

/-- Writes at a location that is there already. `origin` is not told about it. -/
def change (listeners : Listeners σ) (k : StoreId) (path : String) (value : Node)
    (origin : Option ListenerId) : Action σ Unit := do
  let store ← Action.getStore k
  match store.locate path with
  | .error e => throw e
  | .ok (id, key) =>
    let previous := store.origin
    Action.setStore k { store with origin }
    let outcome ← Action.attempt (write listeners ⟨k, id⟩ (.name key) value)
    let store ← Action.getStore k
    Action.setStore k { store with origin := previous }
    liftExcept outcome

/-- Reports a document that was loaded since the last tick, if any. -/
def tick (listeners : Listeners σ) (k : StoreId) : Action σ Unit := do
  let store ← Action.getStore k
  if store.reloadDue then
    Action.setStore k { store with reloadDue := false }
    notifyLoad listeners k

def loadIn (k : StoreId) (document : Json) : Action σ Unit := do
  let store ← Action.getStore k
  match store.load document with
  | .ok store => Action.setStore k store
  | .error e => throw e

def subscribeIn (k : StoreId) (query : String) (listener : ListenerId) : Action σ Unit := do
  let store ← Action.getStore k
  let (outcome, store) := store.subscribe query listener
  Action.setStore k store
  Action.ofPath outcome

def unsubscribeIn (k : StoreId) (query : String) (listener : ListenerId) : Action σ Unit := do
  let store ← Action.getStore k
  let (outcome, store) := store.unsubscribe query listener
  Action.setStore k store
  Action.ofPath outcome

end LiveJson.Store
