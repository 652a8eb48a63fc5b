import LiveJson.Store.Action

/-! Telling listeners. A write is reported at its location and at each of its ancestors, nearest
first; then, where a subtree has gone, inside it. The listeners of a path are told in the order in
which they registered, and the first that fails ends the report. -/

namespace LiveJson.Store

variable {σ : Type}

/-- Tells the listeners at `path`, except the one behind the write. -/
def dispatch (listeners : Listeners σ) (k : StoreId) (path : String) (change : Change) :
    Action σ Unit := do
  let store ← Action.getStore k
  (store.registry.listenersAt path).forM fun id =>
    if store.origin = some id then pure () else listeners.tell id change

/-- A location and its ancestors, nearest first. -/
def outward (location : Path) : List Path :=
  (List.range (location.length + 1)).reverse.map location.take

def walk (listeners : Listeners σ) (k : StoreId) (location : Path) (change : Change) :
    Action σ Unit :=
  (outward location).forM fun path => dispatch listeners k path.toText change

/-- Tells the listeners below a cell that was at `path` that what they listen to is gone, each
location once and before what is below it. The paths told so far are handed on. -/
def cascade (listeners : Listeners σ) (k : StoreId) :
    Nat → CellId → Path → List String → Action σ (List String)
  | 0, _, _, seen => pure seen
  | fuel + 1, id, path, seen => do
    let store ← Action.getStore k
    (store.entries id).foldlM (fun seen (key, slot) => do
      let location := path ++ [key]
      let text := location.toText
      let now ← Action.getStore k
      let due := now.registry.isListened text && !seen.contains text
      if due then
        dispatch listeners k text
          { op := .delete, path := text, old := some (Node.ofSlot k slot), new := none }
      let seen := if due then text :: seen else seen
      match slot with
      | .cell child => cascade listeners k fuel child location seen
      | .scalar _ => pure seen) seen

def promoteIn (k : StoreId) : Action σ Unit := do
  let store ← Action.getStore k
  Action.setStore k store.promote

def changeOf (k : StoreId) (edit : Edit) : Change :=
  { op := edit.op, path := edit.location.toText, old := edit.old.map (Node.ofSlot k),
    new := edit.new.map (Node.ofSlot k) }

/-- Whether an edit leaves a subtree without a place: it was deleted, or a scalar replaced it. -/
def orphans (edit : Edit) : Bool :=
  edit.op == .delete || (edit.old.any Slot.isComposite && !edit.new.any Slot.isComposite)

/-- Reports an edit, and the loss of the subtree that it orphaned. -/
def notify (listeners : Listeners σ) (k : StoreId) (edit : Edit) : Action σ Unit := do
  promoteIn k
  walk listeners k edit.location (changeOf k edit)
  match edit.old with
  | some (.cell id) =>
    if orphans edit then
      let store ← Action.getStore k
      let _ ← cascade listeners k (store.cells.size + listeners.reach) id edit.location []
  | _ => pure ()

def sameOption : Option Slot → Option Slot → Bool
  | some a, some b => a.same b
  | none, none => true
  | _, _ => false

/-- Reports the removal of an array element, then what each listened location behind it holds now,
if that differs from what it held. -/
def notifyRemoval (listeners : Listeners σ) (k : StoreId) (removal : Removal) : Action σ Unit := do
  promoteIn k
  walk listeners k removal.edit.location (changeOf k removal.edit)
  removal.shifted.forM fun (path, old) => do
    let store ← Action.getStore k
    let new ← Action.ofPath (store.lookup path)
    if sameOption new old then pure ()
    else
      dispatch listeners k path
        { op := if new.isSome then .set else .delete, path,
          old := old.map (Node.ofSlot k), new := new.map (Node.ofSlot k) }

/-- Reports a loaded document at every listened path. -/
def notifyLoad (listeners : Listeners σ) (k : StoreId) : Action σ Unit := do
  promoteIn k
  let store ← Action.getStore k
  store.registry.paths.forM fun path => do
    let store ← Action.getStore k
    let new ← Action.ofPath (store.lookup path)
    dispatch listeners k path { op := .load, path, old := none, new := new.map (Node.ofSlot k) }

end LiveJson.Store
