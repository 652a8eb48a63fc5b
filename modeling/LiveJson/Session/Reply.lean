import LiveJson.Binding
import LiveJson.Session.Step
import LiveJson.Store.Flight

/-! What the steps of a session answer, and the state that a session keeps beside its stores. -/

namespace LiveJson.Session

/-- A node as it is at one moment: its value and, for a cell, its number and its place in writing.
-/
structure NodeView where
  value : Json
  cell : Option (CellId × Option String)

structure Info where
  id : CellId
  isArray : Bool
  length : Nat
  children : List (Key × NodeView)
  value : Json
  path : Option Path
  modelPath : Option Path
  atZero : Option NodeView

/-- What a step asked for by name in vain. -/
inductive Missing where
  | cell
  | node
  | load (id : String)

inductive Reply where
  | done
  | node (view : Option NodeView)
  | nodes (views : List NodeView)
  | flag (value : Bool)
  | names (names : List String)
  | missing (what : Missing)
  /-- A load was begun, and its source was asked at once or not. -/
  | begun (asked : Bool)
  | loaded
  | state (loaded pendingWork loading : Bool)
  | info (info : Info)
  | path (path : Option Path)
  /-- What a query answered, with the type of entries that it asks for. -/
  | queried (type : ResultType) (outcome : QueryOutcome CellId) (callback : Bool)
  | badOptions
  | requests (requests : List Request)
  | document (root : Option Json)
  | noStore
  | binding (binding : Binding) (root : Option Json)

/-- What a listener, given by its name, was told or has done. -/
inductive LogEntry where
  | told (listener : String) (op : Op) (path : String) (old new : Option NodeView)
  | stepped (listener : String) (outcome : Except StoreError Reply)

/-- A listener and how often it was called so far. One without a script only records. -/
structure Listener where
  name : String
  script : Option (List Step) := none
  temper : Temper := {}
  calls : Nat := 0
deriving Inhabited

/-- A load that was begun: turned away at once, not asked for yet, asked for, or over. -/
inductive Flight where
  | rejected (error : StoreError)
  | started (store : StoreId) (request : Request)
  | pending (store : StoreId)
  | over

/-- What a session knows by name, what it has fetched, and what its listeners have done in the
step at hand. -/
structure Memory where
  models : List (String × StoreId) := []
  named : List (String × StoreId) := []
  nodes : List (String × Node) := []
  listeners : Array Listener := #[]
  /-- The listener that goes by a name, which is the one that got it last. -/
  listenerNames : List (String × ListenerId) := []
  flights : List (String × Flight) := []
  requests : List Request := []
  log : List LogEntry := []

abbrev Scene := Universe Memory

abbrev Play := Action Memory

/-- A node as it is now. The place is known if the cell's store goes by a name. -/
def view (scene : Scene) (node : Node) : NodeView :=
  let value := scene.toJson node
  match node with
  | .plain _ => { value, cell := none }
  | .cell ref =>
    let known := scene.memory.models.any fun m => m.2 = ref.store
    let place := if known then (scene.store ref.store).place? ref.cell else none
    { value, cell := some (ref.cell, place.map Path.toText) }

def viewSlot (scene : Scene) (k : StoreId) (slot : Slot) : NodeView :=
  view scene (Node.ofSlot k slot)

def rootOf (scene : Scene) (k : StoreId) : Option Json :=
  let s := scene.store k
  s.root.map fun id => s.toJson (.cell id)

end LiveJson.Session
