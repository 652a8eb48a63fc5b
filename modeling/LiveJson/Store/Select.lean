import LiveJson.Query.Basic
import LiveJson.Store.Error
import LiveJson.Store.Graph

/-! Looking into a live document with path expressions. -/

namespace LiveJson

/-- A match as a node: a key that was asked for is a plain value. -/
def Matched.toTree {ι : Type} : Matched ι → Tree ι
  | node t => t
  | key k => .leaf (Key.toJson k)

namespace Store

def rootTree? (store : Store) : Option (Tree CellId) :=
  store.root.map fun id => store.tree (.cell id)

/-- All nodes that `path` finds from `start`, and none if there is no start. -/
def findFrom (start : Option (Tree CellId)) (path : String) :
    Except PathError (List (Tree CellId)) :=
  match start with
  | none => .ok []
  | some t => do
    let ms ← t.search path
    return ms.map fun m => m.matched.toTree

/-- Starts at the first node that `origin` finds, if it finds one, and at the root otherwise. -/
def selectAll (store : Store) (path : String) (origin : Option String) :
    Except PathError (List (Tree CellId)) := do
  let start ←
    match origin with
    | none => pure none
    | some origin => (findFrom store.rootTree? origin).map List.head?
  findFrom (start <|> store.rootTree?) path

def select (store : Store) (path : String) (origin : Option String) :
    Except PathError (Option (Tree CellId)) :=
  (store.selectAll path origin).map List.head?

/-- The node at the first match of `path`. -/
def lookup (store : Store) (path : String) : Except PathError (Option Slot) :=
  (store.select path none).map fun t => t.map slotOf

/-- The canonical text of the first location that `query` finds. -/
def resolve (store : Store) (query : String) : Except PathError (Option String) :=
  match store.rootTree? with
  | none => .ok none
  | some t => do
    let ms ← t.search query
    return ms.head?.map fun m => m.path.toText

/-- Registers a pending subscription if its query resolves now, and leaves it pending otherwise,
also when the query fails. -/
def promoteOne (resolved : Except PathError (Option String)) (registry : Registry)
    (subscription : Subscription) : Registry :=
  match resolved with
  | .ok (some path) => registry.add path subscription
  | _ => registry.addPending subscription

def promote (store : Store) : Store :=
  let registry := store.registry.pending.foldl
    (fun registry s => promoteOne (store.resolve s.query) registry s)
    { store.registry with pending := [] }
  { store with registry }

/-- Listens at the first location that `query` finds, or waits until it finds one. -/
def subscribe (store : Store) (query : String) (listener : ListenerId) :
    Except PathError Unit × Store :=
  let subscription : Subscription := { listener, query }
  let registry := store.registry.removePending subscription
  match store.resolve query with
  | .error e => (.error e, { store with registry })
  | .ok (some path) => (.ok (), { store with registry := registry.add path subscription })
  | .ok none => (.ok (), { store with registry := registry.addPending subscription })

def unsubscribe (store : Store) (query : String) (listener : ListenerId) :
    Except PathError Unit × Store :=
  let registry := store.registry.removePending { listener, query }
  match store.resolve query with
  | .error e => (.error e, { store with registry })
  | .ok (some path) => (.ok (), { store with registry := registry.remove path listener })
  | .ok none => (.ok (), { store with registry })

/-- The cell and the name in it that `path` points to, if it is a member that is there. -/
def locate (store : Store) (path : String) : Except StoreError (CellId × String) :=
  let fail := fun why => .error (.unresolved path why)
  match Segment.read path with
  | .error e => .error (.path e)
  | .ok segments =>
    match segments.getLast? with
    | some (.name key) =>
      match store.rootTree? with
      | none => fail .nothingLoaded
      | some t =>
        match (Tracer.trace {} segments.dropLast t none none).outcome with
        | .error e => .error (.path e)
        | .ok ms =>
          let cell? := fun m : Match CellId =>
            match m.matched.toTree with
            | .array id _ | .object id _ => some id
            | .leaf _ => none
          match ms.findSome? cell? with
          | none => fail .noContainer
          | some id =>
            if ((store.tree (.cell id)).get? key).isSome then .ok (id, key) else fail .noMember
    | _ => fail .noKeyAtEnd

end Store

end LiveJson
