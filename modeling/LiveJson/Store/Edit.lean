import LiveJson.Store.Select

/-! Editing a live document. An edit changes cells and places and says what happened; telling the
listeners is left to others. A failing edit changes nothing. -/

namespace LiveJson

inductive Op where
  | set
  | delete
  /-- The whole document was replaced. -/
  | load
deriving DecidableEq, Repr

def Op.name : Op → String
  | set => "set"
  | delete => "delete"
  | load => "load"

/-- What is written: a cell that moves here with all below it, or a value that is copied. -/
inductive Incoming where
  | move (id : CellId)
  | copy (value : Json)

/-- A write that has happened. -/
structure Edit where
  op : Op
  location : Path
  old : Option Slot
  new : Option Slot

/-- The removal of an array element: besides the edit, the listened locations at or behind it,
with what they held before. -/
structure Removal where
  edit : Edit
  shifted : List (String × Option Slot)

namespace Store

/-- Replaces the document; its root is an array or an object. -/
def load (store : Store) (document : Json) : Except StoreError Store :=
  match wrap [] document store with
  | (.scalar _, _) => .error .invalidDocument
  | (.cell root, wrapped) =>
    let loaded := { wrapped with root := some root, reloadDue := true }
    match store.root with
    | some previous => .ok (loaded.forget previous [])
    | none => .ok loaded

/-- The place of a cell that is part of the document. -/
def attached (store : Store) (id : CellId) : Except StoreError Path :=
  if store.alive then
    match store.place? id with
    | some place => .ok place
    | none => .error .detached
  else .error .detached

/-- The key as an index for an array and as a name for an object. -/
def normalize (store : Store) (id : CellId) (key : Key) : Except StoreError Key :=
  if store.isArray id then
    match key.asIndex with
    | some i => .ok (.index i)
    | none => .error (.invalidKey key.toName)
  else .ok (.name key.toName)

/-- An index further than one past the end of the array. -/
def isBeyond (store : Store) (id : CellId) : Key → Bool
  | .index i => store.length id < i
  | .name _ => false

def isCyclic (store : Store) (id : CellId) : Incoming → Bool
  | .move child => store.contains child id
  | .copy _ => false

/-- Brings what is written to its place, as cells of this store. -/
def place (store : Store) (location : Path) : Incoming → Slot × Store
  | .move child => (.cell child, store.relocate child location)
  | .copy v => wrap location v store

/-- Writes at a key of a cell. The place just past the end of an array is free to be written. -/
def set (store : Store) (id : CellId) (key : Key) (incoming : Incoming) :
    Except StoreError (Edit × Store) := do
  let path ← store.attached id
  let key ← store.normalize id key
  if store.isBeyond id key then .error (.invalidKey key.toName)
  else
    let location := path ++ [key]
    if store.isCyclic id incoming then .error (.cycle location.toText)
    else
      let old := store.get? id key
      let cleared :=
        match old with
        | some slot => store.forgetSlot slot location
        | none => store
      let (slot, placed) := cleared.place location incoming
      let written :=
        match placed.content? id with
        | some content => placed.setContent id (content.insert key slot)
        | none => placed
      return ({ op := .set, location, old, new := some slot }, written)

/-- The index of the element of the array at `array` through which a listened path runs. -/
def elementIndex? (array path : String) : Option Nat :=
  let front := array.toList
  let cs := path.toList
  if front.isPrefixOf cs then
    match cs.drop front.length with
    | '[' :: rest =>
      if rest.contains ']' then Key.position? (rest.takeWhile (· != ']')) else none
    | _ => none
  else none

/-- The listened paths that run through the array at `array` from element `start` on, with what they
hold. -/
def listenedFrom (store : Store) (array : Path) (start : Nat) :
    Except PathError (List (String × Option Slot)) :=
  let paths := store.registry.paths.filter fun path =>
    (elementIndex? array.toText path).any (start ≤ ·)
  paths.mapM fun path => (store.lookup path).map fun slot => (path, slot)

/-- Puts the elements of an array from `start` on at the places where they are now. -/
def reseat (store : Store) (id : CellId) (path : Path) (start : Nat) : Store :=
  ((store.entries id).drop start).foldl (fun store (key, slot) =>
    match slot with
    | .cell child => store.relocate child (path ++ [key])
    | .scalar _ => store) store

def eraseAt (store : Store) (id : CellId) (key : Key) (location : Path) : Store :=
  let old := store.get? id key
  let erased :=
    match store.content? id with
    | some content => store.setContent id (content.erase key)
    | none => store
  match old with
  | some slot => erased.forgetSlot slot location
  | none => erased

/-- Removes a key of a cell; later elements of an array move up. There is nothing to do for a key
that is not there. -/
def delete (store : Store) (id : CellId) (key : Key) :
    Except StoreError (Option (Removal × Store)) := do
  let path ← store.attached id
  let key ← store.normalize id key
  match store.get? id key with
  | none => return none
  | some old =>
    let location := path ++ [key]
    let edit : Edit := { op := .delete, location, old := some old, new := none }
    match key with
    | .name _ => return some ({ edit, shifted := [] }, store.eraseAt id key location)
    | .index start =>
      match store.listenedFrom path start with
      | .error e => .error (.path e)
      | .ok shifted =>
        return some ({ edit, shifted }, (store.eraseAt id key location).reseat id path start)

end Store

end LiveJson
