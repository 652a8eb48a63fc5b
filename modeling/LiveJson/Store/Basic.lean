import LiveJson.Store.Registry
import LiveJson.Tree.Basic

/-! A live document. Every array and object of it is a cell with an identity that it keeps while
its content changes; the number of a cell is its identity, and a new cell takes the next number. A
cell that is part of the document knows its place in it. -/

namespace LiveJson

abbrev CellId := Nat

/-- What an array or object holds at a key: a scalar, or another cell. -/
inductive Slot where
  | scalar (value : Json)
  | cell (id : CellId)
deriving Inhabited

inductive Content where
  | array (items : List Slot)
  | object (members : List (String × Slot))

structure Cell where
  content : Content
  place : Option Path

structure Store where
  cells : Array Cell := #[]
  root : Option CellId := none
  registry : Registry := {}
  /-- The listener that is behind the write being reported. -/
  origin : Option ListenerId := none
  /-- Whether a document was loaded that no tick has reported yet. -/
  reloadDue : Bool := false
  /-- Whether a document is being fetched. -/
  loading : Bool := false
  /-- Whether anybody can still reach the store. -/
  alive : Bool := true
deriving Inhabited

namespace Slot

/-- Cells are equal if they are the same cell. -/
def same : Slot → Slot → Bool
  | scalar v, scalar w => v == w
  | cell a, cell b => a == b
  | _, _ => false

def isComposite : Slot → Bool
  | scalar v => v.isComposite
  | cell _ => true

end Slot

namespace Content

def isArray : Content → Bool
  | array _ => true
  | object _ => false

def length : Content → Nat
  | array items => items.length
  | object members => members.length

def entries : Content → List (Key × Slot)
  | array items => Tree.enumerate 0 items
  | object members => members.map fun (name, slot) => (.name name, slot)

def get? (key : Key) : Content → Option Slot
  | array items => key.asIndex.bind fun i => items[i]?
  | object members => Members.get? key.toName members

/-- An index past the end of an array appends. -/
def insert (key : Key) (slot : Slot) : Content → Content
  | array items =>
    match key.asIndex with
    | some i => if i < items.length then array (items.set i slot) else array (items ++ [slot])
    | none => array (items ++ [slot])
  | object members => object (Members.insert key.toName slot members)

def erase (key : Key) : Content → Content
  | array items =>
    match key.asIndex with
    | some i => array (items.eraseIdx i)
    | none => array items
  | object members => object (Members.erase key.toName members)

end Content

namespace Store

def content? (store : Store) (id : CellId) : Option Content := store.cells[id]?.map (·.content)

def place? (store : Store) (id : CellId) : Option Path := store.cells[id]?.bind (·.place)

def entries (store : Store) (id : CellId) : List (Key × Slot) :=
  ((store.content? id).map Content.entries).getD []

def get? (store : Store) (id : CellId) (key : Key) : Option Slot :=
  (store.content? id).bind (Content.get? key)

def isArray (store : Store) (id : CellId) : Bool := (store.content? id).any Content.isArray

def length (store : Store) (id : CellId) : Nat := ((store.content? id).map Content.length).getD 0

def setPlace (store : Store) (id : CellId) (place : Option Path) : Store :=
  { store with cells := store.cells.modify id fun cell => { cell with place } }

def setContent (store : Store) (id : CellId) (content : Content) : Store :=
  { store with cells := store.cells.modify id fun cell => { cell with content } }

/-- A new cell at `place`. -/
def install (store : Store) (content : Content) (place : Path) : Slot × Store :=
  (.cell store.cells.size,
    { store with cells := store.cells.push { content, place := some place } })

end Store

end LiveJson
