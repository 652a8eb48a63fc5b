import LiveJson.Store.Edit

/-! Actions on several live documents at once. Listeners act on the same documents while they are
told of a change, so an action works on the state of all stores together with whatever the
listeners keep for themselves. What was done before a failure stays done. -/

namespace LiveJson

abbrev StoreId := Nat

structure CellRef where
  store : StoreId
  cell : CellId
deriving DecidableEq, Repr, Inhabited

/-- A cell of some store, or a plain value that is part of none. -/
inductive Node where
  | plain (value : Json)
  | cell (ref : CellRef)
deriving Inhabited

/-- What listeners are told: the location that changed, in writing, and what it held and holds. -/
structure Change where
  op : Op
  path : String
  old : Option Node
  new : Option Node

structure Universe (σ : Type) where
  stores : Array Store := #[]
  memory : σ

abbrev Action (σ : Type) := ExceptT StoreError (StateM (Universe σ))

/-- How listeners take a change. A cascade that listeners keep extending while it runs goes at most
`reach` levels deeper than there were cells when it began. -/
structure Listeners (σ : Type) where
  tell : ListenerId → Change → Action σ Unit
  reach : Nat

namespace Node

def ofSlot (store : StoreId) : Slot → Node
  | .scalar v => plain v
  | .cell id => cell ⟨store, id⟩

def ofTree (store : StoreId) (t : Tree CellId) : Node := ofSlot store (Store.slotOf t)

/-- Nodes are equal if they are the same cell or equal values. -/
def same : Node → Node → Bool
  | plain v, plain w => v == w
  | cell a, cell b => a == b
  | _, _ => false

end Node

namespace Universe

variable {σ : Type}

def store (u : Universe σ) (k : StoreId) : Store := u.stores[k]?.getD {}

def setStore (u : Universe σ) (k : StoreId) (s : Store) : Universe σ :=
  { u with stores := u.stores.modify k fun _ => s }

def addStore (u : Universe σ) : StoreId × Universe σ :=
  (u.stores.size, { u with stores := u.stores.push {} })

def toJson (u : Universe σ) : Node → Json
  | .plain v => v
  | .cell ref => (u.store ref.store).toJson (.cell ref.cell)

/-- A cell that is part of the document of store `k` moves when it is written there; anything else
is copied. -/
def incoming (u : Universe σ) (k : StoreId) : Node → Incoming
  | .plain v => .copy v
  | .cell ref =>
    if ref.store = k ∧ ((u.store k).place? ref.cell).isSome then .move ref.cell
    else .copy (u.toJson (.cell ref))

/-- The place of a cell, as long as its store is alive. -/
def place? (u : Universe σ) (ref : CellRef) : Option Path :=
  let s := u.store ref.store
  if s.alive then s.place? ref.cell else none

end Universe

namespace Action

variable {σ α : Type}

def getStore (k : StoreId) : Action σ Store := return (← get).store k

def setStore (k : StoreId) (s : Store) : Action σ Unit := modify fun u => u.setStore k s

/-- Does `act` and hands on how it ended instead of failing. -/
def attempt (act : Action σ α) : Action σ (Except StoreError α) := fun u =>
  let (outcome, u) := act.run u
  (.ok outcome, u)

def ofPath (outcome : Except PathError α) : Action σ α :=
  match outcome with
  | .ok a => pure a
  | .error e => throw (.path e)

end Action

end LiveJson
