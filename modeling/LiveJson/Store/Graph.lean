import LiveJson.Store.Basic

/-! The cells below a cell. No cell lies below itself, so a branch on the way down meets each cell
at most once, and the number of cells is fuel enough for every walk. -/

namespace LiveJson.Store

/-- The tree below a slot, of at most `fuel` cells in depth, labelled by the cells. -/
def treeTo (store : Store) : Nat → Slot → Tree CellId
  | _, .scalar v => .leaf v
  | 0, .cell _ => .leaf .null
  | fuel + 1, .cell id =>
    match store.content? id with
    | none => .leaf .null
    | some (.array items) => .array id (items.map (treeTo store fuel))
    | some (.object members) =>
      .object id (members.map fun (name, slot) => (name, treeTo store fuel slot))

def tree (store : Store) (slot : Slot) : Tree CellId := store.treeTo store.cells.size slot

def toJson (store : Store) (slot : Slot) : Json := (store.tree slot).toJson

/-- The node of a tree of this store. -/
def slotOf : Tree CellId → Slot
  | .leaf v => .scalar v
  | .array id _ | .object id _ => .cell id

/-- Whether `target` is the cell or lies below it. -/
def reaches (store : Store) (target : CellId) : Nat → CellId → Bool
  | 0, id => id == target
  | fuel + 1, id =>
    id == target || (store.entries id).any fun (_, slot) =>
      match slot with
      | .cell child => reaches store target fuel child
      | .scalar _ => false

def contains (store : Store) (id target : CellId) : Bool :=
  store.reaches target store.cells.size id

/-- Puts a cell at a place, and all below it at the places that follow. -/
def relocateTo : Nat → CellId → Path → Store → Store
  | 0, _, _, store => store
  | fuel + 1, id, place, store =>
    let store := (store.entries id).foldl (fun store (key, slot) =>
      match slot with
      | .cell child => relocateTo fuel child (place ++ [key]) store
      | .scalar _ => store) store
    store.setPlace id (some place)

def relocate (store : Store) (id : CellId) (place : Path) : Store :=
  relocateTo store.cells.size id place store

/-- Takes the place from a cell at `location` or below, and from all below it. A cell that has its
place elsewhere keeps it, and so does what is below. -/
def forgetTo : Nat → CellId → Path → Store → Store
  | 0, _, _, store => store
  | fuel + 1, id, location, store =>
    if (store.place? id).any (location.isPrefixOf ·) then
      (store.entries id).foldl (fun store (_, slot) =>
        match slot with
        | .cell child => forgetTo fuel child location store
        | .scalar _ => store) (store.setPlace id none)
    else store

def forget (store : Store) (id : CellId) (location : Path) : Store :=
  forgetTo store.cells.size id location store

def forgetSlot (store : Store) (slot : Slot) (location : Path) : Store :=
  match slot with
  | .cell id => store.forget id location
  | .scalar _ => store

mutual

/-- New cells for the arrays and objects of a value, members before their containers. -/
def wrap (place : Path) : Json → Store → Slot × Store
  | .array items, store =>
    let (slots, store) := wrapItems place 0 items store
    store.install (.array slots) place
  | .object members, store =>
    let (slots, store) := wrapMembers place members store
    store.install (.object slots) place
  | .null, store => (.scalar .null, store)
  | .bool b, store => (.scalar (.bool b), store)
  | .number n, store => (.scalar (.number n), store)
  | .string s, store => (.scalar (.string s), store)
termination_by structural v => v

def wrapItems (place : Path) (start : Nat) : List Json → Store → List Slot × Store
  | [], store => ([], store)
  | v :: vs, store =>
    let (slot, store) := wrap (place ++ [.index start]) v store
    let (slots, store) := wrapItems place (start + 1) vs store
    (slot :: slots, store)
termination_by structural vs => vs

def wrapMembers (place : Path) : List (String × Json) → Store → List (String × Slot) × Store
  | [], store => ([], store)
  | (name, v) :: rest, store =>
    let (slot, store) := wrap (place ++ [.name name]) v store
    let (slots, store) := wrapMembers place rest store
    ((name, slot) :: slots, store)
termination_by structural ms => ms

end

end LiveJson.Store
