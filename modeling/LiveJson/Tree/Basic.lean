import LiveJson.Path.Basic

/-! Document trees. Every array and object carries a label that tells it from the others, so that
a tree can stand for a plain document, labelled by location, as well as for a live one, labelled
by the identities of its cells. A leaf is a value that is not looked into: a scalar, or a whole
document that is not part of the tree. -/

namespace LiveJson

inductive Tree (ι : Type) where
  | leaf (value : Json)
  | array (label : ι) (items : List (Tree ι))
  | object (label : ι) (members : List (String × Tree ι))
deriving Inhabited

namespace Tree

variable {ι κ : Type}

def kind : Tree ι → Json.Kind
  | leaf value => value.kind
  | array .. => .array
  | object .. => .object

def isComposite (t : Tree ι) : Bool := t.kind.isComposite

mutual

def toJson : Tree ι → Json
  | leaf value => value
  | array _ items => .array (itemsToJson items)
  | object _ members => .object (membersToJson members)
termination_by structural t => t

def itemsToJson : List (Tree ι) → List Json
  | [] => []
  | t :: ts => t.toJson :: itemsToJson ts
termination_by structural ts => ts

def membersToJson : List (String × Tree ι) → List (String × Json)
  | [] => []
  | (name, t) :: rest => (name, t.toJson) :: membersToJson rest
termination_by structural ts => ts

end

mutual

/-- The same tree under other labels. -/
def relabel (f : ι → κ) : Tree ι → Tree κ
  | leaf value => leaf value
  | array label items => array (f label) (relabelItems f items)
  | object label members => object (f label) (relabelMembers f members)
termination_by structural t => t

def relabelItems (f : ι → κ) : List (Tree ι) → List (Tree κ)
  | [] => []
  | t :: ts => t.relabel f :: relabelItems f ts
termination_by structural ts => ts

def relabelMembers (f : ι → κ) : List (String × Tree ι) → List (String × Tree κ)
  | [] => []
  | (name, t) :: rest => (name, t.relabel f) :: relabelMembers f rest
termination_by structural ts => ts

end

/-- The elements of a list with their positions as keys. -/
def enumerate {α : Type} (start : Nat) : List α → List (Key × α)
  | [] => []
  | a :: as => (.index start, a) :: enumerate (start + 1) as

/-- The members in their order, by key. -/
def entries : Tree ι → List (Key × Tree ι)
  | leaf _ => []
  | array _ items => enumerate 0 items
  | object _ members => members.map fun (name, t) => (.name name, t)

/-- The member of an object, or the element of an array whose position the name spells. The key
comes back as the one under which `entries` lists it. -/
def get? (name : String) : Tree ι → Option (Key × Tree ι)
  | leaf _ => none
  | array _ items => do
    let i ← (Key.name name).asIndex
    let t ← items[i]?
    some (.index i, t)
  | object _ members => (Members.get? name members).map fun t => (.name name, t)

/-- The member at a position; in an object, the one that the position spells. -/
def at? (i : Nat) : Tree ι → Option (Tree ι)
  | leaf _ => none
  | array _ items => items[i]?
  | object _ members => Members.get? (toString i) members

/-- The number of elements, for arrays only. -/
def length? : Tree ι → Option Nat
  | array _ items => some items.length
  | _ => none

def asFloat? : Tree ι → Option Float
  | leaf value => value.asFloat?
  | _ => none

/-- Whether two nodes are one and the same. Leaves have no identity beside their value. -/
def same [DecidableEq ι] : Tree ι → Tree ι → Bool
  | leaf v, leaf w => v == w
  | leaf _, _ | _, leaf _ => false
  | array a _, array b _ | array a _, object b _ | object a _, array b _ | object a _, object b _ =>
    a == b

/-- The node at a location, if there is one. -/
def find? : Path → Tree ι → Option (Tree ι)
  | [], t => some t
  | key :: path, t =>
    match t.get? key.toName with
    | some (_, child) => find? path child
    | none => none

end Tree

end LiveJson
