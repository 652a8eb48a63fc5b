import LiveJson.Tree.Basic

/-! Matches, which are what a path expression finds in a document, and slices, which are some of the
places where it looks. -/

namespace LiveJson

variable {ι : Type}

/-- A node, or the key that was asked for in its place. -/
inductive Matched (ι : Type) where
  | node (tree : Tree ι)
  | key (key : Option Key)

structure Match (ι : Type) where
  path : Path
  matched : Matched ι
  parent : Option (Tree ι)
  parentKey : Option Key

def Matched.node? : Matched ι → Option (Tree ι)
  | node t => some t
  | key _ => none

def Matched.toJson : Matched ι → Json
  | node t => t.toJson
  | key k => Key.toJson k

/-- A decision about a node by the node, its location, its parent and its key. -/
abbrev Classifier (ι : Type) := Tree ι → Path → Option (Tree ι) → Option Key → Bool

/-! ## Slices

The positions of a slice are an arithmetic progression. Negative bounds count from the end, and all
bounds are clamped to the sequence. A step that is not positive counts as one. -/

structure Progression where
  first : Nat
  step : Nat
  count : Nat
deriving DecidableEq, Repr

namespace Progression

/-- At most `limit` terms. -/
def take (p : Progression) (limit : Nat) : List Nat :=
  (List.range (min limit p.count)).map fun i => p.first + i * p.step

def toList (p : Progression) : List Nat := p.take p.count

end Progression

namespace Slice

/-- A bound as a position from the start. -/
def clamp (len : Nat) (i : Int) : Nat :=
  if i < 0 then (i + len).toNat else (min i len).toNat

def stepOf : Option Int → Nat
  | some s => if 0 < s then s.toNat else 1
  | none => 1

def positions (len : Nat) (start stop step : Option Int) : Progression :=
  let first := clamp len (start.getD 0)
  let last := clamp len (stop.getD len)
  let step := stepOf step
  { first, step, count := (last - first + step - 1) / step }

end Slice

end LiveJson
