import LiveJson.Match.Basic
import LiveJson.Path.Basic
import LiveJson.PathError

/-! Results: matches in the shape that a query asks for. -/

namespace LiveJson

variable {ι : Type}

inductive ResultType where
  | value
  | path
  | pointer
  | parent
  | parentProperty
  | all
deriving DecidableEq, Repr

namespace ResultType

def name : ResultType → String
  | value => "value"
  | path => "path"
  | pointer => "pointer"
  | parent => "parent"
  | parentProperty => "parentProperty"
  | all => "all"

def every : List ResultType := [value, path, pointer, parent, parentProperty, all]

def fold (text : String) : List Char := text.toList.map Char.toLower

/-- The type of that name, in any mixture of cases. -/
def read (text : String) : Except PathError ResultType :=
  match every.find? fun t => fold t.name == fold text with
  | some t => .ok t
  | none => .error { cause := .unknownResultType text, span := ⟨0, 0⟩ }

end ResultType

/-- A match with its location in writing. -/
structure Record (ι : Type) where
  path : String
  pointer : String
  matched : Matched ι
  parent : Option (Tree ι)
  parentKey : Option Key

def Record.ofMatch (m : Match ι) : Record ι :=
  { path := m.path.toText, pointer := m.path.toPointer, matched := m.matched, parent := m.parent,
    parentKey := m.parentKey }

/-- An optional node as a value; no node is `null`. -/
def Tree.optionToJson : Option (Tree ι) → Json
  | some t => t.toJson
  | none => .null

def Record.toJson (r : Record ι) : Json :=
  .object [("path", .string r.path), ("pointer", .string r.pointer), ("value", r.matched.toJson),
    ("parent", Tree.optionToJson r.parent), ("parentProperty", Key.toJson r.parentKey)]

/-- One entry of a result. -/
inductive Output (ι : Type) where
  | value (tree : Tree ι)
  | property (key : Option Key)
  | path (text : String)
  | pointer (text : String)
  | parent (tree : Option (Tree ι))
  | all (record : Record ι)

namespace Output

def ofMatch (type : ResultType) (m : Match ι) : Output ι :=
  match type with
  | .value =>
    match m.matched with
    | .node t => value t
    | .key k => property k
  | .path => path m.path.toText
  | .pointer => pointer m.path.toPointer
  | .parent => parent m.parent
  | .parentProperty => property m.parentKey
  | .all => all (Record.ofMatch m)

def toJson : Output ι → Json
  | value t => t.toJson
  | property k => Key.toJson k
  | path text | pointer text => .string text
  | parent t => Tree.optionToJson t
  | all r => r.toJson

/-- The elements in place of an array, each as an entry of the same sort. -/
def splice : Output ι → List (Output ι)
  | value t =>
    if t.length?.isSome then t.entries.map fun entry => value entry.2 else [value t]
  | parent (some t) =>
    if t.length?.isSome then t.entries.map fun entry => parent (some entry.2) else [parent (some t)]
  | output => [output]

end Output

inductive Result (ι : Type) where
  | list (outputs : List (Output ι))
  /-- The only match, without a list around it. -/
  | single (output : Output ι)
  | nothing

namespace Result

def toList : Result ι → List (Output ι)
  | list outputs => outputs
  | single output => [output]
  | nothing => []

def isEmpty : Result ι → Bool
  | list outputs => outputs.isEmpty
  | single _ => false
  | nothing => true

def toJson : Result ι → Json
  | list outputs => .array (outputs.map Output.toJson)
  | single output => output.toJson
  | nothing => .null

def isArrayMatch (m : Match ι) : Bool := m.matched.node?.any fun t => t.length?.isSome

/-- The entries of all matches in order, with arrays spliced if `flatten` is on. -/
def entries (type : ResultType) (flatten : Bool) (ms : List (Match ι)) : List (Output ι) :=
  ms.flatMap fun m =>
    let output := Output.ofMatch type m
    if flatten then output.splice else [output]

/-- Without `wrap`, no match gives nothing and a lone match stands by itself, unless its node is an
array. -/
def ofMatches (type : ResultType) (wrap flatten : Bool) (ms : List (Match ι)) : Result ι :=
  if wrap then list (entries type flatten ms)
  else
    match ms with
    | [] => nothing
    | [m] =>
      if isArrayMatch m then list (entries type flatten [m]) else single (Output.ofMatch type m)
    | ms => list (entries type flatten ms)

end Result

end LiveJson
