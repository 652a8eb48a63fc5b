import LiveJson.Path.Basic
import LiveJson.Query.Result

/-! Options of a query, and reading them from a document. -/

namespace LiveJson

/-- Where to look: a path expression, or the keys of one location. -/
inductive QueryPath where
  | expression (text : String)
  | keys (path : Path)
deriving DecidableEq, Repr

namespace QueryPath

/-- A leading key `$` stands for the root and is left out. -/
def toExpression : QueryPath → String
  | expression text => text
  | keys (.name "$" :: path) => Path.toText path
  | keys path => path.toText

def ofJson? : Json → Option QueryPath
  | .string text => some (expression text)
  | .array items => (items.mapM Key.ofJson?).map keys
  | _ => none

end QueryPath

structure QueryOptions where
  path : Option QueryPath := none
  resultType : ResultType := .value
  flatten : Bool := false
  wrap : Bool := true
  preventEval : Bool := false
  autoRun : Bool := true
  sandbox : List (String × Json) := []

namespace QueryOptions

inductive Field where
  | path
  | resultType
  | flatten
  | wrap
  | preventEval
  | autoRun
  | sandbox
deriving DecidableEq

def Field.all : List Field := [path, resultType, flatten, wrap, preventEval, autoRun, sandbox]

/-- Two of the fields have a second name. -/
def Field.ofName? : String → Option Field
  | "path" => some path
  | "resultType" => some resultType
  | "flatten" => some flatten
  | "wrap" => some wrap
  | "preventDynamicEvaluation" | "preventEval" => some preventEval
  | "autoRun" | "autostart" => some autoRun
  | "sandbox" => some sandbox
  | _ => none

def bool? : Json → Option Bool
  | .bool b => some b
  | _ => none

def set? (options : QueryOptions) (field : Field) (v : Json) : Option QueryOptions :=
  match field with
  | .path =>
    if v.kind = .null then some { options with path := none }
    else (QueryPath.ofJson? v).map fun p => { options with path := some p }
  | .resultType =>
    match v with
    | .string text =>
      match ResultType.read text with
      | .ok t => some { options with resultType := t }
      | .error _ => none
    | _ => none
  | .flatten => (bool? v).map fun b => { options with flatten := b }
  | .wrap => (bool? v).map fun b => { options with wrap := b }
  | .preventEval => (bool? v).map fun b => { options with preventEval := b }
  | .autoRun => (bool? v).map fun b => { options with autoRun := b }
  | .sandbox =>
    match v with
    | .object members => some { options with sandbox := members }
    | _ => none

/-- Sets the fields that are named, each at most once under either of its names; other members are
ignored. -/
def ofMembers? (options : QueryOptions) (seen : List Field) :
    List (String × Json) → Option QueryOptions
  | [] => some options
  | (name, v) :: rest =>
    match Field.ofName? name with
    | none => ofMembers? options seen rest
    | some field =>
      if field ∈ seen then none
      else (options.set? field v).bind fun options => ofMembers? options (field :: seen) rest

/-- Sets the fields in their order, as many as there are values. -/
def ofItems? (options : QueryOptions) : List Field → List Json → Option QueryOptions
  | _, [] => some options
  | [], _ :: _ => none
  | field :: fields, v :: vs =>
    (options.set? field v).bind fun options => ofItems? options fields vs

def ofJson? : Json → Option QueryOptions
  | .object members => ofMembers? {} [] members
  | .array items => ofItems? {} Field.all items
  | _ => none

end QueryOptions

end LiveJson
