import LiveJson.Expr.Basic

/-! Path segments: the steps that a path expression takes from the root of a document. -/

namespace LiveJson

/-- The predicates `@scalar()`, `@array()` and so on, that keep a node by its type. -/
inductive TypeTest where
  | scalar
  | boolean
  | string
  | undefined
  | function
  | number
  | nonFinite
  | object
  | array
  | other
  | integer
  | null
deriving DecidableEq, Repr

namespace TypeTest

def name : TypeTest → String
  | scalar => "scalar"
  | boolean => "boolean"
  | string => "string"
  | undefined => "undefined"
  | function => "function"
  | number => "number"
  | nonFinite => "nonFinite"
  | object => "object"
  | array => "array"
  | other => "other"
  | integer => "integer"
  | null => "null"

def all : List TypeTest :=
  [scalar, boolean, string, undefined, function, number, nonFinite, object, array, other, integer,
    null]

def ofName? (text : List Char) : Option TypeTest := all.find? fun t => t.name.toList == text

def print (t : TypeTest) : List Char := '@' :: (t.name.toList ++ ['(', ')'])

theorem ofName?_name (t : TypeTest) : ofName? t.name.toList = some t := by
  cases t <;> decide

end TypeTest

inductive Segment where
  /-- Stays where it is and forgets the parent. -/
  | root
  | name (text : String)
  | wildcard
  | descendant
  | slice (start stop step : Option Int)
  | union (items : List Segment)
  | filter (condition : Expr) (source : String) (span : Span)
  | computed (key : Expr) (source : String) (span : Span)
  | parent
  | propertyName
  | test (type : TypeTest)

end LiveJson
