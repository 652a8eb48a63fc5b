import LiveJson.Decimal.Numeral
import LiveJson.Segment.Basic
import LiveJson.Text.Basic

/-! The text of segments. -/

namespace LiveJson.Segment

def printBound : Option Int → List Char
  | some i => (toString i).toList
  | none => []

/-- A name stands bare between brackets if it is made of digits and minus signs. -/
def printName (text : List Char) : List Char :=
  if !text.isEmpty && text.all fun c => Decimal.isDigit c || c == '-' then text
  else '\'' :: (Text.escape '\'' text ++ ['\''])

mutual

/-- The text between the brackets. -/
def inner : Segment → List Char
  | root => ['$']
  | name text => printName text.toList
  | wildcard => ['*']
  | descendant => ['.', '.']
  | slice start stop step =>
    printBound start ++ ':' :: (printBound stop ++
      match step with
      | some i => ':' :: (toString i).toList
      | none => [])
  | union items => innerAll items
  | filter _ source _ => '?' :: '(' :: (source.toList ++ [')'])
  | computed _ source _ => '(' :: (source.toList ++ [')'])
  | parent => ['^']
  | propertyName => ['~']
  | test t => t.print
termination_by structural s => s

def innerAll : List Segment → List Char
  | [] => []
  | s :: ss => if ss.isEmpty then s.inner else s.inner ++ ',' :: innerAll ss
termination_by structural ss => ss

end

def print : Segment → List Char
  | root => ['$']
  | descendant => ['.', '.']
  | parent => ['^']
  | propertyName => ['~']
  | test t => t.print
  | s => '[' :: (s.inner ++ [']'])

/-- The text of a whole path, which always starts with `$`. -/
def printAll (segments : List Segment) : List Char :=
  let body := segments.flatMap print
  if body.head? = some '$' then body else '$' :: body

end LiveJson.Segment
