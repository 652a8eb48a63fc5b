import LiveJson.PathError
import LiveJson.Text.Basic

/-! Binding declarations, which tie a control to a location of a named model: `{users::$.name}`
reads it, `[users::$.name]` writes it too, and without delimiters or a model name it is read from
the model with the empty name. -/

namespace LiveJson

structure Binding where
  model : String
  path : String
  twoWay : Bool
deriving DecidableEq, Repr

namespace Binding

inductive Bracket where
  | curly
  | square
deriving DecidableEq

def Bracket.closer : Bracket → Char
  | curly => '}'
  | square => ']'

def opening? : List Char → Option Bracket × List Char
  | '{' :: cs => (some .curly, cs)
  | '[' :: cs => (some .square, cs)
  | cs => (none, cs)

/-- The last character as a closer, and what stands before it. -/
def closing? (cs : List Char) : Option Bracket × List Char :=
  match cs.getLast? with
  | some '}' => (some .curly, cs.dropLast)
  | some ']' => (some .square, cs.dropLast)
  | _ => (none, cs)

/-- The characters that the name of a model cannot have. -/
def isReserved (c : Char) : Bool :=
  c == '{' || c == '[' || c == '}' || c == ']' || c == '.' || c == '$' || c == '@' || c == '#' ||
    c == ':' || c == '?' || c == '(' || c == ')'

/-- The name of the model, if two colons follow it, and the rest. -/
def splitModel (cs : List Char) : List Char × List Char :=
  match cs.dropWhile fun c => !isReserved c with
  | ':' :: ':' :: rest => (cs.takeWhile fun c => !isReserved c, rest)
  | _ => ([], cs)

def parse (declaration : String) : Except PathError Binding :=
  let cs := declaration.toList
  let fail := fun wanted =>
    .error { cause := .delimiters declaration wanted, span := ⟨0, Text.byteLength cs⟩ }
  let (opener, body) := opening? cs
  let (model, body) := splitModel body
  let (closer, path) := closing? body
  if path.contains '\n' then fail "\x7b or ["
  else if opener = closer then
    .ok {
      model := String.ofList model
      path := String.ofList (Text.trim path)
      twoWay := opener = some .square }
  else
    match opener, closer with
    | some .curly, _ => fail "\x7d"
    | some .square, _ => fail "]"
    | none, some .curly => fail "\x7b"
    | none, _ => fail "["

def toText (b : Binding) : String :=
  let (opener, closer) := if b.twoWay then ('[', ']') else ('{', '}')
  String.ofList (opener :: (b.model.toList ++ ':' :: ':' :: (b.path.toList ++ [closer])))

end Binding

end LiveJson
