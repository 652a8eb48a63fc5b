import LiveJson.Decimal.Numeral
import LiveJson.Json.Basic
import LiveJson.Text.Basic

/-! Keys and locations. A key leads from an array or an object to one of its members. A location is the
list of keys on the way to it from the root of the document, and has two texts: the canonical one,
which is a path expression, and the JSON pointer. -/

namespace LiveJson

inductive Key where
  | index (i : Nat)
  | name (text : String)
deriving DecidableEq, Repr, Inhabited

abbrev Path := List Key

namespace Key

/-- Positions are 64-bit numbers. -/
def indexBound : Nat := Nat.pow 2 64

/-- The position that a run of digits denotes, unless it is too large for one. -/
def position? (cs : List Char) : Option Nat :=
  if !cs.isEmpty && cs.all Decimal.isDigit then
    let n := Decimal.ofDigits cs
    if n < indexBound then some n else none
  else none

/-- The array position that the key addresses. A name of digits addresses one too. -/
def asIndex : Key → Option Nat
  | index i => some i
  | name text => position? text.toList

def toName : Key → String
  | index i => toString i
  | name text => text

/-- A key as a value of a document; no key is `null`. -/
def toJson : Option Key → Json
  | some (index i) => .number (.int i)
  | some (name text) => .string text
  | none => .null

/-- A string or a natural number as a key. -/
def ofJson? : Json → Option Key
  | .string text => some (name text)
  | .number (.int i) => if 0 ≤ i then some (index i.toNat) else none
  | _ => none

@[simp] theorem asIndex_index (i : Nat) : (index i).asIndex = some i := rfl

@[simp] theorem toName_name (text : String) : (name text).toName = text := rfl

end Key

/-! ## The canonical text

First `$`, then one bracketed key after the other. A name of digits and stars stands bare, like an
index; any other name is quoted. -/

/-- A name that needs no quotes between brackets. -/
def Key.isBare (cs : List Char) : Bool :=
  !cs.isEmpty && cs.all fun c => Decimal.isDigit c || c == '*'

def Key.render : Key → List Char
  | .index i => '[' :: (Nat.toDigits 10 i ++ [']'])
  | .name text =>
    let cs := text.toList
    if isBare cs then '[' :: (cs ++ [']'])
    else '[' :: '\'' :: (Text.escape '\'' cs ++ ['\'', ']'])

namespace Path

def canonical (path : Path) : List Char := '$' :: path.flatMap Key.render

def toText (path : Path) : String := String.ofList (canonical path)

theorem canonical_append (p r : Path) :
    canonical (p ++ r) = canonical p ++ r.flatMap Key.render := by
  simp [canonical]

/-! ## The pointer

A slash before each name, with `~` written as `~0` and `/` as `~1`. -/

def escapePointer : List Char → List Char
  | [] => []
  | '~' :: cs => '~' :: '0' :: escapePointer cs
  | '/' :: cs => '~' :: '1' :: escapePointer cs
  | c :: cs => c :: escapePointer cs

def pointer (path : Path) : List Char :=
  path.flatMap fun key => '/' :: escapePointer key.toName.toList

def toPointer (path : Path) : String := String.ofList (pointer path)

end Path

end LiveJson
