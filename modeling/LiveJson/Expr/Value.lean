import LiveJson.Json.Basic
import LiveJson.Text.Basic

/-! The values of expressions that are not nodes of a document, with their conversions to truth, to
numbers and to text. -/

namespace LiveJson.Expr

inductive Value where
  | undefined
  | null
  | bool (value : Bool)
  | number (value : Float)
  | string (text : String)
  | array (items : List Json)
  | object (members : List (String × Json))

namespace Value

/-- Every number becomes a double. -/
def ofJson : Json → Value
  | .null => null
  | .bool b => bool b
  | .number n => number n.toFloat
  | .string s => string s
  | .array items => array items
  | .object members => object members

def isTruthy : Value → Bool
  | undefined | null => false
  | bool b => b
  | number x => !(x.isNaN || x == 0.0)
  | string s => s != ""
  | array _ | object _ => true

def nan : Float := 0.0 / 0.0

/-- Blank text counts as zero, and so does an empty array. -/
def toNumber : Value → Float
  | undefined => nan
  | null => 0.0
  | bool b => if b then 1.0 else 0.0
  | number x => x
  | string s =>
    let cs := Text.trim s.toList
    if cs.isEmpty then 0.0 else (Decimal.read cs).getD nan
  | array [] => 0.0
  | array _ | object _ => nan

mutual

/-- The text of a document value inside a longer text. -/
def textOf : Json → String
  | .null => "null"
  | .bool b => if b then "true" else "false"
  | .number n => Decimal.computed n.toFloat
  | .string s => s
  | .array items => joined items
  | .object _ => "[object Object]"
termination_by structural v => v

/-- The texts of the elements with commas between them, where a null leaves its place empty. -/
def joined : List Json → String
  | [] => ""
  | v :: vs =>
    let text := if v.kind == .null then "" else textOf v
    if vs.isEmpty then text else text ++ "," ++ joined vs
termination_by structural vs => vs

end

def toText : Value → String
  | undefined => "undefined"
  | null => "null"
  | bool b => if b then "true" else "false"
  | number x => Decimal.computed x
  | string s => s
  | array items => joined items
  | object _ => "[object Object]"

/-- Equality of values of one type. -/
def beq : Value → Value → Bool
  | undefined, undefined => true
  | null, null => true
  | bool a, bool b => a == b
  | number x, number y => x == y
  | string s, string t => s == t
  | array vs, array ws => Json.beqItems vs ws
  | object ms, object ns => ms.length == ns.length && Json.beqMembers ms ns
  | _, _ => false

instance : BEq Value := ⟨beq⟩

/-- Equality across types: undefined and null are equal to each other alone, and where a truth value
or both a number and a string are compared, the numbers decide. -/
def looselyEquals : Value → Value → Bool
  | undefined, undefined | undefined, null | null, undefined | null, null => true
  | undefined, _ | null, _ | _, undefined | _, null => false
  | a@(number _), b@(string _) | a@(string _), b@(number _) => a.toNumber == b.toNumber
  | a@(bool _), b | a, b@(bool _) => a.toNumber == b.toNumber
  | a, b => a == b

/-- Two strings are ordered by code points, anything else as numbers, of which NaN has no order. -/
def order? : Value → Value → Option Ordering
  | string s, string t => some (if s < t then .lt else if s = t then .eq else .gt)
  | a, b =>
    let x := a.toNumber
    let y := b.toNumber
    if x < y then some .lt
    else if x == y then some .eq
    else if y < x then some .gt
    else none

/-- Whether `+` joins texts when this is one of its operands. -/
def isTextual : Value → Bool
  | string _ | array _ | object _ => true
  | _ => false

end Value

end LiveJson.Expr
