import LiveJson.Decimal.Numeral
import LiveJson.Members

/-! JSON values. An integer and a double are different numbers even when they are equal in amount,
and the members of an object keep the order in which they were first given. -/

namespace LiveJson

inductive Number where
  | int (value : Int)
  | float (value : Float)

inductive Json where
  | null
  | bool (value : Bool)
  | number (value : Number)
  | string (value : String)
  | array (items : List Json)
  | object (members : List (String × Json))
deriving Inhabited

namespace Number

def toFloat : Number → Float
  | .int value => Float.ofInt value
  | .float value => value

def beq : Number → Number → Bool
  | .int a, .int b => a == b
  | .float a, .float b => a == b
  | _, _ => false

instance : BEq Number := ⟨beq⟩

end Number

namespace Json

inductive Kind where
  | null
  | bool
  | number
  | string
  | array
  | object
deriving DecidableEq

def kind : Json → Kind
  | null => .null
  | bool _ => .bool
  | number _ => .number
  | string _ => .string
  | array _ => .array
  | object _ => .object

def Kind.isComposite : Kind → Bool
  | .array | .object => true
  | _ => false

def isComposite (v : Json) : Bool := v.kind.isComposite

mutual

/-- Equality of values: the order of members does not count. -/
def beq : Json → Json → Bool
  | null, null => true
  | bool a, bool b => a == b
  | number a, number b => a == b
  | string a, string b => a == b
  | array a, array b => beqItems a b
  | object a, object b => a.length == b.length && beqMembers a b
  | _, _ => false
termination_by structural v => v

def beqItems : List Json → List Json → Bool
  | [], [] => true
  | v :: vs, w :: ws => v.beq w && beqItems vs ws
  | _, _ => false
termination_by structural vs => vs

def beqMembers : List (String × Json) → List (String × Json) → Bool
  | [], _ => true
  | (name, v) :: rest, members =>
    (match Members.get? name members with
      | some w => v.beq w
      | none => false) && beqMembers rest members
termination_by structural ms => ms

end

instance : BEq Json := ⟨beq⟩

def asFloat? : Json → Option Float
  | number n => some n.toFloat
  | _ => none

def get? (name : String) : Json → Option Json
  | object members => Members.get? name members
  | _ => none

mutual

/-- No object has a name twice. -/
def WellFormed : Json → Prop
  | array items => ItemsWellFormed items
  | object members => (Members.names members).Nodup ∧ MembersWellFormed members
  | _ => True
termination_by structural v => v

def ItemsWellFormed : List Json → Prop
  | [] => True
  | v :: vs => v.WellFormed ∧ ItemsWellFormed vs
termination_by structural vs => vs

def MembersWellFormed : List (String × Json) → Prop
  | [] => True
  | (_, v) :: rest => v.WellFormed ∧ MembersWellFormed rest
termination_by structural ms => ms

end

end Json

end LiveJson
