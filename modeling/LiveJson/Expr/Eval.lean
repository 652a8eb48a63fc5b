import LiveJson.Expr.Basic
import LiveJson.Expr.Value
import LiveJson.Path.Basic
import LiveJson.PathError
import LiveJson.Text.Basic
import LiveJson.Tree.Basic

/-! Evaluating expressions over a document tree. Nodes stay nodes as long as only their members are
asked for, so that two of them can be compared by identity; scalars become values when compared. -/

namespace LiveJson.Expr

variable {ι : Type}

inductive Operand (ι : Type) where
  | node (tree : Tree ι)
  | value (v : Value)

namespace Operand

def toValue : Operand ι → Value
  | node t => Value.ofJson t.toJson
  | value v => v

/-- A scalar node as a value. -/
def normalize : Operand ι → Operand ι
  | node t => if t.isComposite then node t else value (Value.ofJson t.toJson)
  | op => op

def isTruthy : Operand ι → Bool
  | node t => t.isComposite || (Value.ofJson t.toJson).isTruthy
  | value v => v.isTruthy

def toText (op : Operand ι) : String := op.toValue.toText

end Operand

/-- All that an expression can see. -/
structure Scope (ι : Type) where
  subject : Tree ι
  parent : Option (Tree ι)
  path : Path
  bindings : List (String × Json)

def Value.ofKey : Option Key → Value
  | some (.index i) => .number (Float.ofNat i)
  | some (.name text) => .string text
  | none => .null

/-- A member of a value. A string is measured in UTF-16 units but indexed by characters. -/
def Value.member (name : String) (span : Span) : Value → Except PathError Value
  | undefined => .error { cause := .noProperties "undefined" name, span }
  | null => .error { cause := .noProperties "null" name, span }
  | string text =>
    if name = "length" then .ok (.number (Float.ofNat (Text.units16 text.toList)))
    else
      match (Key.name name).asIndex.bind fun i => text.toList[i]? with
      | some c => .ok (.string c.toString)
      | none => .ok .undefined
  | array items =>
    if name = "length" then .ok (.number (Float.ofNat items.length))
    else
      match (Key.name name).asIndex.bind fun i => items[i]? with
      | some v => .ok (Value.ofJson v)
      | none => .ok .undefined
  | object members =>
    match Members.get? name members with
    | some v => .ok (Value.ofJson v)
    | none => .ok .undefined
  | _ => .ok .undefined

def Operand.member (name : String) (span : Span) : Operand ι → Except PathError (Operand ι)
  | node t =>
    if t.isComposite then
      if name = "length" ∧ t.kind = .array then
        .ok (value (.number (Float.ofNat (t.length?.getD 0))))
      else
        match t.get? name with
        | some (_, child) => .ok (node child)
        | none => .ok (value .undefined)
    else ((Value.ofJson t.toJson).member name span).map value
  | value v => (v.member name span).map value

/-- Nodes are equal if they are the same node; a node never equals a value. -/
def Operand.strictlyEquals [DecidableEq ι] : Operand ι → Operand ι → Bool
  | node s, node t => s.same t
  | value v, value w => v == w
  | _, _ => false

def Operand.looselyEquals [DecidableEq ι] : Operand ι → Operand ι → Bool
  | value v, value w => v.looselyEquals w
  | a, b => a.strictlyEquals b

def Comparison.apply [DecidableEq ι] (op : Comparison) (a b : Operand ι) : Bool :=
  let order := a.toValue.order? b.toValue
  match op with
  | strictEq => a.strictlyEquals b
  | strictNe => !a.strictlyEquals b
  | eq => a.looselyEquals b
  | ne => !a.looselyEquals b
  | lt => order == some .lt
  | le => order == some .lt || order == some .eq
  | gt => order == some .gt
  | ge => order == some .gt || order == some .eq

def Arithmetic.apply (op : Arithmetic) (a b : Value) : Value :=
  if op = .add ∧ (a.isTextual || b.isTextual) then .string (a.toText ++ b.toText)
  else
    let x := a.toNumber
    let y := b.toNumber
    match op with
    | add => .number (x + y)
    | subtract => .number (x - y)
    | multiply => .number (x * y)
    | divide => .number (x / y)
    | remainder => .number (Decimal.remainder x y)

def Literal.toValue : Literal → Value
  | undefined => .undefined
  | null => .null
  | bool b => .bool b
  | number x => .number x
  | string text => .string text

namespace Scope

def subjectValue (scope : Scope ι) : Subject → Operand ι
  | .current => .node scope.subject
  | .parent =>
    match scope.parent with
    | some t => .node t
    | none => .value .null
  | .property => .value (Value.ofKey scope.path.getLast?)
  | .parentProperty => .value (Value.ofKey scope.path.dropLast.getLast?)
  | .path => .value (.string scope.path.toText)

/-- `&&` and `||` give one of their operands, and leave the second alone if the first decides. -/
def evaluate [DecidableEq ι] (scope : Scope ι) : Expr → Except PathError (Operand ι)
  | .literal _ v => .ok (.value v.toValue)
  | .subject _ which => .ok (scope.subjectValue which)
  | .binding span name =>
    match Members.get? name scope.bindings with
    | some v => .ok (.value (Value.ofJson v))
    | none => .error { cause := .unbound name, span }
  | .member span object name => do
    let object ← scope.evaluate object
    object.member name span
  | .index span object key => do
    let object ← scope.evaluate object
    let key ← scope.evaluate key
    object.member key.toText span
  | .not _ operand => do
    let v ← scope.evaluate operand
    return .value (.bool !v.isTruthy)
  | .negate _ operand => do
    let v ← scope.evaluate operand
    return .value (.number (-v.toValue.toNumber))
  | .binary _ (.logical op) left right => do
    let l ← scope.evaluate left
    match op, l.isTruthy with
    | .and, false | .or, true => return l
    | _, _ => scope.evaluate right
  | .binary _ (.comparison op) left right => do
    let l ← scope.evaluate left
    let r ← scope.evaluate right
    return .value (.bool (op.apply l.normalize r.normalize))
  | .binary _ (.arithmetic op) left right => do
    let l ← scope.evaluate left
    let r ← scope.evaluate right
    return .value (op.apply l.toValue r.toValue)

end Scope

end LiveJson.Expr
