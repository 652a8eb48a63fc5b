/-! The binary operators of expressions, and how tightly each binds. -/

namespace LiveJson.Expr

inductive Logical where
  | and
  | or
deriving DecidableEq, Repr

inductive Comparison where
  | eq
  | ne
  | strictEq
  | strictNe
  | ge
  | gt
  | le
  | lt
deriving DecidableEq, Repr

inductive Arithmetic where
  | add
  | subtract
  | multiply
  | divide
  | remainder
deriving DecidableEq, Repr

inductive Operator where
  | logical (op : Logical)
  | comparison (op : Comparison)
  | arithmetic (op : Arithmetic)
deriving DecidableEq, Repr

def Logical.text : Logical → String
  | and => "&&"
  | or => "||"

def Comparison.text : Comparison → String
  | eq => "=="
  | ne => "!="
  | strictEq => "==="
  | strictNe => "!=="
  | ge => ">="
  | gt => ">"
  | le => "<="
  | lt => "<"

def Arithmetic.text : Arithmetic → String
  | add => "+"
  | subtract => "-"
  | multiply => "*"
  | divide => "/"
  | remainder => "%"

namespace Operator

def text : Operator → String
  | logical op => op.text
  | comparison op => op.text
  | arithmetic op => op.text

/-- From `||`, which binds least, to the multiplicative operators. All bind to the left. -/
def precedence : Operator → Nat
  | logical .or => 1
  | logical .and => 2
  | comparison .eq | comparison .ne | comparison .strictEq | comparison .strictNe => 3
  | comparison _ => 4
  | arithmetic .add | arithmetic .subtract => 5
  | arithmetic _ => 6

/-- Tighter than any binary operator: the strength of the prefix operators. -/
def tightest : Nat := 7

end Operator

end LiveJson.Expr
