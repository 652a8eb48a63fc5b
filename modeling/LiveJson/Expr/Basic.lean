import LiveJson.Expr.Operator
import LiveJson.Expr.Token
import LiveJson.Text.Basic

/-! Expressions: what filters and computed keys are made of. Each node carries the span of its
text. -/

namespace LiveJson

namespace Expr

inductive Literal where
  | undefined
  | null
  | bool (value : Bool)
  | number (value : Float)
  | string (value : String)

end Expr

inductive Expr where
  | literal (span : Span) (value : Expr.Literal)
  | subject (span : Span) (which : Expr.Subject)
  | binding (span : Span) (name : String)
  | member (span : Span) (object : Expr) (name : String)
  | index (span : Span) (object key : Expr)
  | not (span : Span) (operand : Expr)
  | negate (span : Span) (operand : Expr)
  | binary (span : Span) (op : Expr.Operator) (left right : Expr)

namespace Expr

def span : Expr → Span
  | literal s _ | subject s _ | binding s _ | member s _ _ | index s _ _ | not s _ | negate s _
  | binary s _ _ _ => s

def isLiteral : Expr → Bool
  | literal .. => true
  | _ => false

/-- The span from the start of one expression to the end of another. -/
def across (left right : Expr) : Span := { start := left.span.start, stop := right.span.stop }

/-- The same expression with every span set to the empty one at the start. -/
def unspanned : Expr → Expr
  | literal _ value => literal ⟨0, 0⟩ value
  | subject _ which => subject ⟨0, 0⟩ which
  | binding _ name => binding ⟨0, 0⟩ name
  | member _ object name => member ⟨0, 0⟩ object.unspanned name
  | index _ object key => index ⟨0, 0⟩ object.unspanned key.unspanned
  | not _ operand => not ⟨0, 0⟩ operand.unspanned
  | negate _ operand => negate ⟨0, 0⟩ operand.unspanned
  | binary _ op left right => binary ⟨0, 0⟩ op left.unspanned right.unspanned

end Expr

end LiveJson
