import LiveJson.Expr.Token

/-! What can be wrong with a path expression, a binding or an evaluation: a cause, and the span of
text that it concerns. -/

namespace LiveJson

inductive PathError.Kind where
  | syntaxError
  | evalError
  | typeError
deriving DecidableEq, Repr

/-- Which form of computed segment is meant. -/
inductive Computed where
  | filter
  | key
deriving DecidableEq, Repr

inductive PathError.Cause where
  -- reading a path
  | emptyPath
  | endAfterDot
  | strayBracket
  | noName (found : Char)
  | expected (closer : Char)
  | emptyBrackets
  | badSliceBound (text : String)
  | negativeStep
  -- reading an expression
  | lexical (fault : Expr.LexFault)
  | emptyExpression
  | notFinished (found : Expr.Token.Kind)
  | notMemberName (found : Expr.Token.Kind)
  | notCloser (closer : Char) (found : Expr.Token.Kind)
  | unbalanced
  | badNumber
  | unfinished
  | notOperand (found : Expr.Token.Kind)
  | badEscape
  | badUnicodeEscape
  -- evaluating
  | unbound (name : String)
  | noProperties (value name : String)
  | inExpression (source : String) (cause : PathError.Cause)
  | prevented (computed : Computed)
  | noClassifier
  -- options and bindings
  | unknownResultType (text : String)
  | delimiters (declaration wanted : String)
deriving DecidableEq, Repr

structure PathError where
  cause : PathError.Cause
  span : Span
deriving DecidableEq, Repr

namespace PathError

def Cause.kind : Cause → Kind
  | unbound _ | prevented _ => .evalError
  | noProperties .. | noClassifier | unknownResultType _ => .typeError
  | inExpression _ cause => cause.kind
  | _ => .syntaxError

def Cause.message : Cause → String
  | emptyPath => "empty path expression"
  | endAfterDot => "unexpected end of path after '.'"
  | strayBracket => "unexpected ']'"
  | noName found => "expected a name, found '" ++ found.toString ++ "'"
  | expected closer => "expected '" ++ closer.toString ++ "'"
  | emptyBrackets => "empty bracketed segment"
  | badSliceBound text => "invalid slice bound '" ++ text ++ "'"
  | negativeStep => "slice step must not be negative"
  | lexical fault => fault.message
  | emptyExpression => "empty expression"
  | notFinished found => "expected end of expression, found " ++ found.display
  | notMemberName found => "expected a member name, found " ++ found.display
  | notCloser closer found => "expected '" ++ closer.toString ++ "', found " ++ found.display
  | unbalanced => "unbalanced parentheses, expected ')'"
  | badNumber => "invalid number literal"
  | unfinished => "unexpected end of expression"
  | notOperand found => "unexpected basic expression token " ++ found.display
  | badEscape => "invalid escape"
  | badUnicodeEscape => "invalid \\uXXXX escape"
  | unbound name => name ++ " is not defined"
  | noProperties value name =>
    "Cannot read properties of " ++ value ++ " (reading '" ++ name ++ "')"
  | inExpression source cause => "jsonPath: " ++ cause.message ++ ": " ++ source
  | prevented .filter => "Eval [?(expr)] prevented in JSONPath expression."
  | prevented .key => "Eval [(expr)] prevented in JSONPath expression."
  | noClassifier =>
    "You must supply an otherTypeCallback callback option with the @other() operator."
  | unknownResultType text => "unknown result type '" ++ text ++ "'"
  | delimiters declaration wanted =>
    "Path specified without the proper start or end delimiters in '" ++ declaration ++
      "'. Expected '" ++ wanted ++ "'."

def Kind.text : Kind → String
  | syntaxError => "syntax error:"
  | evalError => "eval error:"
  | typeError => "type error:"

def kind (e : PathError) : Kind := e.cause.kind

def message (e : PathError) : String :=
  e.kind.text ++ " " ++ e.cause.message ++ " (" ++ toString e.span.start ++ ".." ++
    toString e.span.stop ++ ")"

end PathError

/-! ## Outcomes

What it means that one computation after the other succeeds. -/

theorem bind_eq_ok {ε α β : Type} {x : Except ε α} {f : α → Except ε β} {b : β} :
    (x >>= f) = .ok b ↔ ∃ a, x = .ok a ∧ f a = .ok b := by
  cases x with
  | error e => constructor <;> simp [bind, Except.bind]
  | ok a => simp [bind, Except.bind]

theorem map_eq_ok {ε α β : Type} {x : Except ε α} {f : α → β} {b : β} :
    x.map f = .ok b ↔ ∃ a, x = .ok a ∧ f a = b := by
  cases x with
  | error e => constructor <;> simp [Except.map]
  | ok a => simp [Except.map]

/-- A change of results goes through a computation if it goes through each of its parts. -/
theorem bind_map {ε α α' β β' : Type} {x : Except ε α} {g : α → α'} {h : β → β'}
    {f : α → Except ε β} {f' : α' → Except ε β'} (hf : ∀ a, f' (g a) = (f a).map h) :
    (x.map g >>= f') = (x >>= f).map h := by
  cases x with
  | error e => rfl
  | ok a => exact hf a

end LiveJson
