import LiveJson.Expr.Operator
import LiveJson.Text.Basic

/-! The tokens of expressions. A fault found while splitting text is itself the last token. -/

namespace LiveJson.Expr

/-- Why no further token can be split off. -/
inductive LexFault where
  | assignment
  | loneAmpersand
  | loneBar
  | unexpected (c : Char)
  | unknownSubject (text : String)
  | noMemberName (found : Char)
  | badEscape
  | unclosed (quote : Char)
  | noFractionDigit
  | noExponentDigit
  | other (text : String)
deriving DecidableEq, Repr

def LexFault.message : LexFault → String
  | assignment => "assignment is not allowed, did you mean '=='?"
  | loneAmpersand => "unexpected '&', did you mean '&&'?"
  | loneBar => "unexpected '|', did you mean '||'?"
  | unexpected c => "unexpected expression token '" ++ c.toString ++ "'"
  | unknownSubject text => "unknown subject reference '" ++ text ++ "'"
  | noMemberName found => "expected a member name after '.', found '" ++ found.toString ++ "'"
  | badEscape => "invalid escape sequence"
  | unclosed quote => "unclosed string, expected '" ++ quote.toString ++ "'"
  | noFractionDigit => "a fractional digit is required after a decimal point"
  | noExponentDigit => "at least one exponent digit is required"
  | other text => text

/-- What an expression can say of the node it is evaluated on. -/
inductive Subject where
  | current
  | parent
  | property
  | parentProperty
  | path
deriving DecidableEq, Repr

def Subject.text : Subject → String
  | current => "@"
  | parent => "@parent"
  | property => "@property"
  | parentProperty => "@parentProperty"
  | path => "@path"

inductive Quote where
  | single
  | double
deriving DecidableEq, Repr

def Quote.char : Quote → Char
  | single => '\''
  | double => '"'

inductive Token.Kind where
  | finish
  | fault (cause : LexFault)
  | subject (which : Subject)
  | name (text : String)
  | number (text : String)
  | string (quote : Quote) (text : String)
  | undefined
  | null
  | true
  | false
  | dot
  | openBracket
  | closeBracket
  | openParen
  | closeParen
  | not
  | operator (op : Operator)
deriving DecidableEq, Repr

structure Token where
  kind : Token.Kind
  span : Span
deriving DecidableEq, Repr

/-- The token as error messages show it. -/
def Token.Kind.display : Token.Kind → String
  | finish => "'end of expression'"
  | fault f => "error: " ++ f.message
  | subject s => "'" ++ s.text ++ "'"
  | name text => "'" ++ text ++ "'"
  | number text => text
  | string .single text => "''" ++ text ++ "''"
  | string .double text => "'\"" ++ text ++ "\"'"
  | undefined => "'undefined'"
  | null => "'null'"
  | true => "'true'"
  | false => "'false'"
  | dot => "'.'"
  | openBracket => "'['"
  | closeBracket => "']'"
  | openParen => "'('"
  | closeParen => "')'"
  | not => "'!'"
  | operator op => "'" ++ op.text ++ "'"

end LiveJson.Expr
