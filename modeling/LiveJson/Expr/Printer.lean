import LiveJson.Decimal.Numeral
import LiveJson.Expr.Basic
import LiveJson.Text.Hidden

/-! The text of an expression. Logical and arithmetic operations stand in parentheses, comparisons
and prefix operations do not. -/

namespace LiveJson.Expr

/-- Characters that do not show are written by number, in as few hexadecimal digits as possible, unless
they have a letter of their own. -/
def escapeChar (c : Char) : List Char :=
  match c with
  | '"' => ['\\', '"']
  | '\\' => ['\\', '\\']
  | '\n' => ['\\', 'n']
  | '\r' => ['\\', 'r']
  | '\t' => ['\\', 't']
  | '\x00' => ['\\', '0']
  | c =>
    if Text.isHidden c then
      '\\' :: 'u' :: '\x7b' :: (Nat.toDigits 16 c.toNat ++ ['\x7d'])
    else [c]

def quote (text : String) : List Char := '"' :: (text.toList.flatMap escapeChar ++ ['"'])

def Literal.print : Literal → List Char
  | undefined => "undefined".toList
  | null => "null".toList
  | bool value => (if value then "true" else "false").toList
  | number value => Decimal.plain value
  | string value => quote value

def print : Expr → List Char
  | literal _ value => value.print
  | subject _ which => which.text.toList
  | binding _ name => name.toList
  | member _ object name => object.print ++ '.' :: name.toList
  | index _ object key => object.print ++ '[' :: (key.print ++ [']'])
  | not _ operand => '!' :: operand.print
  | negate _ operand => '-' :: operand.print
  | binary _ (.comparison op) left right =>
    left.print ++ ' ' :: (op.text.toList ++ ' ' :: right.print)
  | binary _ op left right =>
    '(' :: (left.print ++ ' ' :: (op.text.toList ++ ' ' :: (right.print ++ [')'])))

def toText (e : Expr) : String := String.ofList e.print

end LiveJson.Expr
