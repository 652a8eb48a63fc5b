import LiveJson.Expr.Basic
import LiveJson.Expr.Lexer
import LiveJson.Json.Reader
import LiveJson.PathError

/-! Reading an expression from its tokens by operator precedence. A string token has its escapes
resolved. Past the last token the list
reads as if it went on with end markers. Between two tokens at most four calls are nested, so four
units of fuel for each token are enough. -/

namespace LiveJson.Expr

/-! ## The text of a string token -/

/-- The number of four hexadecimal digits, of which a plus sign may replace the first. -/
def codeUnit? : List Char → Option Nat
  | '+' :: cs => Json.hexValue? cs
  | cs => Json.hexValue? cs

/-- The character with the given number, if there is one. -/
def scalar? (n : Nat) : Option Char := if h : n.isValidChar then some (Char.ofNatAux n h) else none

/-- The character that a single letter after a backslash stands for. -/
def escapeValue? : Char → Option Char
  | '\'' => some '\''
  | c => Json.unescape? c

/-- Resolves the escapes of the text between the quotes of a string token. -/
def unescape : List Char → Except PathError.Cause (List Char)
  | [] => .ok []
  | '\\' :: 'u' :: a :: b :: c :: d :: rest =>
    match (codeUnit? [a, b, c, d]).bind scalar? with
    | some ch => (unescape rest).map (ch :: ·)
    | none => .error .badUnicodeEscape
  | '\\' :: 'u' :: _ => .error .badUnicodeEscape
  | '\\' :: e :: rest =>
    match escapeValue? e with
    | some ch => (unescape rest).map (ch :: ·)
    | none => .error .badEscape
  | ['\\'] => .error .badEscape
  | c :: rest => (unescape rest).map (c :: ·)

/-! ## Operands and operators -/

abbrev Parsed := Except PathError (Expr × List Token)

def Token.ending : Token := { kind := .finish, span := ⟨0, 0⟩ }

def failAt {α : Type} (cause : PathError.Cause) (span : Span) : Except PathError α :=
  .error { cause, span }

/-- The expression that a single token stands for. -/
def ofToken (token : Token) : Except PathError Expr :=
  let span := token.span
  match token.kind with
  | .undefined => .ok (.literal span .undefined)
  | .null => .ok (.literal span .null)
  | .true => .ok (.literal span (.bool true))
  | .false => .ok (.literal span (.bool false))
  | .number text =>
    match Decimal.read text.toList with
    | some value => .ok (.literal span (.number value))
    | none => failAt .badNumber span
  | .string _ text =>
    match unescape text.toList with
    | .ok value => .ok (.literal span (.string (String.ofList value)))
    | .error cause => failAt cause span
  | .subject which => .ok (.subject span which)
  | .name text => .ok (.binding span text)
  | .finish => failAt .unfinished span
  | found => failAt (.notOperand found) span

mutual

/-- An operand and all operators after it that bind tighter than `min`. -/
def readExpression : Nat → Nat → List Token → Parsed
  | 0, _, _ => failAt .unfinished ⟨0, 0⟩
  | fuel + 1, min, ts => do
    let (left, ts) ← readOperand fuel ts
    readOperators fuel min left ts

def readOperators : Nat → Nat → Expr → List Token → Parsed
  | 0, _, _, _ => failAt .unfinished ⟨0, 0⟩
  | fuel + 1, min, left, ts =>
    match ts with
    | { kind := .operator op, .. } :: rest =>
      if op.precedence ≤ min then .ok (left, ts)
      else do
        let (right, rest) ← readExpression fuel op.precedence rest
        readOperators fuel min (.binary (across left right) op left right) rest
    | _ => .ok (left, ts)

/-- A prefix operator with its operand, or a primary expression with its accesses. -/
def readOperand : Nat → List Token → Parsed
  | 0, _ => failAt .unfinished ⟨0, 0⟩
  | fuel + 1, ts =>
    match ts with
    | { kind := .not, span } :: rest => do
      let (e, rest) ← readExpression fuel Operator.tightest rest
      .ok (.not { start := span.start, stop := e.span.stop } e, rest)
    | { kind := .operator (.arithmetic .subtract), span } :: rest => do
      let (e, rest) ← readExpression fuel Operator.tightest rest
      .ok (.negate { start := span.start, stop := e.span.stop } e, rest)
    | _ => do
      let (e, ts) ← readPrimary fuel ts
      readAccesses fuel e ts

/-- A single token or an expression in parentheses, whose span leaves them out. -/
def readPrimary : Nat → List Token → Parsed
  | 0, _ => failAt .unfinished ⟨0, 0⟩
  | fuel + 1, ts =>
    match ts with
    | { kind := .openParen, span } :: rest => do
      let (e, rest) ← readExpression fuel 0 rest
      let closer := rest.headD Token.ending
      match closer.kind with
      | .closeParen => .ok (e, rest.tail)
      | .finish => failAt .unbalanced span
      | found => failAt (.notCloser ')' found) closer.span
    | ts => do
      let e ← ofToken (ts.headD Token.ending)
      .ok (e, ts.tail)

/-- Member and index accesses, as many as follow. -/
def readAccesses : Nat → Expr → List Token → Parsed
  | 0, _, _ => failAt .unfinished ⟨0, 0⟩
  | fuel + 1, e, ts =>
    match ts with
    | { kind := .dot, .. } :: rest =>
      let token := rest.headD Token.ending
      match token.kind with
      | .name text =>
        let span := { start := e.span.start, stop := token.span.stop }
        readAccesses fuel (.member span e text) rest.tail
      | found => failAt (.notMemberName found) token.span
    | { kind := .openBracket, span } :: rest => do
      let (key, rest) ← readExpression fuel 0 rest
      let closer := rest.headD Token.ending
      match closer.kind with
      | .closeBracket =>
        let span := { start := e.span.start, stop := closer.span.stop }
        readAccesses fuel (.index span e key) rest.tail
      | .finish => failAt (.expected ']') span
      | found => failAt (.notCloser ']' found) closer.span
    | _ => .ok (e, ts)

end

/-- The expression that all the tokens up to the end marker make. -/
def ofTokens (ts : List Token) : Except PathError Expr :=
  match ts with
  | { kind := .finish, span } :: _ => failAt .emptyExpression span
  | _ => do
    let (e, rest) ← readExpression (4 * (ts.length + 1)) 0 ts
    let token := rest.headD Token.ending
    match token.kind with
    | .finish => .ok e
    | found => failAt (.notFinished found) token.span

/-- The expression that `text` is, standing at byte `offset` of a path. -/
def parse (text : List Char) (offset : Nat) : Except PathError Expr := do
  ofTokens (← lex text offset)

end LiveJson.Expr
