import LiveJson.Decimal.Numeral
import LiveJson.PathError
import LiveJson.Text.Letter
import LiveJson.Text.Basic

/-! Splitting the text of an expression into tokens. A lexeme cuts the front of the text into the
text that its token spans, what is skipped around it, and the rest; together they are the text
again. A NUL character ends an expression like the end of the text. -/

namespace LiveJson.Expr

def isSpace (c : Char) : Bool := c == ' ' || c == '\n' || c == '\r' || c == '\t'

def isNameStart (c : Char) : Bool := Text.isLetter c || c == '_' || c == '$'

def isNameChar (c : Char) : Bool := Text.isAlphanumeric c || c == '_' || c == '$'

/-- The characters that a string may have after a backslash, beside its own quote. -/
def isEscape (c : Char) : Bool :=
  c == 'b' || c == 'f' || c == 'n' || c == 'r' || c == 't' || c == 'u' || c == '/' || c == '\\'

structure Lexeme where
  kind : Token.Kind
  before : List Char := []
  text : List Char
  after : List Char := []
  rest : List Char

namespace Lexeme

def whole (l : Lexeme) : List Char := l.before ++ l.text ++ l.after ++ l.rest

def ofFault (fault : LexFault) (text rest : List Char) : Lexeme :=
  { kind := .fault fault, text := text, rest := rest }

def ofOperator (op : Operator) (text rest : List Char) : Lexeme :=
  { kind := .operator op, text := text, rest := rest }

/-- After the `@`. -/
def subject (cs : List Char) : Lexeme :=
  match cs with
  | [] => { kind := .subject .current, text := ['@'], rest := [] }
  | c :: _ =>
    if isNameStart c then
      let name := cs.takeWhile isNameChar
      let rest := cs.dropWhile isNameChar
      let text := '@' :: name
      if name = "parent".toList then { kind := .subject .parent, text, rest }
      else if name = "parentProperty".toList then { kind := .subject .parentProperty, text, rest }
      else if name = "property".toList then { kind := .subject .property, text, rest }
      else if name = "path".toList then { kind := .subject .path, text, rest }
      else ofFault (.unknownSubject (String.ofList text)) text rest
    else { kind := .subject .current, text := ['@'], rest := cs }

/-- A name, or one of the words for a value. -/
def word (cs : List Char) : Lexeme :=
  let text := cs.takeWhile isNameChar
  let rest := cs.dropWhile isNameChar
  let kind :=
    if text = "true".toList then .true
    else if text = "false".toList then .false
    else if text = "null".toList then .null
    else if text = "undefined".toList then .undefined
    else .name (String.ofList text)
  { kind, text, rest }

/-- After the digits and the fraction of a number. -/
def exponent (text rest : List Char) : Lexeme :=
  match rest with
  | e :: ds =>
    if e = 'e' || e = 'E' then
      let (sign, ds) :=
        match ds with
        | '+' :: ds => (['+'], ds)
        | '-' :: ds => (['-'], ds)
        | ds => ([], ds)
      let digits := ds.takeWhile Decimal.isDigit
      if digits.isEmpty then ofFault .noExponentDigit (text ++ e :: sign) ds
      else
        let text := text ++ e :: (sign ++ digits)
        { kind := .number (String.ofList text), text, rest := ds.dropWhile Decimal.isDigit }
    else { kind := .number (String.ofList text), text, rest }
  | [] => { kind := .number (String.ofList text), text, rest }

def number (cs : List Char) : Lexeme :=
  let whole := cs.takeWhile Decimal.isDigit
  match cs.dropWhile Decimal.isDigit with
  | '.' :: ds =>
    let fraction := ds.takeWhile Decimal.isDigit
    if fraction.isEmpty then ofFault .noFractionDigit (whole ++ ['.']) ds
    else exponent (whole ++ '.' :: fraction) (ds.dropWhile Decimal.isDigit)
  | rest => exponent whole rest

inductive StringEnd where
  | closed
  | unclosed
  | badEscape

/-- The text of a string after its opening quote, how it ends, and what follows. -/
def stringBody (quote : Char) : List Char → List Char × StringEnd × List Char
  | [] => ([], .unclosed, [])
  | '\\' :: [] => (['\\'], .badEscape, [])
  | '\\' :: e :: cs =>
    if isEscape e || e = quote then
      let (text, how, rest) := stringBody quote cs
      ('\\' :: e :: text, how, rest)
    else (['\\'], .badEscape, e :: cs)
  | c :: cs =>
    if c = '\x00' then ([], .unclosed, c :: cs)
    else if c = quote then ([], .closed, cs)
    else
      let (text, how, rest) := stringBody quote cs
      (c :: text, how, rest)

/-- After the opening quote. -/
def string (quote : Quote) (cs : List Char) : Lexeme :=
  let before := [quote.char]
  match stringBody quote.char cs with
  | (text, .closed, rest) =>
    { kind := .string quote (String.ofList text), before, text, after := [quote.char], rest }
  | (text, .unclosed, rest) => { kind := .fault (.unclosed quote.char), before, text, rest }
  | (text, .badEscape, rest) => { kind := .fault .badEscape, before, text, rest }

/-- The first lexeme of a text that starts with no space. -/
def first : List Char → Lexeme
  | [] => { kind := .finish, text := [], rest := [] }
  | '@' :: cs => subject cs
  | '.' :: cs => { kind := .dot, text := ['.'], rest := cs }
  | '[' :: cs => { kind := .openBracket, text := ['['], rest := cs }
  | ']' :: cs => { kind := .closeBracket, text := [']'], rest := cs }
  | '(' :: cs => { kind := .openParen, text := ['('], rest := cs }
  | ')' :: cs => { kind := .closeParen, text := [')'], rest := cs }
  | '\'' :: cs => string .single cs
  | '"' :: cs => string .double cs
  | '!' :: '=' :: '=' :: cs => ofOperator (.comparison .strictNe) ['!', '=', '='] cs
  | '!' :: '=' :: cs => ofOperator (.comparison .ne) ['!', '='] cs
  | '!' :: cs => { kind := .not, text := ['!'], rest := cs }
  | '=' :: '=' :: '=' :: cs => ofOperator (.comparison .strictEq) ['=', '=', '='] cs
  | '=' :: '=' :: cs => ofOperator (.comparison .eq) ['=', '='] cs
  | '=' :: cs => ofFault .assignment ['='] cs
  | '<' :: '=' :: cs => ofOperator (.comparison .le) ['<', '='] cs
  | '<' :: cs => ofOperator (.comparison .lt) ['<'] cs
  | '>' :: '=' :: cs => ofOperator (.comparison .ge) ['>', '='] cs
  | '>' :: cs => ofOperator (.comparison .gt) ['>'] cs
  | '&' :: '&' :: cs => ofOperator (.logical .and) ['&', '&'] cs
  | '&' :: cs => ofFault .loneAmpersand ['&'] cs
  | '|' :: '|' :: cs => ofOperator (.logical .or) ['|', '|'] cs
  | '|' :: cs => ofFault .loneBar ['|'] cs
  | '+' :: cs => ofOperator (.arithmetic .add) ['+'] cs
  | '-' :: cs => ofOperator (.arithmetic .subtract) ['-'] cs
  | '*' :: cs => ofOperator (.arithmetic .multiply) ['*'] cs
  | '/' :: cs => ofOperator (.arithmetic .divide) ['/'] cs
  | '%' :: cs => ofOperator (.arithmetic .remainder) ['%'] cs
  | c :: cs =>
    if c = '\x00' then { kind := .finish, text := [], rest := c :: cs }
    else if Decimal.isDigit c then number (c :: cs)
    else if isNameStart c then word (c :: cs)
    else ofFault (.unexpected c) [c] cs

/-- Directly after a dot only a name can stand, and it may begin with a digit. -/
def member (cs : List Char) : Lexeme :=
  let text := cs.takeWhile isNameChar
  let rest := cs.dropWhile isNameChar
  if text.isEmpty then ofFault (.noMemberName (cs.headD '\x00')) [] cs
  else { kind := .name (String.ofList text), text, rest }

def token (l : Lexeme) (pos : Nat) : Token :=
  let start := pos + Text.byteLength l.before
  { kind := l.kind, span := { start, stop := start + Text.byteLength l.text } }

def width (l : Lexeme) : Nat := Text.byteLength (l.before ++ l.text ++ l.after)

end Lexeme

/-- The tokens of a text whose first byte is at `pos`, up to the end or the first fault. Each lexeme
but the last takes a character, so the fuel covers a text that is shorter than it. -/
def Token.scan : Nat → Bool → Nat → List Char → List Token
  | 0, _, _, _ => []
  | fuel + 1, afterDot, pos, cs =>
    let space := if afterDot then [] else cs.takeWhile isSpace
    let cs := if afterDot then cs else cs.dropWhile isSpace
    let pos := pos + Text.byteLength space
    let lexeme := if afterDot then Lexeme.member cs else Lexeme.first cs
    let token := lexeme.token pos
    match lexeme.kind with
    | .finish | .fault _ => [token]
    | kind => token :: scan fuel (kind == .dot) (pos + lexeme.width) lexeme.rest

/-- The tokens of `text`, which stands at byte `offset` of a path. -/
def tokenize (text : List Char) (offset : Nat) : List Token :=
  Token.scan (text.length + 1) false offset text

/-- The tokens of a text without a fault. -/
def lex (text : List Char) (offset : Nat) : Except PathError (List Token) :=
  let tokens := tokenize text offset
  match tokens.getLast? with
  | some { kind := .fault cause, span } => .error { cause := .lexical cause, span }
  | _ => .ok tokens

end LiveJson.Expr
