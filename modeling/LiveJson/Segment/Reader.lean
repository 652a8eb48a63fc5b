import LiveJson.Expr.Parser
import LiveJson.Segment.Basic
import LiveJson.Text.Basic

/-! Reading a path expression into segments. A NUL character outside brackets ends the path like
the end of the text. Positions count bytes of the whole path. -/

namespace LiveJson.Segment

def isQuote (c : Char) : Bool := c == '\'' || c == '"'

/-- Where a scan of bracketed text stands. A quoted part remembers where its quote opened. -/
inductive ScanMode where
  | plain
  | quoted (quote : Char) (start : Nat)
  | escaped (quote : Char) (start : Nat)

/-- The closing character that an opening one waits for. -/
def closerOf? : Char → Option Char
  | '[' => some ']'
  | '(' => some ')'
  | '{' => some '}'
  | _ => none

def isCloser (c : Char) : Bool := c == ']' || c == ')' || c == '}'

/-- The text up to the closer of the bracket that opened at byte `opened`, and what follows it. The
stack holds the closers that are waited for, and `stop` is the length of the path in bytes. -/
def enclosed (opened stop : Nat) :
    ScanMode → List Char → Nat → List Char → Except PathError (List Char × List Char)
  | .plain, closers, _, [] =>
    .error { cause := .expected (closers.headD ']'), span := ⟨opened, stop⟩ }
  | .quoted quote start, _, _, [] | .escaped quote start, _, _, [] =>
    .error { cause := .expected quote, span := ⟨start, stop⟩ }
  | mode, closers, pos, c :: cs =>
    let go := fun mode closers => do
      let (content, rest) ← enclosed opened stop mode closers (pos + c.utf8Size) cs
      return (c :: content, rest)
    match mode with
    | .escaped quote start => go (.quoted quote start) closers
    | .quoted quote start =>
      if c = '\\' then go (.escaped quote start) closers
      else if c = quote then go .plain closers
      else go mode closers
    | .plain =>
      if isQuote c then go (.quoted c pos) closers
      else
        match closerOf? c with
        | some closer => go .plain (closer :: closers)
        | none =>
          if isCloser c then
            match closers with
            | [] => .error { cause := .expected ']', span := ⟨pos, pos + 1⟩ }
            | expected :: outer =>
              if c ≠ expected then .error { cause := .expected expected, span := ⟨pos, pos + 1⟩ }
              else if outer.isEmpty then .ok ([], cs)
              else go .plain outer
          else go .plain closers

/-- Splits at the commas outside quotes and all delimiters: the first piece and the others. -/
def splitTop : Option Char → Bool → Nat → List Char → List Char × List (List Char)
  | _, _, _, [] => ([], [])
  | quote?, escaped, depth, c :: cs =>
    let keep := fun (quote? : Option Char) (escaped : Bool) (depth : Nat) =>
      let (piece, pieces) := splitTop quote? escaped depth cs
      (c :: piece, pieces)
    match quote? with
    | some quote =>
      if escaped then keep quote? false depth
      else if c = '\\' then keep quote? true depth
      else if c = quote then keep none false depth
      else keep quote? false depth
    | none =>
      if isQuote c then keep (some c) false depth
      else if (closerOf? c).isSome then keep none false (depth + 1)
      else if isCloser c then keep none false (depth - 1)
      else if c = ',' ∧ depth = 0 then
        let (piece, pieces) := splitTop none false 0 cs
        ([], piece :: pieces)
      else keep none false depth

def stripSuffix? (c : Char) (cs : List Char) : Option (List Char) :=
  if cs.getLast? = some c then some cs.dropLast else none

/-- The text inside matching quotes, with its escapes resolved. -/
def unquote? : List Char → Option (List Char)
  | [] => none
  | c :: cs => if isQuote c then (stripSuffix? c cs).map Text.unescape else none

/-- An optional minus sign and digits, maybe none of either. -/
def takeBound (cs : List Char) : List Char × List Char :=
  match cs with
  | '-' :: cs => ('-' :: cs.takeWhile Decimal.isDigit, cs.dropWhile Decimal.isDigit)
  | cs => (cs.takeWhile Decimal.isDigit, cs.dropWhile Decimal.isDigit)

/-- The three bounds of a text in the form of a slice, where the second colon may be missing. -/
def sliceBounds? (cs : List Char) : Option (List Char × List Char × List Char) :=
  let (start, rest) := takeBound cs
  match rest with
  | ':' :: rest =>
    let (stop, rest) := takeBound rest
    let rest :=
      match rest with
      | ':' :: rest => rest
      | rest => rest
    let (step, rest) := takeBound rest
    if rest.isEmpty then some (start, stop, step) else none
  | _ => none

/-- A bound is a signed 64-bit number. -/
def readBound (span : Span) (cs : List Char) : Except PathError (Option Int) :=
  let fail := .error { cause := .badSliceBound (String.ofList cs), span }
  match cs with
  | [] => .ok none
  | ['-'] => fail
  | '-' :: digits =>
    let n := Decimal.ofDigits digits
    if n ≤ Nat.pow 2 63 then .ok (some (-(n : Int))) else fail
  | digits =>
    let n := Decimal.ofDigits digits
    if n < Nat.pow 2 63 then .ok (some n) else fail

def readSlice (span : Span) (start stop step : List Char) : Except PathError Segment := do
  let step ← readBound span step
  if step.any (· < 0) then .error { cause := .negativeStep, span }
  else
    let start ← readBound span start
    let stop ← readBound span stop
    return slice start stop step

/-- One alternative between brackets; `offset` is the byte where its text begins. -/
def readItem (offset : Nat) (text : List Char) : Except PathError Segment :=
  let offset := offset + Text.byteLength (text.takeWhile Text.isBlank)
  let item := Text.trim text
  let span : Span := ⟨offset, offset + Text.byteLength item⟩
  let missing := .error { cause := .expected ')', span := ⟨span.stop, span.stop⟩ }
  match item with
  | [] => .error { cause := .emptyBrackets, span }
  | '?' :: '(' :: rest =>
    match stripSuffix? ')' rest with
    | none => missing
    | some source => do
      let condition ← Expr.parse source (offset + 2)
      return filter condition (String.ofList source) span
  | '(' :: rest =>
    match stripSuffix? ')' rest with
    | none => missing
    | some source => do
      let key ← Expr.parse source (offset + 1)
      return computed key (String.ofList source) span
  | item =>
    match unquote? item with
    | some text => .ok (name (String.ofList text))
    | none =>
      if item = ['*'] then .ok wildcard
      else
        match sliceBounds? item with
        | some (start, stop, step) => readSlice span start stop step
        | none => .ok (name (String.ofList item))

def readItems (offset : Nat) : List (List Char) → Except PathError (List Segment)
  | [] => .ok []
  | text :: texts => do
    let item ← readItem offset text
    let items ← readItems (offset + Text.byteLength text + 1) texts
    return item :: items

/-- The segment that the text between two brackets makes. -/
def readBracketed (offset : Nat) (content : List Char) : Except PathError Segment :=
  match splitTop none false 0 content with
  | (text, []) => readItem offset text
  | (text, texts) => (readItems offset (text :: texts)).map union

/-- A type predicate at the front of the text, and the text behind it. -/
def testAhead? : List Char → Option (TypeTest × List Char)
  | '@' :: cs =>
    match cs.dropWhile Text.isAsciiLetter with
    | '(' :: ')' :: rest =>
      (TypeTest.ofName? (cs.takeWhile Text.isAsciiLetter)).map fun t => (t, rest)
    | _ => none
  | _ => none

/-- The characters that end a name without quotes. -/
def endsName (c : Char) : Bool :=
  c == '\x00' || c == '.' || c == '[' || c == ']' || c == '~' || c == '^'

/-- A name without quotes, up to one of the characters that end it or to a type predicate, and the
rest. A predicate does not end a name that is still empty. -/
def takeName : Bool → List Char → List Char × List Char
  | _, [] => ([], [])
  | started, c :: cs =>
    if endsName c || (started && (testAhead? (c :: cs)).isSome) then ([], c :: cs)
    else
      let (text, rest) := takeName true cs
      (c :: text, rest)

/-- What stands without brackets: a type predicate, `*`, `$` or a name. -/
def readDotted (pos : Nat) (cs : List Char) : Except PathError (Segment × List Char) :=
  match testAhead? cs with
  | some (t, rest) => .ok (test t, rest)
  | none =>
    match takeName false cs with
    | ([], rest) => .error { cause := .noName (rest.headD '\x00'), span := ⟨pos, pos + 1⟩ }
    | (['*'], rest) => .ok (wildcard, rest)
    | (['$'], rest) => .ok (root, rest)
    | (text, rest) => .ok (name (String.ofList text), rest)

def atEnd (cs : List Char) : Bool := cs.headD '\x00' == '\x00'

/-- The segments of the text from byte `pos` on, of a path of `stop` bytes. Each segment takes at
least one character, so the fuel covers a text that is shorter than it. -/
def readFrom (stop : Nat) : Nat → Nat → List Char → Except PathError (List Segment)
  | 0, _, _ => .ok []
  | fuel + 1, pos, cs =>
    let dotted := fun (pos : Nat) (cs : List Char) => do
      let (segment, rest) ← readDotted pos cs
      let pos := pos + (Text.byteLength cs - Text.byteLength rest)
      return segment :: (← readFrom stop fuel pos rest)
    if atEnd cs then .ok []
    else
      match cs with
      | '.' :: '.' :: '.' :: rest =>
        return descendant :: (← readFrom stop fuel (pos + 3) rest)
      | '.' :: '.' :: rest => return descendant :: (← readFrom stop fuel (pos + 2) rest)
      | '.' :: rest =>
        if atEnd rest then .error { cause := .endAfterDot, span := ⟨pos, pos + 1⟩ }
        else if rest.head? = some '[' then readFrom stop fuel (pos + 1) rest
        else dotted (pos + 1) rest
      | '[' :: rest => do
        let (content, rest) ← enclosed pos stop .plain [']'] (pos + 1) rest
        let segment ← readBracketed (pos + 1) content
        return segment :: (← readFrom stop fuel (pos + Text.byteLength content + 2) rest)
      | ']' :: _ => .error { cause := .strayBracket, span := ⟨pos, pos + 1⟩ }
      | '^' :: rest => return parent :: (← readFrom stop fuel (pos + 1) rest)
      | '~' :: rest => return propertyName :: (← readFrom stop fuel (pos + 1) rest)
      | cs => dotted pos cs

/-- The segments of a path expression. A leading `$` goes without saying, unless it stands alone. -/
def ofChars (path : List Char) : Except PathError (List Segment) :=
  let stop := Text.byteLength path
  if (Text.trim path).isEmpty then .error { cause := .emptyPath, span := ⟨0, stop⟩ }
  else
    match path with
    | '$' :: rest => if atEnd rest then .ok [root] else readFrom stop (path.length + 1) 1 rest
    | path => readFrom stop (path.length + 1) 0 path

def read (path : String) : Except PathError (List Segment) := ofChars path.toList

end LiveJson.Segment
