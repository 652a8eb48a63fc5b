import LiveJson.Json.Basic

/-! Reading JSON text. Of a name that is given twice the last value counts, at the place of the
first. An integer that fits 64 bits, signed or unsigned, stays an integer; any other number is the
nearest double, and text whose nearest double is infinite is refused. Every reader returns the
text it leaves; the fuel is the length of the text, as each step takes at least one character. -/

namespace LiveJson.Json

def isSpace (c : Char) : Bool := c == ' ' || c == '\n' || c == '\t' || c == '\r'

def skipSpace (cs : List Char) : List Char := cs.dropWhile isSpace

def hexDigit? (c : Char) : Option Nat :=
  if '0' ≤ c && c ≤ '9' then some (c.toNat - '0'.toNat)
  else if 'a' ≤ c && c ≤ 'f' then some (c.toNat - 'a'.toNat + 10)
  else if 'A' ≤ c && c ≤ 'F' then some (c.toNat - 'A'.toNat + 10)
  else none

def hexValue? (cs : List Char) : Option Nat :=
  cs.foldlM (fun n c => (hexDigit? c).map (16 * n + ·)) 0

/-- Four hexadecimal digits. -/
def readUnit : List Char → Option (Nat × List Char)
  | a :: b :: c :: d :: rest => (hexValue? [a, b, c, d]).map fun n => (n, rest)
  | _ => none

/-- The character that the digits after `\u` denote; a high surrogate needs its low one. -/
def readCodePoint (cs : List Char) : Option (Char × List Char) := do
  let (n, rest) ← readUnit cs
  if 0xD800 ≤ n && n < 0xDC00 then
    match rest with
    | '\\' :: 'u' :: rest =>
      let (low, rest) ← readUnit rest
      if 0xDC00 ≤ low && low < 0xE000 then
        some (Char.ofNat (0x10000 + (n - 0xD800) * 0x400 + (low - 0xDC00)), rest)
      else none
    | _ => none
  else if 0xDC00 ≤ n && n < 0xE000 then none
  else some (Char.ofNat n, rest)

def unescape? : Char → Option Char
  | '"' => some '"'
  | '\\' => some '\\'
  | '/' => some '/'
  | 'b' => some '\x08'
  | 'f' => some '\x0c'
  | 'n' => some '\n'
  | 'r' => some '\r'
  | 't' => some '\t'
  | _ => none

/-- The rest of a string after its opening quote. -/
def readString : Nat → List Char → Option (List Char × List Char)
  | 0, _ => none
  | _ + 1, [] => none
  | _ + 1, '"' :: rest => some ([], rest)
  | fuel + 1, '\\' :: 'u' :: rest => do
    let (c, rest) ← readCodePoint rest
    let (cs, rest) ← readString fuel rest
    some (c :: cs, rest)
  | fuel + 1, '\\' :: e :: rest => do
    let c ← unescape? e
    let (cs, rest) ← readString fuel rest
    some (c :: cs, rest)
  | fuel + 1, c :: rest =>
    if c.toNat < 0x20 then none
    else (readString fuel rest).map fun (cs, rest) => (c :: cs, rest)

def isNumberChar (c : Char) : Bool :=
  Decimal.isDigit c || c == '+' || c == '-' || c == '.' || c == 'e' || c == 'E'

/-- Digits without a superfluous leading zero. -/
def isWhole : List Char → Bool
  | [] => false
  | ['0'] => true
  | c :: cs => c != '0' && (c :: cs).all Decimal.isDigit

def finite? (x : Float) : Option Number := if Decimal.isFinite x then some (.float x) else none

def ofText (negative : Bool) (body : List Char) : Option Number :=
  let signed := fun x : Float => if negative then -x else x
  let whole := body.takeWhile Decimal.isDigit
  let rest := body.dropWhile Decimal.isDigit
  if !isWhole whole then none
  else
    match rest with
    | [] =>
      let n := Decimal.ofDigits whole
      if negative then
        if n == 0 then some (.float (-0.0))
        else if n ≤ Nat.pow 2 63 then some (.int (-(n : Int)))
        else finite? (signed (Decimal.ofDecimal n 0))
      else if n < Nat.pow 2 64 then some (.int n)
      else finite? (Decimal.ofDecimal n 0)
    | '.' :: c :: _ =>
      if Decimal.isDigit c then
        (Decimal.readUnsigned body).bind fun x => finite? (signed x)
      else none
    | '.' :: [] => none
    | _ => (Decimal.readUnsigned body).bind fun x => finite? (signed x)

def readNumber (cs : List Char) : Option (Number × List Char) :=
  let text := cs.takeWhile isNumberChar
  let rest := cs.dropWhile isNumberChar
  let number :=
    match text with
    | '-' :: body => ofText true body
    | body => ofText false body
  number.map fun n => (n, rest)

mutual

def readValue : Nat → List Char → Option (Json × List Char)
  | 0, _ => none
  | fuel + 1, cs =>
    match skipSpace cs with
    | 'n' :: 'u' :: 'l' :: 'l' :: rest => some (.null, rest)
    | 't' :: 'r' :: 'u' :: 'e' :: rest => some (.bool true, rest)
    | 'f' :: 'a' :: 'l' :: 's' :: 'e' :: rest => some (.bool false, rest)
    | '"' :: rest => (readString (rest.length + 1) rest).map fun (s, rest) =>
      (.string (String.ofList s), rest)
    | '[' :: rest =>
      match skipSpace rest with
      | ']' :: rest => some (.array [], rest)
      | rest => (readItems fuel rest).map fun (items, rest) => (.array items, rest)
    | '{' :: rest =>
      match skipSpace rest with
      | '}' :: rest => some (.object [], rest)
      | rest => (readMembers fuel [] rest).map fun (members, rest) => (.object members, rest)
    | rest => (readNumber rest).map fun (n, rest) => (.number n, rest)

def readItems : Nat → List Char → Option (List Json × List Char)
  | 0, _ => none
  | fuel + 1, cs => do
    let (v, rest) ← readValue fuel cs
    match skipSpace rest with
    | ',' :: rest => (readItems fuel rest).map fun (vs, rest) => (v :: vs, rest)
    | ']' :: rest => some ([v], rest)
    | _ => none

def readMembers : Nat → List (String × Json) → List Char →
    Option (List (String × Json) × List Char)
  | 0, _, _ => none
  | fuel + 1, members, cs =>
    match skipSpace cs with
    | '"' :: rest => do
      let (name, rest) ← readString (rest.length + 1) rest
      match skipSpace rest with
      | ':' :: rest =>
        let (v, rest) ← readValue fuel rest
        let members := Members.insert (String.ofList name) v members
        match skipSpace rest with
        | ',' :: rest => readMembers fuel members rest
        | '}' :: rest => some (members, rest)
        | _ => none
      | _ => none
    | _ => none

end

/-- The value of a text that holds one value and nothing else but space. -/
def read? (text : String) : Option Json :=
  let cs := text.toList
  match readValue (2 * cs.length + 2) cs with
  | some (v, rest) => if (skipSpace rest).isEmpty then some v else none
  | none => none

end LiveJson.Json
