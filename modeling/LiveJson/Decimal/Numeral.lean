import LiveJson.Decimal.Binary
import LiveJson.Decimal.Shortest

/-! Numerals: the written form of a double, and the double that a numeral denotes. -/

namespace LiveJson.Decimal

def isDigit (c : Char) : Bool := '0' ≤ c && c ≤ '9'

def digitValue (c : Char) : Nat := c.toNat - '0'.toNat

/-- The number that a run of digits denotes. -/
def ofDigits (cs : List Char) : Nat := cs.foldl (fun n c => 10 * n + digitValue c) 0

/-- The digits of the shortest decimal, without trailing zeros, and the number of digits before its
point. -/
def significant (tie : Tie) (m : Nat) (q : Int) : List Char × Int :=
  let (d, k) := shortest tie m q
  let digits := Nat.toDigits 10 d
  let kept := (digits.reverse.dropWhile (· == '0')).reverse
  (kept, k + digits.length)

/-- Digits around a point that stands after the first `point` of them, without any exponent. -/
def positional (digits : List Char) (point : Int) : List Char :=
  if point ≤ 0 then '0' :: '.' :: (List.replicate (-point).toNat '0' ++ digits)
  else if (digits.length : Int) ≤ point then
    digits ++ List.replicate (point - digits.length).toNat '0'
  else digits.take point.toNat ++ '.' :: digits.drop point.toNat

/-- The text of a number in an expression: never an exponent, and of two equally near decimals the
one further from zero. -/
def plain (x : Float) : List Char :=
  match parts x with
  | .nan => "NaN".toList
  | .infinite negative => (if negative then "-inf" else "inf").toList
  | .finite negative m q =>
    let text :=
      if m == 0 then ['0']
      else
        let (digits, point) := significant .away m q
        positional digits point
    if negative then '-' :: text else text

/-- The text of a computed number: as `plain`, with infinity spelled out and one zero. -/
def computed (x : Float) : String :=
  match parts x with
  | .infinite negative => if negative then "-Infinity" else "Infinity"
  | .finite _ 0 _ => "0"
  | _ => String.ofList (plain x)

/-- The double nearest to `m · 10^e`. -/
def ofDecimal (m : Nat) (e : Int) : Float :=
  if m == 0 then 0.0
  else if (digitCount m : Int) + e > 310 then 1.0 / 0.0
  else if (digitCount m : Int) + e < -330 then 0.0
  else if e < 0 then Float.ofScientific m true (-e).toNat
  else Float.ofScientific m false e.toNat

/-- Reads the exponent of a numeral: a sign may lead it, and it must have a digit. -/
def readExponent : List Char → Option Int
  | '-' :: cs => if !cs.isEmpty && cs.all isDigit then some (-(ofDigits cs : Int)) else none
  | '+' :: cs => if !cs.isEmpty && cs.all isDigit then some (ofDigits cs) else none
  | cs => if !cs.isEmpty && cs.all isDigit then some (ofDigits cs) else none

/-- Reads a numeral without sign: digits with at most one point, at least one digit, and perhaps an
exponent. -/
def readUnsigned (cs : List Char) : Option Float :=
  let whole := cs.takeWhile isDigit
  let afterWhole := cs.dropWhile isDigit
  let (fraction, rest) :=
    match afterWhole with
    | '.' :: ds => (ds.takeWhile isDigit, ds.dropWhile isDigit)
    | ds => ([], ds)
  if whole.isEmpty && fraction.isEmpty then none
  else
    let m := ofDigits (whole ++ fraction)
    match rest with
    | [] => some (ofDecimal m (-(fraction.length : Int)))
    | c :: ds =>
      if c == 'e' || c == 'E' then
        (readExponent ds).map fun e => ofDecimal m (e - fraction.length)
      else none

/-- Reads a numeral with an optional sign, or one of the words `inf`, `infinity` and `nan` in any
mixture of cases. -/
def read (cs : List Char) : Option Float :=
  let (negative, body) :=
    match cs with
    | '-' :: ds => (true, ds)
    | '+' :: ds => (false, ds)
    | ds => (false, ds)
  let word := String.ofList (body.map Char.toLower)
  let magnitude :=
    if word == "inf" || word == "infinity" then some (1.0 / 0.0)
    else if word == "nan" then some (0.0 / 0.0)
    else readUnsigned body
  magnitude.map fun x => if negative then -x else x

end LiveJson.Decimal
