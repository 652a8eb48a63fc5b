import LiveJson.Json.Basic

/-! Writing JSON text without any space. In a string only the quote, the backslash and the control
characters are escaped. A double always shows a point or an exponent. -/

namespace LiveJson.Json

def hexChar (n : Nat) : Char := (Nat.toDigits 16 n).headD '0'

def escapeChar (c : Char) : List Char :=
  match c with
  | '"' => ['\\', '"']
  | '\\' => ['\\', '\\']
  | '\x08' => ['\\', 'b']
  | '\x0c' => ['\\', 'f']
  | '\n' => ['\\', 'n']
  | '\r' => ['\\', 'r']
  | '\t' => ['\\', 't']
  | c =>
    if c.toNat < 0x20 then ['\\', 'u', '0', '0', hexChar (c.toNat / 16), hexChar (c.toNat % 16)]
    else [c]

def quote (s : String) : String :=
  "\"" ++ String.ofList (s.toList.flatMap escapeChar) ++ "\""

/-- From `10^(-5)` up to `10^16` without an exponent; of two equally near decimals the one that ends
in an even digit. Numbers that are not finite have no numeral and are written as `null`. -/
def writeFloat (x : Float) : String :=
  match Decimal.parts x with
  | .nan | .infinite _ => "null"
  | .finite negative m q =>
    let text :=
      if m == 0 then "0.0"
      else
        let (digits, point) := Decimal.significant .even m q
        if -5 < point && point ≤ 16 then
          let body := String.ofList (Decimal.positional digits point)
          if (digits.length : Int) ≤ point then body ++ ".0" else body
        else
          let mantissa :=
            match digits with
            | d :: e :: rest => d :: '.' :: e :: rest
            | ds => ds
          let exponent := point - 1
          String.ofList mantissa ++ (if exponent < 0 then "e-" else "e+") ++
            toString exponent.natAbs
    if negative then "-" ++ text else text

def writeNumber : Number → String
  | .int i => toString i
  | .float x => writeFloat x

mutual

def write : Json → String
  | null => "null"
  | bool b => if b then "true" else "false"
  | number n => writeNumber n
  | string s => quote s
  | array items => "[" ++ writeItems items ++ "]"
  | object members => "\x7b" ++ writeMembers members ++ "\x7d"
termination_by structural v => v

def writeItems : List Json → String
  | [] => ""
  | [v] => v.write
  | v :: vs => v.write ++ "," ++ writeItems vs
termination_by structural vs => vs

def writeMembers : List (String × Json) → String
  | [] => ""
  | [(name, v)] => quote name ++ ":" ++ v.write
  | (name, v) :: rest => quote name ++ ":" ++ v.write ++ "," ++ writeMembers rest
termination_by structural ms => ms

end

end LiveJson.Json
