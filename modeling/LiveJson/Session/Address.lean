import LiveJson.Decimal.Numeral
import LiveJson.Store.Location
import LiveJson.Text.Letter

/-! The plain addresses that sessions are run with: a scheme, for the schemes of the web a host and
a port, and whatever follows. Users, passwords, numbered hosts and escapes are not read. For the
schemes of the web the host is folded to lower case, the default port is left out, and an empty path
becomes `/`. -/

namespace LiveJson.Address

def isScheme : List Char → Bool
  | [] => false
  | c :: cs =>
    Text.isAsciiLetter c && cs.all fun c =>
      Text.isAsciiLetter c || Decimal.isDigit c || c == '+' || c == '-' || c == '.'

/-- The schemes of the web have default ports, which go without saying. -/
def defaultPort? : List Char → Option Nat
  | ['h', 't', 't', 'p'] => some 80
  | ['h', 't', 't', 'p', 's'] => some 443
  | _ => none

/-- A host and the number behind its colon, in normal form. -/
def host? (standard : Nat) (cs : List Char) : Option (List Char) :=
  let host := (cs.takeWhile (· != ':')).map Char.toLower
  let digits := (cs.dropWhile (· != ':')).drop 1
  let n := Decimal.ofDigits digits
  if host.isEmpty || !digits.all Decimal.isDigit || 65535 < n then none
  else if digits.isEmpty || n == standard then some host
  else some (host ++ ':' :: Nat.toDigits 10 n)

/-- What follows the colon behind the scheme of a web address, in normal form. -/
def webRest? (standard : Nat) (cs : List Char) : Option (List Char) :=
  let endsHost := fun c => c == '/' || c == '?' || c == '#'
  let cs := cs.dropWhile (· == '/')
  let rest := cs.dropWhile fun c => !endsHost c
  (host? standard (cs.takeWhile fun c => !endsHost c)).map fun host =>
    let rest := if rest.head? = some '/' then rest else '/' :: rest
    '/' :: '/' :: (host ++ rest)

def plain? (cs : List Char) : Option (List Char) :=
  let scheme := (cs.takeWhile (· != ':')).map Char.toLower
  let rest := (cs.dropWhile (· != ':')).drop 1
  if !isScheme scheme then none
  else
    match defaultPort? scheme with
    | some standard => (webRest? standard rest).map fun rest => scheme ++ ':' :: rest
    | none => some (scheme ++ ':' :: rest)

instance plainReader : UrlReader where
  read? text := (plain? text.toList).map String.ofList

end LiveJson.Address
