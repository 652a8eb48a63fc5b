/-! The shortest decimal that reads back as a given double. The reals that round to `m · 2^q` form
an interval around it, with its ends included when `m` is even. On the grid of decimals with `n`
significant digits only the two neighbours of the value need a test: if any point of the grid lies
in the interval, so does one of them. The first grid with a hit gives the digits. -/

namespace LiveJson.Decimal

/-- Which of two equally near decimals is taken. -/
inductive Tie where
  | away
  | even
deriving DecidableEq

/-- The number of decimal digits of `n`, one for zero. -/
def digitCount (n : Nat) : Nat := (Nat.toDigits 10 n).length

/-- The exponent of the leading digit of `num / den`. -/
def leadingExponent (num den : Nat) : Int :=
  if den ≤ num then digitCount (num / den) - 1
  else
    let c := (den + num - 1) / num - 1
    if c == 0 then 0 else -(digitCount c : Int)

/-- The value `m · 2^q`, the two ends of its rounding interval, and their common denominator. -/
structure Interval where
  low : Nat
  value : Nat
  high : Nat
  den : Nat
  closed : Bool

def Interval.around (m : Nat) (q : Int) : Interval :=
  let up := Nat.pow 2 (q - 2).toNat
  let gap := if m == Nat.pow 2 52 && q > -1074 then 1 else 2
  { low := (4 * m - gap) * up
    value := 4 * m * up
    high := (4 * m + 2) * up
    den := Nat.pow 2 (2 - q).toNat
    closed := m % 2 == 0 }

/-- Whether `c · 10^k` lies in the interval. -/
def Interval.holds (i : Interval) (c : Nat) (k : Int) : Bool :=
  let point := c * Nat.pow 10 k.toNat * i.den
  let scale := Nat.pow 10 (-k).toNat
  if i.closed then i.low * scale ≤ point && point ≤ i.high * scale
  else i.low * scale < point && point < i.high * scale

/-- The neighbours of the value on the grid `10^k` that lie in the interval, the nearer one first
choice. -/
def Interval.nearest? (i : Interval) (tie : Tie) (k : Int) : Option Nat :=
  let num := i.value * Nat.pow 10 (-k).toNat
  let den := i.den * Nat.pow 10 k.toNat
  let below := num / den
  match i.holds below k, i.holds (below + 1) k with
  | false, false => none
  | true, false => some below
  | false, true => some (below + 1)
  | true, true =>
    let twice := 2 * (num % den)
    if twice < den then some below
    else if den < twice then some (below + 1)
    else
      match tie with
      | .away => some (below + 1)
      | .even => some (if below % 2 == 0 then below else below + 1)

/-- The decimal `d · 10^k` for the positive double `m · 2^q`, as the pair of `d` and `k`. -/
def shortest (tie : Tie) (m : Nat) (q : Int) : Nat × Int :=
  let i := Interval.around m q
  let lead := leadingExponent i.value i.den
  let grids : List Int := (List.range 17).map fun (n : Nat) => lead - n
  match grids.findSome? fun k => (i.nearest? tie k).map fun d => (d, k) with
  | some hit => hit
  | none => (i.value / i.den, 0)

end LiveJson.Decimal
