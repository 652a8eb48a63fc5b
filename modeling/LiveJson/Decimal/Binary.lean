/-! A double taken apart: a finite one is `m · 2^q`, up to sign, with a natural `m`. Remainder and
integrality are decided on these parts in exact arithmetic. -/

namespace LiveJson.Decimal

inductive Parts where
  | nan
  | infinite (negative : Bool)
  | finite (negative : Bool) (m : Nat) (q : Int)
deriving DecidableEq

def Parts.ofBits (bits : Nat) : Parts :=
  let negative := bits / Nat.pow 2 63 % 2 == 1
  let exponent : Nat := bits / Nat.pow 2 52 % Nat.pow 2 11
  let fraction : Nat := bits % Nat.pow 2 52
  if exponent == 2047 then
    if fraction == 0 then .infinite negative else .nan
  else if exponent == 0 then .finite negative fraction (-1074)
  else .finite negative (Nat.pow 2 52 + fraction) ((exponent : Int) - 1075)

def parts (x : Float) : Parts := Parts.ofBits x.toBits.toNat

/-- The double `m · 2^q`, for a value that has one: at most 53 significant bits from `2^(-1074)`
up. -/
def assemble (negative : Bool) (m : Nat) (q : Int) : Float :=
  let sign := if negative then Nat.pow 2 63 else 0
  if m == 0 then Float.ofBits (UInt64.ofNat sign)
  else
    let shift := min (52 - (m.log2 : Int)) (q + 1074)
    let m := if shift < 0 then m / Nat.pow 2 (-shift).toNat else m * Nat.pow 2 shift.toNat
    let exponent := if m < Nat.pow 2 52 then 0 else (q - shift + 1075).toNat
    Float.ofBits (UInt64.ofNat (sign + exponent * Nat.pow 2 52 + m % Nat.pow 2 52))

def isFinite (x : Float) : Bool :=
  match parts x with
  | .finite .. => true
  | _ => false

/-- A finite number without a fractional part. -/
def isIntegral (x : Float) : Bool :=
  match parts x with
  | .finite _ m q => m % Nat.pow 2 (-q).toNat == 0
  | _ => false

/-- What is left of `x` after taking `y` away as often as it fits; it has the sign of `x`. -/
def remainder (x y : Float) : Float :=
  match parts x, parts y with
  | .finite negative m q, .finite _ n r =>
    if n == 0 then 0.0 / 0.0
    else
      let low := min q r
      assemble negative ((m * Nat.pow 2 (q - low).toNat) % (n * Nat.pow 2 (r - low).toNat)) low
  | .finite .., .infinite _ => x
  | _, _ => 0.0 / 0.0

end LiveJson.Decimal
