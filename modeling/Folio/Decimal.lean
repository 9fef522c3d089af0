import Folio.Text.Basic

/-!
# Decimals with one place

A finite double is `m · 2 ^ q` for integers `m` and `q`. `roundedTenths` rounds ten times that value
to the nearest integer, and a value half way between two integers to the even one.
-/
namespace Folio.Decimal

/-- The quotient rounded to the nearest integer, a half to the even neighbour. -/
def roundDiv (num den : Nat) : Nat :=
  let whole := num / den
  let twice := 2 * (num % den)
  if twice < den then whole
  else if den < twice then whole + 1
  else whole + whole % 2

/-- The significand and the binary exponent of a finite double that is not negative. -/
def binaryParts (bits : UInt64) : Nat × Int :=
  let fraction : Nat := bits.toNat % Nat.pow 2 52
  let exponent : Nat := bits.toNat / Nat.pow 2 52 % Nat.pow 2 11
  if exponent = 0 then (fraction, -1074) else (fraction + Nat.pow 2 52, (exponent : Int) - 1075)

/-- Ten times `m · 2 ^ q`, rounded. -/
def roundedTenths (m : Nat) : Int → Nat
  | .ofNat k => 10 * m * Nat.pow 2 k
  | .negSucc k => roundDiv (10 * m) (Nat.pow 2 (k + 1))

/-- A finite double that is not negative, written with one place after the point. -/
def onePlace (value : Float) : Text :=
  let (m, q) := binaryParts value.toBits
  let tenths := roundedTenths m q
  Text.ofNat (tenths / 10) ++ '.' :: Text.ofNat (tenths % 10)

end Folio.Decimal
