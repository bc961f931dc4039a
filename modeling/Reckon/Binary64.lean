import Reckon.Powers

/-!
Binary64 values taken apart and put together in exact arithmetic.

A finite value is a sign and a significand times a power of two. In the other direction a quotient
of natural numbers is brought to the nearest value, ties to the even significand; one that lies
beyond the largest value has no nearest one. Integers, quotients of integers, fractions and decimal
numerals all become binary64 values through that one rounding.

    quotient n / d  ──▶  significand, 53 bits or down to 2^-1074  ──▶  the word of the value
-/

namespace Reckon.Binary64

/-- What a binary64 value stands for. -/
inductive Parts where
  /-- No number. -/
  | nan
  /-- Beyond all numbers, on one side. -/
  | infinite (negative : Bool)
  /-- The significand times two to the power, with its sign. -/
  | finite (negative : Bool) (significand : Nat) (power : Int)
  deriving DecidableEq, Repr

/-- The smallest power of two that a significand is taken with. -/
def leastPower : Int := -1074

/-- A value's parts, read off its word. -/
def parts (x : Float) : Parts :=
  let word : Nat := x.toBits.toNat
  let negative := word / pow2 63 % 2 == 1
  let field : Nat := word / pow2 52 % pow2 11
  let fraction : Nat := word % pow2 52
  if field = 2047 then
    if fraction = 0 then .infinite negative else .nan
  else if field = 0 then .finite negative fraction leastPower
  else .finite negative (pow2 52 + fraction) (leastPower + field - 1)

/-- The quotient rounded to the nearest natural number, a tie to the even one. -/
def roundDiv (n d : Nat) : Nat :=
  let q := n / d
  let r := n % d
  if 2 * r < d ∨ (2 * r = d ∧ q % 2 = 0) then q else q + 1

/-- The greatest `k` with `2 ^ k ≤ n / d`, for positive `n` and `d`. -/
def log2Div (n d : Nat) : Int :=
  let k : Int := (n.log2 : Int) - (d.log2 : Int)
  if d * pow2 k.toNat ≤ n * pow2 (-k).toNat then k else k - 1

/-- The value nearest to `n / d`, a tie to the even significand; none beyond the largest value. -/
def nearest? (n d : Nat) : Option Float :=
  if n = 0 then some 0
  else
    let power := max (log2Div n d - 52) leastPower
    let significand := roundDiv (n * pow2 (-power).toNat) (d * pow2 power.toNat)
    let word := (power - leastPower).toNat * pow2 52 + significand
    if word < 2047 * pow2 52 then some (Float.ofBits word.toUInt64) else none

/-- The value with the sign turned where asked. -/
def signed (negative : Bool) (x : Float) : Float := if negative then -x else x

/-- The value nearest to an integer; none where it is too large. -/
def ofInt? (n : Int) : Option Float := (nearest? n.natAbs 1).map (signed (n < 0))

/-- The value nearest to a quotient of integers; none where it is too large. Zero divided by a
negative number is the negative zero. -/
def ofQuotient? (n d : Int) : Option Float :=
  (nearest? n.natAbs d.natAbs).map (signed ((n < 0) != (d < 0)))

/-- Positive infinity. -/
def infinity : Float := 1.0 / 0.0

/-- No number. -/
def nan : Float := 0.0 / 0.0

/-- The value nearest to a decimal number, infinity where it is too large. A number at or above
`10 ^ 310` is past the largest value and one below `10 ^ -400` rounds to zero, so powers of ten stay
small. -/
def ofDecimal (coefficient : Nat) (exponent : Int) : Float :=
  let digits : Int := (Nat.toDigits 10 coefficient).length + exponent
  if coefficient = 0 ∨ digits < -400 then 0
  else if 310 < digits then infinity
  else (nearest? (coefficient * pow10 exponent.toNat) (pow10 (-exponent).toNat)).getD infinity

/-- The integer part of a finite value. -/
def truncate (negative : Bool) (significand : Nat) (power : Int) : Int :=
  let whole := significand * pow2 power.toNat / pow2 (-power).toNat
  if negative then -(whole : Int) else whole

/-- Whether a value is an integer. -/
def isInteger (x : Float) : Bool :=
  match parts x with
  | .finite _ significand power => significand % pow2 (-power).toNat == 0
  | _ => false

/-- Whether a value is an odd integer. -/
def isOdd (x : Float) : Bool :=
  match parts x with
  | .finite negative significand power =>
    significand % pow2 (-power).toNat == 0 && truncate negative significand power % 2 == 1
  | _ => false

end Reckon.Binary64
