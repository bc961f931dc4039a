import Reckon.Binary64

/-!
Decimal digits of a binary fraction.

Two ways to choose them, both in exact arithmetic. The shortest digits that read back: on each
decimal grid, from coarse to fine, the two neighbours of the value are tried, and the first grid with
a neighbour inside the interval of numbers that round to the value gives the digits. The value
rounded to a number of significant digits, ties to even.

    grid of 10^(k-i):   ──┼──────────┼──        neighbours c and c + 1 of the value x
                        c·10^p  x  (c+1)·10^p
-/

namespace Reckon

/-- A decimal number: the coefficient times ten to the exponent. -/
structure Decimal where
  coefficient : Nat
  exponent : Int
  deriving DecidableEq, Repr

namespace Decimal

/-- The digits of the coefficient, the most significant one first. -/
def digits (d : Decimal) : List Char := Nat.toDigits 10 d.coefficient

/-- The power of ten of the most significant digit. -/
def leading (d : Decimal) : Int := d.exponent + d.digits.length - 1

/-- Zeros at the end of a run of digits. -/
def trailingZeros (ds : List Char) : Nat := (ds.reverse.takeWhile (· == '0')).length

/-- The same number with no zero at the end of its coefficient. -/
def trim (d : Decimal) : Decimal :=
  if d.coefficient = 0 then ⟨0, 0⟩
  else
    let zeros := trailingZeros d.digits
    ⟨d.coefficient / pow10 zeros, d.exponent + zeros⟩

/-- A quotient of natural numbers. -/
structure Quotient where
  num : Nat
  den : Nat

/-- The number `n * 2 ^ power` measured in units of `10 ^ exponent`. -/
def Quotient.inUnits (n : Nat) (power exponent : Int) : Quotient :=
  ⟨n * pow2 power.toNat * pow10 (-exponent).toNat, pow2 (-power).toNat * pow10 exponent.toNat⟩

/-- The power of ten of the most significant digit of `n * 2 ^ power`, for a positive `n`. Measured
in units of `10 ^ -400` every binary64 value is at least one. -/
def leadingExponent (n : Nat) (power : Int) : Int :=
  let q := Quotient.inUnits n power (-400)
  ((Nat.toDigits 10 (q.num / q.den)).length : Int) - 401

/-- The value rounded to a number of significant digits, a tie to the even neighbour. -/
def significant (count : Nat) (significand : Nat) (power : Int) : Decimal :=
  let exponent := leadingExponent significand power + 1 - count
  let q := Quotient.inUnits significand power exponent
  (Decimal.mk (Binary64.roundDiv q.num q.den) exponent).trim

/-- The numbers that round to a binary64 value, in quarters of the unit of its significand. The ends
belong to them for an even significand. Below a power of two the neighbour is only half as far. -/
structure Interval where
  low : Nat
  high : Nat
  closed : Bool

/-- The numbers that round to `significand * 2 ^ power`. -/
def Interval.around (significand : Nat) (power : Int) : Interval where
  low := if significand = pow2 52 ∧ Binary64.leastPower < power then 4 * significand - 1
    else 4 * significand - 2
  high := 4 * significand + 2
  closed := significand % 2 = 0

/-- Whether `candidate * 10 ^ exponent` lies in the interval, whose unit is `2 ^ power`. -/
def Interval.holds (i : Interval) (power exponent : Int) (candidate : Nat) : Bool :=
  let low := Quotient.inUnits i.low power exponent
  let high := Quotient.inUnits i.high power exponent
  let scaled := candidate * low.den
  if i.closed then low.num ≤ scaled && scaled ≤ high.num
  else low.num < scaled && scaled < high.num

/-- The neighbour of the value on the grid of `10 ^ exponent` that reads back, the nearer one where
both do. -/
def onGrid? (significand : Nat) (power exponent : Int) : Option Decimal :=
  let i := Interval.around significand power
  let q := Quotient.inUnits (4 * significand) (power - 2) exponent
  let below := q.num / q.den
  match i.holds (power - 2) exponent below, i.holds (power - 2) exponent (below + 1) with
  | true, true =>
    if Binary64.roundDiv q.num q.den = below then some ⟨below, exponent⟩
    else some ⟨below + 1, exponent⟩
  | true, false => some ⟨below, exponent⟩
  | false, true => some ⟨below + 1, exponent⟩
  | false, false => none

/-- The fewest digits that read back as `significand * 2 ^ power`; seventeen always do. -/
def shortest (significand : Nat) (power : Int) : Decimal :=
  let top := leadingExponent significand power
  let found := (List.range 17).findSome? fun (i : Nat) => onGrid? significand power (top - i)
  (found.getD (significant 17 significand power)).trim

end Decimal

end Reckon
