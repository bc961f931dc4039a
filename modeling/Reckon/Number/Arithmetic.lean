import Reckon.Number.Basic

/-!
Arithmetic on numbers.

Integers are computed exactly. Where an integer meets a binary64 value it is rounded to one first,
which fails when it is too large. A quotient of integers is the binary64 value nearest to it. Powers
with a natural exponent are exact on integers; all others are taken in binary64, with the real
results that exist and an error where none does.

    int ∘ int      exact: plus, minus, times, power with a natural exponent
    int / int      the nearest binary64 value
    otherwise      both sides in binary64
-/

namespace Reckon

/-- Why an arithmetic step has no result. -/
inductive ArithmeticError where
  /-- Integers were divided by zero. -/
  | integerDivision
  /-- A binary64 value was divided by zero. -/
  | floatDivision
  /-- Zero was raised to a negative power. -/
  | zeroToNegative
  /-- An integer is beyond the largest binary64 value. -/
  | integerTooLarge
  /-- A quotient of integers is beyond the largest binary64 value. -/
  | quotientTooLarge
  /-- A power is beyond the largest binary64 value. -/
  | powerTooLarge
  /-- The magnitude of a power that is not real is beyond the largest binary64 value. -/
  | complexPowerTooLarge
  /-- A negative base was raised to a power that is no integer. -/
  | noRealPower (base exponent : Number)
  deriving DecidableEq, Repr

/-- The text of an arithmetic error. -/
def ArithmeticError.message : ArithmeticError → String
  | .integerDivision => "division by zero"
  | .floatDivision => "float division by zero"
  | .zeroToNegative => "0.0 cannot be raised to a negative power"
  | .integerTooLarge => "int too large to convert to float"
  | .quotientTooLarge => "integer division result too large for a float"
  | .powerTooLarge => "(34, 'Numerical result out of range')"
  | .complexPowerTooLarge => "complex exponentiation"
  | .noRealPower base exponent =>
    base.text ++ " ^ " ++ exponent.text ++ " does not have a real result"

namespace Number

/-- The binary64 value of a number. -/
def toFloat : Number → Except ArithmeticError Float
  | .int n =>
    match Binary64.ofInt? n with
    | some x => .ok x
    | none => .error .integerTooLarge
  | .float x => .ok x

/-- An operation that is exact on integers and goes through binary64 otherwise. -/
def lift₂ (exact : Int → Int → Int) (rounded : Float → Float → Float) :
    Number → Number → Except ArithmeticError Number
  | .int a, .int b => .ok (.int (exact a b))
  | a, b => do return .float (rounded (← a.toFloat) (← b.toFloat))

/-- The sum. -/
def add : Number → Number → Except ArithmeticError Number := lift₂ (· + ·) (· + ·)

/-- The difference. -/
def sub : Number → Number → Except ArithmeticError Number := lift₂ (· - ·) (· - ·)

/-- The product. -/
def mul : Number → Number → Except ArithmeticError Number := lift₂ (· * ·) (· * ·)

/-- The number with its sign turned. -/
def neg : Number → Number
  | .int n => .int (-n)
  | .float x => .float (-x)

/-- The quotient of two binary64 values. -/
def divFloat (x y : Float) : Except ArithmeticError Float :=
  if y == 0 then .error .floatDivision else .ok (x / y)

/-- The quotient. -/
def div : Number → Number → Except ArithmeticError Number
  | .int a, .int b =>
    if b = 0 then .error .integerDivision
    else
      match Binary64.ofQuotient? a b with
      | some x => .ok (.float x)
      | none => .error .quotientTooLarge
  | a, b => do return .float (← divFloat (← a.toFloat) (← b.toFloat))

/-! ### Powers -/

/-- A magnitude to a natural exponent. Zero and one need no multiplication, however large the
exponent is. -/
def natPow (base exponent : Nat) : Nat :=
  if base ≤ 1 then if exponent = 0 then 1 else base else Nat.pow base exponent

theorem natPow_eq (base exponent : Nat) : natPow base exponent = Nat.pow base exponent := by
  unfold natPow
  split
  · next h =>
    split
    · next he => rw [he]; rfl
    · next he =>
      obtain rfl | rfl : base = 0 ∨ base = 1 := by omega
      · exact (Nat.zero_pow (Nat.pos_of_ne_zero he)).symm
      · exact (Nat.one_pow exponent).symm
  · rfl

/-- An integer to a natural exponent, by the magnitude and the sign. -/
def intPow (base : Int) (exponent : Nat) : Int :=
  let magnitude : Int := natPow base.natAbs exponent
  if base < 0 ∧ exponent % 2 = 1 then -magnitude else magnitude

/-- A power of binary64 values has a real result, or is complex with a finite or an infinite
magnitude, or is no power at all. -/
inductive FloatPower where
  | real (x : Float)
  | tooLarge
  | complex
  | complexTooLarge
  | zeroToNegative
  deriving Repr

/-- A power with an infinite exponent: it depends on which side of one the magnitude of the base
is. -/
def powInfinite (base exponent : Float) : Float :=
  let b := base.abs
  if b == 1 then 1
  else if (decide (0 < exponent)) == (decide (1 < b)) then Binary64.infinity
  else 0

/-- A power of an infinity: the sign is that of the base for odd exponents. -/
def powOfInfinity (base exponent : Float) : Float :=
  let negative := decide (base < 0) && Binary64.isOdd exponent
  Binary64.signed negative (if 0 < exponent then Binary64.infinity else 0)

/-- A power with a positive finite base and a finite exponent. -/
def powPositive (base exponent : Float) : Float :=
  if base == 1 then 1 else Float.pow base exponent

/-- The power of two binary64 values. An exponent of zero and a base of one give one whatever the
other side is, even where that is no number. -/
def powFloat (base exponent : Float) : FloatPower :=
  if exponent == 0 then .real 1
  else if base.isNaN then .real base
  else if exponent.isNaN then .real (if base == 1 then 1 else exponent)
  else if exponent.isInf then .real (powInfinite base exponent)
  else if base.isInf then .real (powOfInfinity base exponent)
  else if base == 0 then
    if exponent < 0 then .zeroToNegative
    else .real (if Binary64.isOdd exponent then base else 0)
  else
    let magnitude := powPositive base.abs exponent
    if base < 0 ∧ ¬ Binary64.isInteger exponent then
      if magnitude.isInf then .complexTooLarge else .complex
    else if magnitude.isInf then .tooLarge
    else .real (Binary64.signed (decide (base < 0) && Binary64.isOdd exponent) magnitude)

/-- The power, exact for integers with a natural exponent. -/
def pow : Number → Number → Except ArithmeticError Number
  | .int a, .int (.ofNat e) => .ok (.int (intPow a e))
  | a, b => do
    match powFloat (← a.toFloat) (← b.toFloat) with
    | .real x => .ok (.float x)
    | .tooLarge => .error .powerTooLarge
    | .complex => .error (.noRealPower a b)
    | .complexTooLarge => .error .complexPowerTooLarge
    | .zeroToNegative => .error .zeroToNegative

/-- The root of a degree: the power with the inverse of the degree, so a root shows the rounding of
that inverse. -/
def root (radicand degree : Number) : Except ArithmeticError Number := do
  let inverse ← divFloat 1 (← degree.toFloat)
  pow radicand (.float inverse)

end Number

end Reckon
