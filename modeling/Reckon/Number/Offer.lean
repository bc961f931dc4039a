import Reckon.Number.Arithmetic

/-!
Values offered for a variable.

A variable takes a real number or none at all. Integers and binary64 values are kept, a fraction
becomes the binary64 value nearest to it, and anything that is not a real number is refused, truth
values included.
-/

namespace Reckon

/-- Kinds of values that are not real numbers. -/
inductive Foreign where
  | text
  | truth
  | list
  | decimal
  | complex
  deriving DecidableEq, Repr

/-- The name of a kind in messages. -/
def Foreign.name : Foreign → String
  | .text => "str"
  | .truth => "bool"
  | .list => "list"
  | .decimal => "Decimal"
  | .complex => "complex"

/-- What may be offered as the value of a variable. -/
inductive Offer where
  /-- No value: the variable becomes unbound. -/
  | nothing
  | number (n : Number)
  /-- A fraction; its denominator is not zero. -/
  | fraction (num den : Int)
  | foreign (kind : Foreign)
  deriving Repr

/-- Why an offered value is refused. -/
inductive OfferError where
  | notReal (kind : Foreign)
  /-- A fraction is beyond the largest binary64 value. -/
  | tooLarge
  deriving DecidableEq, Repr

/-- The text of a refusal. -/
def OfferError.message : OfferError → String
  | .notReal kind => "Variable value must be a real number or None, not " ++ kind.name
  | .tooLarge => ArithmeticError.quotientTooLarge.message

/-- The value a variable takes. -/
def Offer.accept : Offer → Except OfferError (Option Number)
  | .nothing => .ok none
  | .number n => .ok (some n)
  | .fraction num den =>
    if num = 0 then .ok (some (.float 0))
    else
      match Binary64.ofQuotient? num den with
      | some x => .ok (some (.float x))
      | none => .error .tooLarge
  | .foreign kind => .error (.notReal kind)

end Reckon
