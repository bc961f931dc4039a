import Reckon.Decimal.Digits

/-!
The written form of binary64 values.

A layout is the handful of decisions that turn digits into text: where the positional form ends and
the exponent form begins, and whether a whole number keeps a point and a zero. Two layouts are in
use. The full one shows the shortest digits that read back; the brief one shows twelve significant
digits, which hides the noise of binary fractions.

    1e16  ──full──▶  1e+16        0.1 + 0.2  ──brief──▶  0.3        2.0  ──brief──▶  2
-/

namespace Reckon

/-- The decisions of a written form. -/
structure Layout where
  /-- The least leading exponent in positional form. -/
  least : Int
  /-- The leading exponent at which the positional form ends. -/
  limit : Int
  /-- Whether a whole number in positional form ends in a point and a zero. -/
  wholeMark : Bool

namespace Layout

/-- The form that shows a value exactly. -/
def full : Layout := ⟨-4, 16, true⟩

/-- The form that shows a value inside an expression. -/
def brief : Layout := ⟨-4, 12, false⟩

/-- A run of zeros. -/
def zeros (count : Int) : List Char := List.replicate count.toNat '0'

/-- An exponent: its sign and at least two digits. -/
def exponentText (e : Int) : List Char :=
  let ds := Nat.toDigits 10 e.natAbs
  (if e < 0 then '-' else '+') :: (zeros (2 - ds.length) ++ ds)

/-- The digits with a point where the unit ends. -/
def positional (l : Layout) (d : Decimal) : List Char :=
  let ds := d.digits
  if 0 ≤ d.exponent then ds ++ zeros d.exponent ++ if l.wholeMark then ['.', '0'] else []
  else if 0 ≤ d.leading then
    let whole := d.leading.toNat + 1
    ds.take whole ++ '.' :: ds.drop whole
  else '0' :: '.' :: (zeros (-d.leading - 1) ++ ds)

/-- One digit before the point, the others behind it, then the exponent. -/
def scientific (d : Decimal) : List Char :=
  match d.digits with
  | [] => []
  | [c] => c :: 'e' :: exponentText d.leading
  | c :: ds => c :: '.' :: ds ++ 'e' :: exponentText d.leading

/-- The written form of a decimal number. -/
def decimal (l : Layout) (d : Decimal) : List Char :=
  if l.least ≤ d.leading ∧ d.leading < l.limit then l.positional d else scientific d

/-- The written form of a binary64 value whose digits are chosen by `choose`. -/
def value (l : Layout) (choose : Nat → Int → Decimal) (x : Float) : List Char :=
  let sign (negative : Bool) : List Char := if negative then ['-'] else []
  match Binary64.parts x with
  | .nan => ['n', 'a', 'n']
  | .infinite negative => sign negative ++ ['i', 'n', 'f']
  | .finite negative significand power =>
    sign negative ++
      l.decimal (if significand = 0 then ⟨0, 0⟩ else choose significand power)

/-- The text of a binary64 value that reads back as the same value. -/
def fullText (x : Float) : String := String.ofList (full.value Decimal.shortest x)

/-- The text of a binary64 value to twelve significant digits. -/
def briefText (x : Float) : String := String.ofList (brief.value (Decimal.significant 12) x)

end Layout

end Reckon
