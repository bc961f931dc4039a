import Reckon.Number.Numeral
import Reckon.Text.Blank

/-!
Reading a number from a text that holds nothing else.

The reader is more generous than the numerals of an expression: blanks may stand around the number, a
sign before it, single underscores between digits, and digits of any script count. Decimals may be
missing on either side of the point, and infinity and the value that is no number have names.

    " -1_000 "  ──▶  int -1000          ".5"  ──▶  float 0.5          "Infinity"  ──▶  float inf
-/

namespace Reckon.Reading

/-- Blanks that may stand around a number. The separators of records may not. -/
def isOuterBlank (c : Char) : Bool :=
  Text.isBlank c && !(0x1C ≤ c.toNat && c.toNat ≤ 0x1F)

/-- The text without the blanks around it. -/
def trim (cs : List Char) : List Char :=
  ((cs.dropWhile isOuterBlank).reverse.dropWhile isOuterBlank).reverse

/-- The text behind `previous` with its underscores taken out; none if one does not stand between
two digits. -/
def joinDigits? (previous : Char) : List Char → Option (List Char)
  | [] => some []
  | ['_'] => none
  | '_' :: c :: cs =>
    if previous.isDigit && c.isDigit then (joinDigits? c cs).map (c :: ·) else none
  | c :: cs => (joinDigits? c cs).map (c :: ·)

/-- A number's text in plain form: no blanks around it, ASCII digits, no underscores. -/
def plain? (s : String) : Option (List Char) :=
  joinDigits? ' ' ((trim s.toList).map Text.plainDigit)

/-- An integer within the digit limit. -/
def int? (s : String) : Option Int := do
  let (sign, digits) := Sign.scan (← plain? s)
  if digits.isEmpty || !digits.all Char.isDigit || Number.digitLimit < digits.length then none
  else some (sign.apply (Text.digitsValue digits))

/-- The digits before and behind a point, and the rest. -/
def scanFraction (cs : List Char) : List Char × List Char × List Char :=
  let (whole, rest) := Numeral.spanDigits cs
  match rest with
  | '.' :: rest =>
    let (decimals, rest) := Numeral.spanDigits rest
    (whole, decimals, rest)
  | rest => (whole, [], rest)

/-- A binary64 value without a sign, in lower case. -/
def unsignedFloat? (cs : List Char) : Option Float :=
  if cs = "inf".toList ∨ cs = "infinity".toList then some Binary64.infinity
  else if cs = "nan".toList then some Binary64.nan
  else
    let (whole, decimals, rest) := scanFraction cs
    let (exponent, rest) := Numeral.scanExponent rest
    if (whole ++ decimals).isEmpty || !rest.isEmpty then none
    else some (Numeral.mk whole decimals exponent).toFloat

/-- A binary64 value. -/
def float? (s : String) : Option Float := do
  let (sign, cs) := Sign.scan (← plain? s)
  return Binary64.signed (sign = .minus) (← unsignedFloat? (cs.map Char.toLower))

/-- A number: an integer where the text is one within the digit limit, a binary64 value otherwise. -/
def number? (s : String) : Option Number :=
  match int? s with
  | some n => some (.int n)
  | none => (float? s).map .float

end Reckon.Reading
