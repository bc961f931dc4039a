import Reckon.Decimal.Layout

/-!
Numbers: exact integers of any size, and binary64 values.

The two kinds stay apart everywhere, so `4` and `4.0` are different numbers. A number has one full
text; the text of an integer is written only up to a limit on its digits, which keeps the cost of
writing bounded.
-/

namespace Reckon

/-- A value of the calculator. -/
inductive Number where
  /-- An exact integer. -/
  | int (n : Int)
  /-- A binary64 value. -/
  | float (x : Float)
  deriving DecidableEq, Repr, Inhabited

namespace Number

/-- The most digits an integer may have where it is written or read. -/
def digitLimit : Nat := 4300

/-- The least magnitude that has too many digits to be written. -/
def unwritable : Nat := pow10 digitLimit

/-- Whether a number can be written: every binary64 value can, an integer up to the digit limit. -/
def isWritable : Number → Bool
  | .int n => n.natAbs < unwritable
  | .float _ => true

/-- The text of an integer. -/
def intText (n : Int) : String :=
  let ds := Nat.toDigits 10 n.natAbs
  String.ofList (if n < 0 then '-' :: ds else ds)

/-- The text that reads back as the same number. -/
def text : Number → String
  | .int n => intText n
  | .float x => Layout.fullText x

/-- The text of a number, where it can be written. -/
def text? (n : Number) : Option String := if n.isWritable then some n.text else none

/-- The text of a number in JSON, where infinities and the value that is no number have names of
their own. -/
def json : Number → String
  | .int n => intText n
  | .float x =>
    match Binary64.parts x with
    | .nan => "NaN"
    | .infinite false => "Infinity"
    | .infinite true => "-Infinity"
    | .finite .. => Layout.fullText x

/-- The text of a number inside an expression: twelve significant digits, and parentheses around a
negative number, so that `-3` put into `x^2` is squared as a whole. -/
def substituteText? (n : Number) : Option String :=
  let plain : Option String :=
    match n with
    | .int i => text? (.int i)
    | .float x => some (Layout.briefText x)
  plain.map fun s => if s.toList.head? = some '-' then "(" ++ s ++ ")" else s

end Number

end Reckon
