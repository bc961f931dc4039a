import Reckon.Number.Basic
import Reckon.Text.DecimalDigit

/-!
Unsigned decimal numerals: a whole part, decimals, an exponent.

A numeral of whole digits alone denotes an exact integer, as long as it keeps to the digit limit; one
with decimals or an exponent denotes the binary64 value nearest to it.

    12   ──▶  int 12          1.50e-3
                              │ │  └─ exponent
                              │ └─ decimals
                              └─ whole          ──▶  float 0.0015
-/

namespace Reckon

/-- A sign, which may be missing. -/
inductive Sign where
  | missing
  | plus
  | minus
  deriving DecidableEq, Repr

namespace Sign

/-- How a sign is written. -/
def text : Sign → List Char
  | .missing => []
  | .plus => ['+']
  | .minus => ['-']

/-- The magnitude with its sign. -/
def apply (s : Sign) (magnitude : Nat) : Int := if s = .minus then -magnitude else magnitude

/-- A sign at the front of a text, and the rest. -/
def scan : List Char → Sign × List Char
  | '-' :: cs => (.minus, cs)
  | '+' :: cs => (.plus, cs)
  | cs => (.missing, cs)

theorem scan_append (cs : List Char) : (scan cs).1.text ++ (scan cs).2 = cs := by
  unfold scan
  split <;> rfl

end Sign

/-- The exponent of a numeral: its sign and its digits. -/
structure NumeralExponent where
  sign : Sign
  digits : List Char
  deriving DecidableEq, Repr

/-- What an exponent is worth. -/
def NumeralExponent.value (e : NumeralExponent) : Int := e.sign.apply (Text.digitsValue e.digits)

/-- A numeral in its parts, all of them ASCII digits. -/
structure Numeral where
  whole : List Char
  decimals : List Char
  exponent : Option NumeralExponent
  deriving DecidableEq, Repr

namespace Numeral

/-- How decimals are written: behind a point, if there are any. -/
def decimalsText (decimals : List Char) : List Char :=
  if decimals.isEmpty then [] else '.' :: decimals

/-- How an exponent is written. -/
def exponentText : Option NumeralExponent → List Char
  | none => []
  | some e => 'e' :: e.sign.text ++ e.digits

/-- How a numeral is written. -/
def text (n : Numeral) : List Char :=
  n.whole ++ decimalsText n.decimals ++ exponentText n.exponent

/-- Whether the numeral denotes an exact integer. -/
def isInteger (n : Numeral) : Bool := n.decimals.isEmpty && n.exponent.isNone

/-- The binary64 value nearest to what the numeral denotes. -/
def toFloat (n : Numeral) : Float :=
  let exponent := (n.exponent.map NumeralExponent.value).getD 0
  Binary64.ofDecimal (Text.digitsValue (n.whole ++ n.decimals)) (exponent - n.decimals.length)

/-- What the numeral denotes; the count of its digits where an integer has too many. -/
def value (n : Numeral) : Except Nat Number :=
  if n.isInteger then
    if n.whole.length ≤ Number.digitLimit then .ok (.int (Text.digitsValue n.whole))
    else .error n.whole.length
  else .ok (.float n.toFloat)

/-! ### Reading a numeral off the front of a text -/

/-- The digits at the front of a text, and the rest. -/
def spanDigits (cs : List Char) : List Char × List Char :=
  (cs.takeWhile Char.isDigit, cs.dropWhile Char.isDigit)

/-- A point and the digits behind it; nothing where no digit follows the point. -/
def scanDecimals : List Char → List Char × List Char
  | '.' :: cs =>
    match spanDigits cs with
    | ([], _) => ([], '.' :: cs)
    | found => found
  | cs => ([], cs)

/-- An exponent mark, a sign or none, and digits; nothing where the digits are missing. -/
def scanExponent : List Char → Option NumeralExponent × List Char
  | 'e' :: cs =>
    match spanDigits (Sign.scan cs).2 with
    | ([], _) => (none, 'e' :: cs)
    | (digits, rest) => (some ⟨(Sign.scan cs).1, digits⟩, rest)
  | cs => (none, cs)

/-- The longest numeral at the front of a text, and the rest. -/
def scan? (cs : List Char) : Option (Numeral × List Char) :=
  match spanDigits cs with
  | ([], _) => none
  | (whole, rest) =>
    let (decimals, rest) := scanDecimals rest
    let (exponent, rest) := scanExponent rest
    some (⟨whole, decimals, exponent⟩, rest)

/-! ### A numeral and the text behind it make up the text -/

theorem spanDigits_append (cs : List Char) : (spanDigits cs).1 ++ (spanDigits cs).2 = cs :=
  List.takeWhile_append_dropWhile

theorem scanDecimals_append (cs : List Char) :
    decimalsText (scanDecimals cs).1 ++ (scanDecimals cs).2 = cs := by
  unfold scanDecimals
  split
  · next cs =>
    have happ := spanDigits_append cs
    split
    · rfl
    · next hne =>
      have hfound : (spanDigits cs).1 ≠ [] := fun h => hne _ (Prod.ext h rfl)
      simp [decimalsText, hfound, happ]
  · rfl

theorem scanExponent_append (cs : List Char) :
    exponentText (scanExponent cs).1 ++ (scanExponent cs).2 = cs := by
  unfold scanExponent
  split
  · next cs =>
    have happ := spanDigits_append (Sign.scan cs).2
    split
    · rfl
    · next digits rest _ hspan =>
      rw [hspan] at happ
      rw [exponentText, List.cons_append, List.cons_append, List.append_assoc, happ,
        Sign.scan_append]
  · rfl

theorem scan?_append {cs rest : List Char} {n : Numeral} (h : scan? cs = some (n, rest)) :
    n.text ++ rest = cs ∧ n.whole ≠ [] := by
  have happ := spanDigits_append cs
  unfold scan? at h
  split at h
  · simp at h
  · next whole rest₁ hne hspan =>
    simp only [Option.some.injEq, Prod.mk.injEq] at h
    obtain ⟨rfl, rfl⟩ := h
    rw [hspan] at happ
    refine ⟨?_, hne⟩
    rw [text, List.append_assoc, List.append_assoc, scanExponent_append, scanDecimals_append, happ]

theorem text_ne_nil {n : Numeral} (h : n.whole ≠ []) : n.text ≠ [] := by
  simp [text, h]

end Numeral

end Reckon
