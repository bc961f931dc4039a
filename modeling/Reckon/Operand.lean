import Reckon.Number.Basic
import Reckon.Text.Json
import Reckon.Text.Quoted

/-!
Operands: numbers and names.

A name stands for the value a valuation gives it, or for itself where it has none.
-/

namespace Reckon

/-- What an operator is applied to before anything is computed. -/
inductive Operand where
  | number (n : Number)
  | name (s : String)
  deriving DecidableEq, Repr

/-- Values for names; a name may have none. -/
abbrev Valuation := String → Option Number

namespace Operand

/-- A name with a value becomes that value. -/
def resolve (v : Valuation) : Operand → Operand
  | .number n => .number n
  | .name s =>
    match v s with
    | some n => .number n
    | none => .name s

/-- The number an operand stands for, if it has one. -/
def value? (v : Valuation) : Operand → Option Number
  | .number n => some n
  | .name s => v s

/-- The name of an operand that is one. -/
def name? : Operand → Option String
  | .number _ => none
  | .name s => some s

/-- Whether the operand can be written: a name always can. -/
def isWritable : Operand → Bool
  | .number n => n.isWritable
  | .name _ => true

/-- The plain text of an operand. -/
def text : Operand → String
  | .number n => n.text
  | .name s => s

/-- The text of an operand that tells names from numbers: names stand between quotes. -/
def quoted : Operand → String
  | .number n => n.text
  | .name s => Text.quote s

/-- The operand in JSON. -/
def json : Operand → String
  | .number n => n.json
  | .name s => Json.string s

end Operand

end Reckon
