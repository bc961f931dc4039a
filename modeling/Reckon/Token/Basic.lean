import Reckon.Operand
import Reckon.Operator
import Reckon.Text.Spelling

/-!
Tokens, and the spellings of those that have fixed ones.

A minus sign is always the same token: whether it negates or subtracts is for the parser to say. No
spelling is the beginning of another one, so the order of the table does not matter.
-/

namespace Reckon

/-- The smallest meaningful parts of an expression text. -/
inductive Token where
  | operand (a : Operand)
  | operator (op : Binary)
  | opening
  | closing
  deriving DecidableEq, Repr

namespace Token

/-- The fixed spellings, plain and as written in TeX. -/
def spellings : List (String × Token) :=
  [("=", .operator .equal),
   ("*", .operator .multiply), ("\\times", .operator .multiply), ("\\cdot", .operator .multiply),
   ("/", .operator .divide), ("+", .operator .add), ("^", .operator .power),
   ("-", .operator .subtract), ("sqrt", .operator .root),
   ("(", .opening), ("\\left(", .opening), (")", .closing), ("\\right)", .closing)]

/-- The token whose spelling stands at the front of a text, the spelling, and the rest. -/
def spelled? (cs : List Char) : Option (Token × List Char × List Char) :=
  spellings.findSome? fun (spelling, token) =>
    (Text.behind? spelling.toList cs).map fun rest => (token, spelling.toList, rest)

end Token

end Reckon
