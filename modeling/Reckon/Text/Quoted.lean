import Reckon.Text.Hex
import Reckon.Text.Printable

/-!
Quoted texts: how messages and descriptions show a text inside another one.

A text stands between single quotes, or between double quotes where it holds a single quote and no
double one. The quote in use, backslashes, the common control characters and everything that is not
printable are escaped, so no quoted text holds a line break.

    it's   ──▶  "it's"        x\n  ──▶  'x\\n'        it's "a"  ──▶  'it\'s "a"'
-/

namespace Reckon.Text

/-- The quote a text is put between. -/
def quoteMark (cs : List Char) : Char :=
  if cs.contains '\'' && !cs.contains '"' then '"' else '\''

/-- A character between two quote marks: itself, or its escape. -/
def quoteChar (mark c : Char) : List Char :=
  if c = mark || c = '\\' then ['\\', c]
  else if c = '\n' then ['\\', 'n']
  else if c = '\r' then ['\\', 'r']
  else if c = '\t' then ['\\', 't']
  else if isPrintable c then [c]
  else if c.toNat < 0x100 then '\\' :: 'x' :: hex 2 c.toNat
  else if c.toNat < 0x10000 then '\\' :: 'u' :: hex 4 c.toNat
  else '\\' :: 'U' :: hex 8 c.toNat

/-- The text between quotes. -/
def quote (s : String) : String :=
  let mark := quoteMark s.toList
  String.ofList (mark :: s.toList.flatMap (quoteChar mark) ++ [mark])

end Reckon.Text
