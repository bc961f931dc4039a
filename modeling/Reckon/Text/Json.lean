import Reckon.Text.Hex

/-!
JSON in its plainest written form: ASCII alone, one blank after each comma.

A character outside ASCII is written by its UTF-16 units, so one beyond the basic plane takes two
escapes. The form of a value is fixed by the value: equal values have equal texts.
-/

namespace Reckon.Json

/-- The escape of one UTF-16 unit. -/
def escapeUnit (n : Nat) : List Char := '\\' :: 'u' :: Text.hex 4 n

/-- A character inside a JSON string: itself, or its escape. -/
def escapeChar (c : Char) : List Char :=
  if c = '"' || c = '\\' then ['\\', c]
  else if c = '\n' then ['\\', 'n']
  else if c = '\r' then ['\\', 'r']
  else if c = '\t' then ['\\', 't']
  else if c = '\x0c' then ['\\', 'f']
  else if c = '\x08' then ['\\', 'b']
  else if 0x20 ≤ c.toNat && c.toNat < 0x7F then [c]
  else if c.toNat < 0x10000 then escapeUnit c.toNat
  else
    let rest := c.toNat - 0x10000
    escapeUnit (0xD800 + rest / 0x400) ++ escapeUnit (0xDC00 + rest % 0x400)

/-- A text as a JSON string. -/
def string (s : String) : String :=
  String.ofList ('"' :: s.toList.flatMap escapeChar ++ ['"'])

/-- A JSON array of values that are written already. -/
def array (items : List String) : String := "[" ++ ", ".intercalate items ++ "]"

/-- The value of a variable that has none. -/
def null : String := "null"

end Reckon.Json
