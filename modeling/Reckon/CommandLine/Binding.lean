import Reckon.Number.Reading
import Reckon.Text.Quoted

/-!
Bindings: a name and a number with an equals sign between them.

The first equals sign parts the two; blanks around the name and the number do not count. The name has
to be there, the number has to be one.

    " x_1 = 2.5 "   ──▶   x_1, float 2.5
-/

namespace Reckon.Binding

/-- The text without the blanks around it. -/
def trim (cs : List Char) : String := String.ofList (Text.trim cs)

/-- The name and the number that a text binds. -/
def parse? (s : String) : Option (String × Number) :=
  match s.toList.span (· != '=') with
  | (name, _ :: number) =>
    if trim name = "" then none
    else (Reading.number? (trim number)).map fun n => (trim name, n)
  | (_, []) => none

/-- What is said about a text that binds nothing. -/
def refusal (s : String) : String :=
  Text.quote s ++ " is not a valid variable binding. A binding has the form \"[name]=[number]\", " ++
    "e.g. \"x_1=2.5\"."

end Reckon.Binding
