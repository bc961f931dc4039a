import Reckon.Calculation
import Reckon.Number.Offer
import Reckon.Program.Yard

/-!
Why an operation on a formula fails.

Each error is a cause; what is said about it follows from the cause.
-/

namespace Reckon

/-- The causes of failure. -/
inductive Error where
  /-- A text is not an expression. -/
  | parse (source : String) (e : ParseError)
  /-- A name does not occur in the formula. -/
  | unknownVariable (name : String)
  /-- A value is refused. -/
  | offer (e : OfferError)
  /-- An integer has too many digits to be written. -/
  | unwritable
  /-- There is no numeric value. -/
  | calculation (e : CalculationError)
  /-- A program does not compute one value. -/
  | malformed (fault : Fault)
  /-- Some commands that typesetting needs are not there. -/
  | missingCommands (names : List String)
  /-- A command ended with a status that means failure. -/
  | commandFailed (command : String) (status : Int)
  /-- The density of an image is infinite. -/
  | infiniteDensity
  /-- The density of an image is no number. -/
  | undefinedDensity
  deriving Repr

/-- The text of an error. -/
def Error.message : Error → String
  | .parse source e => e.message source
  | .unknownVariable name => "No such variable defined: " ++ name
  | .offer e => e.message
  | .unwritable =>
    s!"Exceeds the limit ({Number.digitLimit} digits) for integer string conversion; " ++
      "use sys.set_int_max_str_digits() to increase the limit"
  | .calculation e => e.message
  | .malformed fault => fault.message
  | .missingCommands names => "Required commands missing in PATH: " ++ ", ".intercalate names
  | .commandFailed command status => s!"{command} exited with status {status}"
  | .infiniteDensity => "cannot convert float infinity to integer"
  | .undefinedDensity => "cannot convert float NaN to integer"

end Reckon
