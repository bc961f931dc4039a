import Reckon.Error

/-!
What sort of failure an error is.

Errors of the calculator itself come in six kinds, by which a caller can tell them apart. All others
come from elsewhere: from arithmetic, from a value that is offered, from a limit on digits, from a
command that is run.

    own       lexical  grammar  unknownVariable  unboundVariable  unsupported  commandUnavailable
    others    zeroDivision  overflow  value  type  process
-/

namespace Reckon

/-- The kinds of errors. -/
inductive ErrorKind where
  | lexical
  | grammar
  | unknownVariable
  | unboundVariable
  | unsupported
  | commandUnavailable
  | zeroDivision
  | overflow
  | value
  | type
  /-- A command ended with a status that means failure. -/
  | process
  deriving DecidableEq, Repr

/-- Whether errors of a kind are the calculator's own. -/
def ErrorKind.isOwn : ErrorKind → Bool
  | .lexical | .grammar | .unknownVariable | .unboundVariable | .unsupported
  | .commandUnavailable => true
  | .zeroDivision | .overflow | .value | .type | .process => false

/-- The kind of a parse error. An integer with too many digits is refused by the reading of integers. -/
def ParseError.kind : ParseError → ErrorKind
  | .lexical (.longNumeral _) => .value
  | .lexical _ => .lexical
  | _ => .grammar

/-- The kind of an arithmetic error. -/
def ArithmeticError.kind : ArithmeticError → ErrorKind
  | .integerDivision | .floatDivision | .zeroToNegative => .zeroDivision
  | .integerTooLarge | .quotientTooLarge | .powerTooLarge | .complexPowerTooLarge => .overflow
  | .noRealPower .. => .value

/-- The kind of a calculation error. -/
def CalculationError.kind : CalculationError → ErrorKind
  | .equation => .unsupported
  | .unbound _ => .unboundVariable
  | .malformed _ => .grammar
  | .arithmetic e => e.kind

/-- The kind of a refusal. -/
def OfferError.kind : OfferError → ErrorKind
  | .notReal _ => .type
  | .tooLarge => .overflow

/-- The kind of an error. -/
def Error.kind : Error → ErrorKind
  | .parse _ e => e.kind
  | .unknownVariable _ => .unknownVariable
  | .offer e => e.kind
  | .unwritable => .value
  | .calculation e => e.kind
  | .malformed _ => .grammar
  | .missingCommands _ => .commandUnavailable
  | .commandFailed .. => .process
  | .infiniteDensity => .overflow
  | .undefinedDensity => .value

end Reckon
