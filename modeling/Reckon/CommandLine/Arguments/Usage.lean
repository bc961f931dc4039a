import Reckon.CommandLine.Invocation
import Reckon.Text.Quoted

/-!
How a command line is used, and what is said where it is used wrongly.
-/

namespace Reckon.CommandLine

/-- How a command is called. -/
def Command.path (c : Command) : String := "calculus " ++ c.name

/-- The usage of a command. -/
def Command.usage (c : Command) : String :=
  "Usage: " ++ c.path ++ " [OPTIONS] EXPRESSION" ++ (if c = .image then " OUTFILE" else "") ++ "\n"

/-- The usage of the program. -/
def usage : String := "Usage: calculus [OPTIONS] COMMAND [ARGS]...\n"

/-- What is told in front of an error: a usage, and how to get help. -/
def hint (usage path : String) : String :=
  usage ++ "Try '" ++ path ++ " --help' for help.\n\n"

/-- Why a command line cannot be carried out. -/
inductive UsageError where
  /-- An option does not exist; others are like it. -/
  | noSuchOption (name : String) (similar : List String)
  /-- An option takes a value, and none is left. -/
  | valueMissing (name : String)
  /-- An option takes no value, and one is given. -/
  | valueUnexpected (name : String)
  | missingArgument (name : String)
  | extraArguments (args : List String)
  /-- The value of an option or an argument, called by its label, is not valid. -/
  | invalidValue (label reason : String)
  | noSuchCommand (name : String)
  | missingCommand
  deriving DecidableEq, Repr

/-- The text of a usage error. -/
def UsageError.message : UsageError → String
  | .noSuchOption name similar =>
    "No such option: " ++ name ++
      match similar with
      | [] => ""
      | [one] => " Did you mean " ++ one ++ "?"
      | several => " (Possible options: " ++ ", ".intercalate several ++ ")"
  | .valueMissing name => "Option " ++ Text.quote name ++ " requires an argument."
  | .valueUnexpected name => "Option " ++ Text.quote name ++ " does not take a value."
  | .missingArgument name => "Missing argument '" ++ name ++ "'."
  | .extraArguments args =>
    "Got unexpected extra argument" ++ (if args.length = 1 then "" else "s") ++
      " (" ++ " ".intercalate args ++ ")"
  | .invalidValue label reason => "Invalid value for " ++ label ++ ": " ++ reason
  | .noSuchCommand name => "No such command " ++ Text.quote name ++ "."
  | .missingCommand => "Missing command."

/-- Whether an error is told without the usage of the command: a value is missing or unexpected. -/
def UsageError.isBare : UsageError → Bool
  | .valueMissing _ | .valueUnexpected _ => true
  | _ => false

end Reckon.CommandLine
