import Reckon.CommandLine.Arguments.Reading
import Reckon.CommandLine.Command

/-!
The command line.

The arguments of a command are read, and the command is carried out for what they ask. What is wrong
with the arguments is told with status 2, behind the usage of the command.

    arguments ──▶ invocation ──▶ output, errors, status
        │
     status 2
-/

namespace Reckon.CommandLine

/-- What is told of an error in the use of a command, or of the program. -/
def UsageError.outcome (usage path : String) (e : UsageError) : Outcome :=
  .misused (if e.isBare then "" else hint usage path) e.message

/-- What is told where arguments come to no invocation. -/
def Stop.outcome (c : Command) : Stop → Outcome
  | .help => .told c.usage
  | .misuse e => e.outcome c.usage c.path
  | .file e => { ending := .noFile e }

/-- The surroundings of a command that is called by its path in an empty working directory. -/
def Surroundings.ofTools (tools : Image.Toolbox) : Surroundings where
  tools
  preface c := hint c.usage c.path
  place := Path.place

/-- Carries a command out for what its arguments ask. -/
def Command.run (tools : Image.Toolbox) (c : Command) (args : List String) : Outcome :=
  match Invocation.ofArguments c args with
  | .ok i => c.perform (.ofTools tools) i
  | .error stop => stop.outcome c

/-- The version of the program. -/
def version : String := "Version 0.3.0\n"

/-- Carries a command line out. Of version and usage, the one asked for first is told. -/
def run (tools : Image.Toolbox) (args : List String) : Outcome :=
  match scan [.version, .help] false args with
  | .error e => e.outcome usage "calculus"
  | .ok s =>
    match s.occurrences.head?, s.positional with
    | some (.version, _), _ => .told version
    | some _, _ => .told usage
    | none, [] =>
      if args.isEmpty then .told usage else UsageError.missingCommand.outcome usage "calculus"
    | none, name :: rest =>
      match Command.all.find? fun c => c.name = name with
      | some c => c.run tools rest
      | none => (UsageError.noSuchCommand name).outcome usage "calculus"

end Reckon.CommandLine
