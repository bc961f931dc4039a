import Reckon.CommandLine.Arguments.Setting
import Reckon.CommandLine.Binding
import Reckon.CommandLine.Placement

/-!
Reading the arguments of a command.

The values of options are read in the order in which the options were first given, then the
arguments; the first value that cannot be read is the error that is told. Arguments that are left
over come last.

    arguments ──scan──▶ options, rest ──read──▶ invocation        or help, misuse, no file
-/

namespace Reckon.CommandLine

/-- What is said about a text that names no mode. -/
def WarningMode.refusal (s : String) : String :=
  Text.quote s ++ " is not one of " ++
    ", ".intercalate (all.map fun mode => Text.quote mode.name) ++ "."

/-- Why arguments come to no invocation. -/
inductive Stop where
  /-- Help is asked for. -/
  | help
  | misuse (e : UsageError)
  /-- No file can be at the path that is given. -/
  | file (e : FileError)

namespace Invocation

/-- The values an option was given, in order. -/
def valuesOf (s : Setting) (occurrences : List Occurrence) : List String :=
  (occurrences.filter fun (setting, _) => setting = s).map Prod.snd

/-- The bindings that some texts denote. -/
def readBindings (values : List String) : Except UsageError (List (String × Number)) :=
  values.mapM fun value =>
    match Binding.parse? value with
    | some binding => .ok binding
    | none => .error (.invalidValue Setting.var.label (Binding.refusal value))

/-- Takes the values of one option over. Of an option that is given more than once the last value
counts, except that all variables are bound. -/
def takeSetting (occurrences : List Occurrence) (i : Invocation) (s : Setting) :
    Except UsageError Invocation :=
  let values := valuesOf s occurrences
  let last := values.getLastD ""
  match s with
  | .version | .help => .ok i
  | .warnings =>
    match WarningMode.all.find? fun mode => mode.name = last with
    | some mode => .ok { i with mode }
    | none => .error (.invalidValue s.label (WarningMode.refusal last))
  | .json => .ok { i with json := true }
  | .var => (readBindings values).map fun bindings => { i with bindings }
  | .background => .ok { i with background := last }
  | .density =>
    match Reading.int? last with
    | some density => .ok { i with density }
    | none => .error (.invalidValue s.label (Text.quote last ++ " is not a valid integer."))
  | .noParse => .ok { i with noParse := true }

/-- Takes the file over that the image is written to. Nothing is at the empty path; where else a
directory is, no file can be written. -/
def takeOutfile (i : Invocation) (outfile : String) : Except Stop Invocation :=
  let path := Path.ofText outfile
  if outfile.toList.contains '\x00' then .error (.file .nullCharacter)
  else if outfile != "" && path.isDirectory then
    .error (.misuse (.invalidValue "'OUTFILE'" ("File " ++ Text.quote outfile ++ " is a directory.")))
  else .ok { i with outfile := path }

/-! ### Reading a command line -/

/-- Takes the arguments over that are no options. -/
def takeArguments (c : Command) (i : Invocation) : List String → Except Stop Invocation
  | [] => .error (.misuse (.missingArgument "EXPRESSION"))
  | expression :: rest =>
    let i := { i with expression }
    if c = .image then
      match rest with
      | [] => .error (.misuse (.missingArgument "OUTFILE"))
      | outfile :: rest => do noneLeft (← i.takeOutfile outfile) rest
    else noneLeft i rest
where
  /-- Accepts the invocation if no argument is left over. -/
  noneLeft (i : Invocation) : List String → Except Stop Invocation
    | [] => .ok i
    | rest => .error (.misuse (.extraArguments rest))

/-- The invocation of a command with its arguments. A request for help needs no arguments. -/
def ofArguments (c : Command) (args : List String) : Except Stop Invocation := do
  let s ← (scan c.settings true args).mapError .misuse
  let given := (s.occurrences.map Prod.fst).eraseDups
  if given.contains .help then throw .help
  let i ← (given.foldlM (takeSetting s.occurrences) default).mapError .misuse
  takeArguments c i s.positional

end Invocation

end Reckon.CommandLine
