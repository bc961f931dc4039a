import Reckon.CommandLine.Arguments.Similarity
import Reckon.CommandLine.Arguments.Usage

/-!
Options on a command line.

An option has a long name and perhaps a short one, and takes a value or none. A long name may carry
its value behind an equals sign. Short names may stand in a row behind one dash; the first one that
takes a value takes the rest of the row, or else the next argument. Two dashes alone end the
options. Options that are scanned keep the order they were given in.

    -vx=1  --json  a  -- -b       occurrences   var "x=1", json
                                  positional    a, -b
-/

namespace Reckon.CommandLine

/-- What may be set on a command line. -/
inductive Setting where
  | version
  | help
  | warnings
  | json
  | var
  | background
  | density
  | noParse
  deriving DecidableEq, Repr

namespace Setting

/-- The long name of an option. -/
def long : Setting → String
  | .version => "--version"
  | .help => "--help"
  | .warnings => "--warnings"
  | .json => "--json"
  | .var => "--var"
  | .background => "--background"
  | .density => "--density"
  | .noParse => "--no-parse"

/-- The short name of an option, without its dash. -/
def short? : Setting → Option Char
  | .var => some 'v'
  | .background => some 'b'
  | .density => some 'd'
  | _ => none

/-- Whether an option takes a value. -/
def takesValue : Setting → Bool
  | .warnings | .var | .background | .density => true
  | _ => false

/-- How messages call an option: its names between quotes. -/
def label (s : Setting) : String :=
  match s.short? with
  | some c => Text.quote (String.ofList ['-', c]) ++ " / " ++ Text.quote s.long
  | none => Text.quote s.long

end Setting

/-- The options of a command. -/
def Command.settings : Command → List Setting
  | .program => [.warnings, .json, .help]
  | .tree | .variables | .value => [.warnings, .var, .help]
  | .image => [.warnings, .var, .background, .density, .noParse, .help]

/-- An option as it occurs, with its value; the value is empty where it takes none. -/
abbrev Occurrence := Setting × String

/-- What one argument yields: its options, and the last of them if its value is still to come. -/
structure Taken where
  occurrences : List Occurrence
  /-- The option whose value is the next argument, with the name it was given by. -/
  awaiting : Option (Setting × String)

/-- An argument with a long name. -/
def takeLong (settings : List Setting) (arg : List Char) : Except UsageError Taken :=
  let name := String.ofList (arg.takeWhile (· != '='))
  let value : Option String := match arg.dropWhile (· != '=') with
    | _ :: value => some (String.ofList value)
    | [] => none
  match settings.find? fun s => s.long = name with
  | none => .error (.noSuchOption name (Similarity.closest name (settings.map Setting.long)))
  | some s =>
    match s.takesValue, value with
    | true, some value => .ok ⟨[(s, value)], none⟩
    | true, none => .ok ⟨[], some (s, name)⟩
    | false, some _ => .error (.valueUnexpected name)
    | false, none => .ok ⟨[(s, "")], none⟩

/-- An argument with a row of short names, its dash taken off. -/
def takeShort (settings : List Setting) : List Char → Except UsageError Taken
  | [] => .ok ⟨[], none⟩
  | c :: cs =>
    let name := String.ofList ['-', c]
    match settings.find? fun s => s.short? = some c with
    | none => .error (.noSuchOption name [])
    | some s =>
      if s.takesValue then
        match cs with
        | [] => .ok ⟨[], some (s, name)⟩
        | cs => .ok ⟨[(s, String.ofList cs)], none⟩
      else (takeShort settings cs).map fun t => { t with occurrences := (s, "") :: t.occurrences }

/-- An argument that starts with a dash and does not end there. -/
def takeOption (settings : List Setting) (arg : List Char) : Except UsageError Taken :=
  match arg with
  | '-' :: '-' :: _ => takeLong settings arg
  | _ => takeShort settings arg.tail

/-- The options of a command line in order, and the other arguments. -/
structure Scan where
  occurrences : List Occurrence
  positional : List String

/-- Whether an argument names options. -/
def isOption (arg : String) : Bool := arg.toList.head? = some '-' && arg != "-"

/-- Scans arguments for options. Unless arguments and options may mix, the first argument that is no
option ends the options. -/
def scan (settings : List Setting) (mix : Bool) : List String → Except UsageError Scan
  | [] => .ok ⟨[], []⟩
  | arg :: rest =>
    if arg = "--" then .ok ⟨[], rest⟩
    else if isOption arg then
      match takeOption settings arg.toList with
      | .error e => .error e
      | .ok ⟨found, none⟩ =>
        (scan settings mix rest).map fun s => { s with occurrences := found ++ s.occurrences }
      | .ok ⟨found, some (setting, name)⟩ =>
        match rest with
        | [] => .error (.valueMissing name)
        | value :: rest =>
          (scan settings mix rest).map fun s =>
            { s with occurrences := found ++ (setting, value) :: s.occurrences }
    else if mix then
      (scan settings mix rest).map fun s => { s with positional := arg :: s.positional }
    else .ok ⟨[], arg :: rest⟩

end Reckon.CommandLine
