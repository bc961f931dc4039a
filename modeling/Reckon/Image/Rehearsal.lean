import Reckon.Image.Basic

/-!
Rehearsed commands: what the two commands do to a directory, without the work.

The first command leaves its two records behind and, unless it is to fail, the pages; the second one
leaves the file that is named after `-o`. A rehearsal says which commands cannot be found, which
ones the environment sets, and which run is to fail with which status.
-/

namespace Reckon.Image

/-- How the commands are to behave. -/
structure Rehearsal where
  /-- The commands that cannot be found. -/
  missing : List String
  /-- The variables of the environment. -/
  environment : List (String × String)
  /-- The run that fails, counted from zero. -/
  failing : Option Nat
  /-- The status of the run that fails. -/
  status : Int

/-- All commands are there and succeed. -/
def Rehearsal.smooth : Rehearsal := ⟨[], [], none, 1⟩

/-- What the drawn image consists of. -/
def Rehearsal.picture : String := "PNG"

/-- The failure of a run, if it is the one that fails. -/
def Rehearsal.failureOf (r : Rehearsal) (run : Nat) : Option Int :=
  if r.failing = some run then some r.status else none

/-- The first command: two records, and the pages where it succeeds. -/
def Rehearsal.typeset (r : Rehearsal) (d : Directory) (arguments : List String) : Run :=
  let tex := arguments.getLastD ""
  let d := (d.write (Directory.withSuffix tex ".aux") "").write (Directory.withSuffix tex ".log") ""
  let d := if r.failing = some 0 then d else d.write (Directory.withSuffix tex ".dvi") ""
  ⟨d, r.failureOf 0⟩

/-- The argument behind an option. -/
def argumentOf (option : String) : List String → Option String
  | a :: b :: rest => if a = option then some b else argumentOf option (b :: rest)
  | _ => none

/-- The second command: the image where it succeeds. -/
def Rehearsal.draw (r : Rehearsal) (d : Directory) (arguments : List String) : Run :=
  let drawn := match argumentOf "-o" arguments with
    | some png => d.write png picture
    | none => d
  ⟨if r.failing = some 1 then d else drawn, r.failureOf 1⟩

/-- The rehearsed commands as a toolbox. -/
def Rehearsal.toolbox (r : Rehearsal) : Toolbox where
  setting name := r.environment.lookup name
  isMissing command := r.missing.contains command
  typeset := r.typeset
  draw := r.draw

end Reckon.Image
