import Reckon.CommandLine.Basic
import Reckon.Image.Rehearsal

/-!
The program: a command line carried out.

Typesetting needs commands that this program does not start, so to it they are all missing.
-/

namespace Reckon.CommandLine

/-- The toolbox of this program: the required commands are not in it. -/
def bareToolbox : Image.Toolbox :=
  { Image.Rehearsal.smooth with missing := Image.required }.toolbox

/-- Tells what a command leaves behind and returns its status. -/
def Outcome.tell (o : Outcome) : IO UInt32 := do
  IO.print o.output
  IO.eprint o.errors
  o.files.forM fun (name, content) => IO.FS.writeFile name content
  match o.ending with
  | .status code => return code.toUInt32
  | .error e => IO.eprintln e.message; return 1
  | .noFile e => IO.eprintln e.message; return 1

end Reckon.CommandLine

/-- Carries the command line out. -/
def main (args : List String) : IO UInt32 :=
  (Reckon.CommandLine.run Reckon.CommandLine.bareToolbox args).tell
