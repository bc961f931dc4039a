import Reckon.CommandLine.Path

/-!
Where a file can be written, as it is seen from an empty working directory.

Two points for a part lead up. Few directories are known to be there: those that lie above the working
directory, and of those below the root the two that every system has. A file can be written where one
part leads beyond them.

    ../tmp/a    ──▶   no directory      /tmp/a   ──▶   outside         ./a   ──▶   in the directory
-/

namespace Reckon.CommandLine.Path

/-- The directories, by their parts from the root on, that every system has. -/
def standing : List (List String) := [[], ["dev"], ["tmp"]]

/-- What is left of some parts where they lead from a standing directory to one that is not known. -/
def beyondStanding (place : List String) : List String → List String
  | [] => []
  | part :: rest =>
    let next := if part = ".." then place.dropLast else place ++ [part]
    if standing.contains next then beyondStanding next rest else part :: rest

/-- The parts of a path that lead beyond the directories that are known to be there. -/
def beyond (p : Path) : List String :=
  if p.root = "" then p.parts.dropWhile (· == "..") else beyondStanding [] p.parts

/-- Whether a directory is known to be where a path leads. -/
def isDirectory (p : Path) : Bool := p.beyond.isEmpty

/-- The most bytes of the name of a file. -/
def nameLimit : Nat := 255

/-- The most bytes of the text of a path. -/
def textLimit : Nat := 4095

/-- Why no file can be written where a path leads. -/
def fault? (p : Path) : Option FileError :=
  if textLimit < p.text.utf8ByteSize then some (.nameTooLong p.text)
  else
    match p.beyond with
    | [] => none
    | name :: rest =>
      if nameLimit < name.utf8ByteSize then some (.nameTooLong p.text)
      else if rest.isEmpty then none
      else some (.noDirectory p.text)

/-- The name in the working directory that an image gets, if it is placed there; the image keeps its
own name where the path has none. -/
def place (p : Path) (png : String) : Except FileError (Option String) :=
  match p.fault?, p.root, p.parts with
  | some e, _, _ => .error e
  | none, "", [] => .ok (some png)
  | none, "", [name] => .ok (some name)
  | none, _, _ => .ok none

end Reckon.CommandLine.Path
