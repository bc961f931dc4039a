import Reckon.Text.Quoted

/-!
Paths.

A path starts at the root or in the working directory and names the parts on the way. A point for a
part stays where it is. Two slashes at the front are kept apart from the root, where a system may give
them a meaning of their own; any other number of them is the root.

    a//./b      ──▶   a/b               ///a   ──▶   /a               //a   ──▶   //a
-/

namespace Reckon.CommandLine

/-- A path. -/
structure Path where
  /-- The slashes at the front; none where the path starts in the working directory. -/
  root : String
  parts : List String
  deriving DecidableEq, Repr

/-- Why no file can be written where a path leads. -/
inductive FileError where
  | noDirectory (path : String)
  | nameTooLong (path : String)
  /-- No path holds the null character. -/
  | nullCharacter
  deriving DecidableEq, Repr

/-- The text of a file error. -/
def FileError.message : FileError → String
  | .noDirectory path => "[Errno 2] No such file or directory: " ++ Text.quote path
  | .nameTooLong path => "[Errno 36] File name too long: " ++ Text.quote path
  | .nullCharacter => "embedded null byte"

namespace Path

/-- The root of a path with so many slashes at the front. -/
def rootOf : Nat → String
  | 0 => ""
  | 2 => "//"
  | _ => "/"

/-- The path that a text names. -/
def ofText (s : String) : Path where
  root := rootOf (s.toList.takeWhile (· == '/')).length
  parts := (s.splitOn "/").filter fun part => part != "" && part != "."

/-- The text of a path. -/
def text (p : Path) : String := p.root ++ "/".intercalate p.parts

end Path

end Reckon.CommandLine
