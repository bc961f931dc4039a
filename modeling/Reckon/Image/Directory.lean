/-!
Directories: finite maps from file names to contents, and the suffixes of file names.

A suffix begins at the last point of a name, provided that something stands before the point and
behind it; `.profile` has none. Replacing the suffix of a name without one adds it.
-/

namespace Reckon

/-- The files of a directory, each name once. -/
abbrev Directory := List (String × String)

namespace Directory

/-- The content of a file, if it is there. -/
def read? (d : Directory) (name : String) : Option String := d.lookup name

/-- The directory without a file; nothing changes where it is not there. -/
def remove (d : Directory) (name : String) : Directory := d.filter fun (other, _) => other != name

/-- The directory with a file written. -/
def write (d : Directory) (name content : String) : Directory := (name, content) :: d.remove name

/-- The names of the files in ascending order. -/
def names (d : Directory) : List String := (d.map Prod.fst).mergeSort fun a b => !decide (b < a)

/-- A file name without its suffix. -/
def stem (name : String) : String :=
  let reversed := name.toList.reverse
  match reversed.takeWhile (· != '.'), reversed.dropWhile (· != '.') with
  | _ :: _, _ :: c :: cs => String.ofList (c :: cs).reverse
  | _, _ => name

/-- A file name with another suffix. -/
def withSuffix (name suffix : String) : String := stem name ++ suffix

end Directory

end Reckon
