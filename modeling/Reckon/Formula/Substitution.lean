import Reckon.Text.Word

/-!
Putting values into a text in place of names.

A word is a run of word characters, as long as it can be. A word that is a name is replaced as a
whole, never a part of one, and never a word behind a backslash, since that is a TeX command.

    ab + a      a = 4   ──▶   ab + 4
    \a + a      a = 4   ──▶   \a + 4
-/

namespace Reckon.Substitution

/-- The text with its words replaced where `value` knows them; `command` tells whether a backslash
stands before the text. -/
def replaceWords (value : List Char → Option (List Char)) (command : Bool) :
    List Char → List Char
  | [] => []
  | c :: cs =>
    if Text.isWordChar c then
      let word := c :: cs.takeWhile Text.isWordChar
      (if command then word else (value word).getD word) ++
        replaceWords value false (cs.dropWhile Text.isWordChar)
    else c :: replaceWords value (c == '\\') cs
termination_by cs => cs.length
decreasing_by
  · exact Nat.lt_succ_of_le (List.dropWhile_suffix _).length_le
  · simp

/-- The text with names replaced by the texts that are given for them. -/
def apply (values : List (String × String)) (source : String) : String :=
  String.ofList (replaceWords
    (fun word => (values.lookup (String.ofList word)).map String.toList) false source.toList)

end Reckon.Substitution
