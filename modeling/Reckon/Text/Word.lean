/-!
The characters of names and words.

A name is built from ASCII letters and digits. Letters match regardless of case under the folding
rules of the character database, so the four characters that fold to an ASCII letter belong to the
class too: dotted capital I, dotless i, long s and the Kelvin sign. A word character is a name
character or the underscore that joins a name to its subscript.
-/

namespace Reckon.Text

/-- Whether a character may stand in a name: an ASCII letter or digit, or a character that folds to
one regardless of case. -/
def isNameChar (c : Char) : Bool :=
  c.isAlphanum || c = '\u0130' || c = '\u0131' || c = '\u017F' || c = '\u212A'

/-- Whether a character may stand in a name or between a name and its subscript. -/
def isWordChar (c : Char) : Bool := isNameChar c || c = '_'

theorem isNameChar_of_isDigit {c : Char} (h : c.isDigit) : isNameChar c := by
  simp [isNameChar, Char.isAlphanum, h]

theorem isWordChar_of_isNameChar {c : Char} (h : isNameChar c) : isWordChar c := by
  simp [isWordChar, h]

theorem isWordChar_of_isDigit {c : Char} (h : c.isDigit) : isWordChar c :=
  isWordChar_of_isNameChar (isNameChar_of_isDigit h)

end Reckon.Text
