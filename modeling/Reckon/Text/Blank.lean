/-!
Blank characters: the ones that separate tokens and that are trimmed from the ends of a text.

The class is the white space of the character database (line and paragraph separators, the wide and
narrow spaces) together with the four control characters that separate records, U+001C to U+001F.
Dropping blanks from the front is idempotent and stops at the first character that is not blank.
-/

namespace Reckon.Text

/-- The code points of the blank characters, as closed ranges in ascending order. -/
def blankRanges : List (Nat × Nat) :=
  [(0x09, 0x0D), (0x1C, 0x20), (0x85, 0x85), (0xA0, 0xA0), (0x1680, 0x1680), (0x2000, 0x200A),
   (0x2028, 0x2029), (0x202F, 0x202F), (0x205F, 0x205F), (0x3000, 0x3000)]

/-- Whether a character separates tokens. -/
def isBlank (c : Char) : Bool :=
  blankRanges.any fun (low, high) => low ≤ c.toNat && c.toNat ≤ high

/-- The text without the blanks in front of it. -/
def skipBlanks (cs : List Char) : List Char := cs.dropWhile isBlank

/-- The text without the blanks in front of it and behind it. -/
def trim (cs : List Char) : List Char := (skipBlanks (skipBlanks cs).reverse).reverse

/-! ### What skipping keeps -/

theorem skipBlanks_suffix (cs : List Char) : skipBlanks cs <:+ cs := List.dropWhile_suffix isBlank

@[simp] theorem skipBlanks_cons_of_not {c : Char} (cs : List Char) (h : isBlank c = false) :
    skipBlanks (c :: cs) = c :: cs := by simp [skipBlanks, h]

@[simp] theorem skipBlanks_nil : skipBlanks [] = [] := rfl

/-- What is left after skipping starts with no blank. -/
theorem isBlank_head_skipBlanks {c : Char} {cs rest : List Char} (h : skipBlanks cs = c :: rest) :
    isBlank c = false := by
  induction cs with
  | nil => simp at h
  | cons d ds ih =>
    by_cases hd : isBlank d
    · exact ih (by simpa [skipBlanks, hd] using h)
    · simp only [Bool.not_eq_true] at hd
      rw [skipBlanks_cons_of_not ds hd] at h
      exact (List.cons.inj h).1 ▸ hd

end Reckon.Text
