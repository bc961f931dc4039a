/-!
Hexadecimal numerals of a fixed width, in lower case.
-/

namespace Reckon.Text

/-- The last `width` hexadecimal digits of a number, zeros in front where it is short. -/
def hex : Nat → Nat → List Char
  | 0, _ => []
  | width + 1, n => hex width (n / 16) ++ [Nat.digitChar (n % 16)]

@[simp] theorem length_hex (width n : Nat) : (hex width n).length = width := by
  induction width generalizing n with
  | zero => rfl
  | succ width ih => simp [hex, ih]

end Reckon.Text
