/-!
Fixed spellings at the front of a text.
-/

namespace Reckon.Text

/-- The text behind a spelling, if the text starts with it. -/
def behind? : List Char → List Char → Option (List Char)
  | [], cs => some cs
  | _ :: _, [] => none
  | s :: spelling, c :: cs => if s = c then behind? spelling cs else none

theorem behind?_eq_some {spelling cs rest : List Char} :
    behind? spelling cs = some rest ↔ cs = spelling ++ rest := by
  fun_induction behind? spelling cs with
  | case1 cs => simp
  | case2 => simp
  | case3 spelling c cs ih => simp [ih]
  | case4 s spelling c cs hne => simp [Ne.symm hne]

end Reckon.Text
