/-!
Control sequences: what a text says to a terminal and not to a reader.

A control sequence opens with the escape character and a bracket, goes on with parameters (digits,
semicolons, question marks) and ends with an ASCII letter. A text without its control sequences is
plain. What only begins like a control sequence stays, and a text without the escape character is
plain already.

    ESC[1;31mxESC[0m     ──▶   x
    ESC[3"               ──▶   ESC[3"
-/

namespace Reckon.Text

/-- The character that opens a control sequence. -/
def escape : Char := '\x1b'

/-- Whether a character is part of the parameters of a control sequence. -/
def isControlParameter (c : Char) : Bool := c.isDigit || c = ';' || c = '?'

/-- The text behind the bracket, the parameters and the letter of a control sequence. -/
def behindControl? : List Char → Option (List Char)
  | '[' :: cs =>
    match cs.dropWhile isControlParameter with
    | c :: rest => if c.isAlpha then some rest else none
    | [] => none
  | _ => none

/-- What stands behind a control sequence is shorter than the text. -/
theorem length_behindControl?_lt {cs rest : List Char} (h : behindControl? cs = some rest) :
    rest.length < cs.length := by
  unfold behindControl? at h
  split at h
  · next cs =>
    have hsuffix := (List.dropWhile_suffix (l := cs) isControlParameter).length_le
    split at h
    · next c behind hdrop =>
      rw [hdrop] at hsuffix
      split at h
      · obtain rfl := Option.some.inj h
        simp only [List.length_cons] at hsuffix ⊢
        omega
      · simp at h
    · simp at h
  · simp at h

/-- The text without its control sequences. -/
def withoutControls : List Char → List Char
  | [] => []
  | c :: cs =>
    if c = escape then
      match _h : behindControl? cs with
      | some rest => withoutControls rest
      | none => c :: withoutControls cs
    else c :: withoutControls cs
termination_by cs => cs.length
decreasing_by
  · exact Nat.lt_succ_of_lt (length_behindControl?_lt _h)
  · exact Nat.lt_succ_self _
  · exact Nat.lt_succ_self _

/-- A text as it reads where control sequences count for nothing. -/
def plain (s : String) : String := String.ofList (withoutControls s.toList)

end Reckon.Text
