import Reckon.Operand
import Reckon.Machine

/-!
Two ways to watch the stack machine at work.

The parenthesized form writes every application out between parentheses, so the text shows which
operands each operator got. The journal records the applications one after another, with the values
that stay on the stack, and calls their results t1, t2 and so on.

    2 3 plus 4 mul     parenthesized   ((2 plus 3) mul 4)
                       journal         t1 = 2 plus 3,  t2 = t1 mul 4
-/

namespace Reckon

/-- An operand as text, where it can be written. -/
def Operand.text? (a : Operand) : Option String := if a.isWritable then some a.text else none

/-- An application between parentheses; the operand that a negation lacks is written `None`. -/
def Application.parenthesized? (a : Application Operand) : Option Operand := do
  let left ← a.left.text?
  let right ← match a.right? with
    | some right => right.text?
    | none => some "None"
  return .name ("(" ++ left ++ " " ++ a.operator.tag ++ " " ++ right ++ ")")

/-- The parenthesized form of a program, or its only operand where there is no operator; none where a
number on the way cannot be written. -/
def Program.parenthesized? (v : Valuation) (p : Program) : Option (Except Fault Operand) :=
  (Machine.run (fun a _ => a.parenthesized?) (p.resolve v) : ExceptT Fault Option Operand).run

/-- An application and the values that stay on the stack below it, the top first. -/
structure JournalEntry where
  application : Application Operand
  below : List Operand
  deriving Repr

/-- Records an application and names its result after its number. -/
def record (a : Application Operand) (below : List Operand) : StateM (List JournalEntry) Operand := do
  modify (· ++ [⟨a, below⟩])
  return .name s!"t{(← get).length}"

/-- Runs a program and records its applications: the name of the last result, or the fault, and the
record up to there. -/
def Program.journal (v : Valuation) (p : Program) : Except Fault Operand × List JournalEntry :=
  ((Machine.run record (p.resolve v) : ExceptT Fault (StateM (List JournalEntry)) Operand).run).run []

end Reckon
