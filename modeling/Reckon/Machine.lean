import Reckon.Program.Fault

/-!
The stack machine.

An operand is pushed; an operator takes its operands off the stack and pushes what `combine` makes of
them. What a value is, and what combining means, is left open: numbers are computed, trees are built,
texts are put together, applications are recorded. The combining step also sees the values that stay
on the stack below its operands.

    stack     instruction      stack
    r l s ─── operator   ────▶ (l op r) s        combine (l op r) s
-/

namespace Reckon

/-- An operator with its operands. -/
inductive Application (V : Type) where
  | negate (x : V)
  | binary (op : Binary) (left right : V)
  deriving Repr

namespace Application

/-- The operator that is applied. -/
def operator {V : Type} : Application V → Operator
  | .negate _ => .negate
  | .binary op _ _ => .binary op

/-- The only operand of a negation, or the left one of two. -/
def left {V : Type} : Application V → V
  | .negate x => x
  | .binary _ left _ => left

/-- The right operand where there are two. -/
def right? {V : Type} : Application V → Option V
  | .negate _ => none
  | .binary _ _ right => some right

end Application

namespace Machine

variable {V : Type} {m : Type → Type} [Monad m]

/-- One instruction, on a stack whose top comes first. -/
def step (combine : Application V → List V → m V) (stack : List V) (i : Instruction V) :
    ExceptT Fault m (List V) :=
  match i, stack with
  | .operand a, stack => pure (a :: stack)
  | .operator .negate, x :: stack => return (← combine (.negate x) stack) :: stack
  | .operator (.binary op), right :: left :: stack =>
    return (← combine (.binary op left right) stack) :: stack
  | .operator op, _ => throw (.missingOperand op)

/-- Runs a program on the empty stack; it has to leave one value. Combining reads the stack that it is
shown: it has effects of its own in `m`, but it does not write to the stack of the machine. -/
def run (combine : Application V → List V → m V) (p : List (Instruction V)) : ExceptT Fault m V := do
  match ← p.foldlM (step combine) [] with
  | [x] => pure x
  | stack => throw (.leftover stack.length)

end Machine

end Reckon
