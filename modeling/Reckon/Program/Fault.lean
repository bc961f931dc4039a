import Reckon.Program.Basic

/-!
What can be wrong with a postfix program, found by counting.

Run on a stack, a program needs the operands of each operator in place and leaves one value. Counting
the values is enough to see whether it does, and if not, where it first fails.

    2 3 plus    0 ─▶ 1 ─▶ 2 ─▶ 1       one value left
    2 plus      0 ─▶ 1 ─▶ missing operand for plus
    2 3         0 ─▶ 1 ─▶ 2            two values left
-/

namespace Reckon

/-- Why a program does not compute one value. -/
inductive Fault where
  /-- An operator lacks an operand. -/
  | missingOperand (op : Operator)
  /-- The program ends with some number of values other than one. -/
  | leftover (count : Nat)
  deriving DecidableEq, Repr

/-- The text of a fault. -/
def Fault.message : Fault → String
  | .missingOperand op => "Missing operand for \"" ++ op.tag ++ "\""
  | .leftover count =>
    s!"Malformed program: {count} values left on stack instead of one"

/-- The number of values on the stack after an instruction. -/
def Instruction.depth {α : Type} (depth : Nat) : Instruction α → Except Fault Nat
  | .operand _ => .ok (depth + 1)
  | .operator op =>
    if depth < op.arity then .error (.missingOperand op) else .ok (depth - op.arity + 1)

/-- Accepts the empty program and every program that leaves one value. -/
def checkOperands {α : Type} (p : List (Instruction α)) : Except Fault Unit :=
  match p.foldlM Instruction.depth 0 with
  | .error fault => .error fault
  | .ok depth => if p.isEmpty || depth == 1 then .ok () else .error (.leftover depth)

end Reckon
