import Reckon.Operand
import Reckon.Operator

/-!
Programs in postfix notation: operands, each operator behind its operands.

A program has three written forms: a plain text, a description that tells names, numbers and
operators apart, and JSON. In the plain text and in JSON an operator is written by its tag, just like
a name.

    2 + x * 4     text          2 x 4 mul plus
                  description   (2, 'x', 4, :mul, :plus)
                  JSON          [2, "x", 4, "mul", "plus"]
-/

namespace Reckon

/-- A step of a postfix program over operands of some kind. -/
inductive Instruction (α : Type) where
  | operand (a : α)
  | operator (op : Operator)
  deriving DecidableEq, Repr

namespace Instruction

/-- The instruction with its operand mapped to something else. -/
def map {α β : Type} (f : α → β) : Instruction α → Instruction β
  | .operand a => .operand (f a)
  | .operator op => .operator op

/-- The instruction with its operand mapped where that succeeds. -/
def map? {α β : Type} (f : α → Option β) : Instruction α → Option (Instruction β)
  | .operand a => (f a).map .operand
  | .operator op => some (.operator op)

/-- The operand of an instruction that has one. -/
def operand? {α : Type} : Instruction α → Option α
  | .operand a => some a
  | .operator _ => none

/-- The operator of an instruction that has one. -/
def operator? {α : Type} : Instruction α → Option Operator
  | .operand _ => none
  | .operator op => some op

/-- An instruction as it stands in a written program, its operator by the tag. -/
def written : Instruction Operand → Operand
  | .operand a => a
  | .operator op => .name op.tag

/-- An instruction in a description. -/
def described : Instruction Operand → String
  | .operand a => a.quoted
  | .operator op => ":" ++ op.tag

end Instruction

/-- A postfix program over numbers and names. -/
abbrev Program := List (Instruction Operand)

namespace Program

/-- The names of a program, each once, in the order of their first appearance. -/
def names (p : Program) : List String :=
  (p.filterMap fun i => i.operand?.bind Operand.name?).eraseDups

/-- Whether a program states an equation. -/
def isEquation (p : Program) : Bool := p.contains (.operator (.binary .equal))

/-- The program with its operators written by their tags. -/
def written (p : Program) : List Operand := p.map Instruction.written

/-- Whether every number of a program can be written. -/
def isWritable (p : Program) : Bool := p.written.all Operand.isWritable

/-- The plain text of a program. -/
def text (p : Program) : String := " ".intercalate (p.written.map Operand.text)

/-- The description of a program; a comma follows a single instruction. -/
def description (p : Program) : String :=
  match p with
  | [i] => "(" ++ i.described ++ ",)"
  | p => "(" ++ ", ".intercalate (p.map Instruction.described) ++ ")"

/-- The written program as a list. -/
def listing (p : Program) : String :=
  "[" ++ ", ".intercalate (p.written.map Operand.quoted) ++ "]"

/-- The written program in JSON. -/
def json (p : Program) : String := Json.array (p.written.map Operand.json)

/-- The program with names replaced by the values they have. -/
def resolve (v : Valuation) (p : Program) : Program := p.map (Instruction.map (Operand.resolve v))

/-- The names of a program that have no value, each once, in the order of first appearance. -/
def unbound (v : Valuation) (p : Program) : List String := p.names.filter fun s => (v s).isNone

/-- The program over numbers alone, if every name has a value. -/
def numeric? (v : Valuation) (p : Program) : Option (List (Instruction Number)) :=
  p.mapM (Instruction.map? (Operand.value? v))

end Program

end Reckon
