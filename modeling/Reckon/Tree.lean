import Reckon.Machine

/-!
Expression trees.

The tree of a postfix program has its operands as leaves and its operators as nodes; the postorder
listing leads back to the program. In JSON a node is an array of the tag and the two operands, with
`null` for the operand that a negation does not have.

         plus
        /    \            postorder   2 x mul 1 plus
      mul     1           JSON        ["plus", ["mul", 2, "x"], 1]
     /   \
    2     x
-/

namespace Reckon

/-- A tree of operators over leaves of some kind. -/
inductive Tree (α : Type) where
  | leaf (a : α)
  | negate (t : Tree α)
  | binary (op : Binary) (left right : Tree α)
  deriving DecidableEq, Repr

namespace Tree

variable {α : Type}

/-- The tree of an application to trees. -/
def ofApplication : Application (Tree α) → Tree α
  | .negate t => .negate t
  | .binary op left right => .binary op left right

/-- The postfix program that lists the tree: each operator behind its operands. -/
def postorder : Tree α → List (Instruction α)
  | .leaf a => [.operand a]
  | .negate t => t.postorder ++ [.operator .negate]
  | .binary op left right => left.postorder ++ right.postorder ++ [.operator (.binary op)]

/-- The tree of a postfix program, built on the stack machine. -/
def ofPostfix? (p : List (Instruction α)) : Except Fault (Tree α) :=
  Machine.run (m := Id) (fun a _ => ofApplication a) (p.map (Instruction.map .leaf))

/-- The tree in JSON. -/
def json : Tree Operand → String
  | .leaf a => a.json
  | .negate t => Json.array [Json.string Operator.negate.tag, t.json, Json.null]
  | .binary op left right => Json.array [Json.string op.tag, left.json, right.json]

end Tree

/-- The tree of a program, names with a value replaced by it. -/
def Program.tree (v : Valuation) (p : Program) : Except Fault (Tree Operand) :=
  Tree.ofPostfix? (p.resolve v)

end Reckon
