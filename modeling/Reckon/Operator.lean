/-!
Operators and how tightly they bind.

Negation stands before its operand; the seven binary operators stand between theirs. Every operator
has a tag, its name in written postfix programs.

    rank   4  negation   -x
           3  root, power
           2  quotient, product
           1  sum, difference
           0  equation
-/

namespace Reckon

/-- The operators that stand between two operands. -/
inductive Binary where
  /-- The root of the left operand whose degree is the right one. -/
  | root
  | power
  | divide
  | multiply
  | add
  | subtract
  /-- The equals sign: it states something and computes nothing. -/
  | equal
  deriving DecidableEq, Repr

/-- All operators. -/
inductive Operator where
  /-- The minus sign in front of its only operand. -/
  | negate
  | binary (op : Binary)
  deriving DecidableEq, Repr

namespace Binary

/-- The name of an operator in a written program. -/
def tag : Binary → String
  | .root => "sqrt"
  | .power => "exp"
  | .divide => "div"
  | .multiply => "mul"
  | .add => "plus"
  | .subtract => "minus"
  | .equal => "eql"

/-- How tightly an operator binds. -/
def rank : Binary → Nat
  | .root | .power => 3
  | .divide | .multiply => 2
  | .add | .subtract => 1
  | .equal => 0

end Binary

namespace Operator

/-- The name of an operator in a written program. -/
def tag : Operator → String
  | .negate => "uminus"
  | .binary op => op.tag

/-- How tightly an operator binds; negation binds tightest. -/
def rank : Operator → Nat
  | .negate => 4
  | .binary op => op.rank

/-- The number of operands an operator takes. -/
def arity : Operator → Nat
  | .negate => 1
  | .binary _ => 2

end Operator

end Reckon
