import Reckon.Program.Fault
import Reckon.Token.Cursor

/-!
From tokens to a postfix program, by the shunting-yard method.

Operands are emitted at once. An operator waits until one that binds no tighter comes, or the group
it stands in is closed, or the tokens end. The minus sign negates where no operand stands before it.
A closing parenthesis without an opening one lets all waiting operators go and is otherwise ignored;
the yard counts how many were.

    tokens ──▶ ┌─────────┐ ──▶ emitted
     2 + x     │ pending │      2 x plus
               └─────────┘
-/

namespace Reckon

/-- Why a text is not an expression. -/
inductive ParseError where
  | lexical (e : LexicalError)
  /-- An opening parenthesis follows an operand. -/
  | groupAfterOperand
  /-- An operand follows an operand. -/
  | operandAfterOperand (a : Operand)
  /-- An operator follows no operand. -/
  | operatorWithoutOperand (op : Binary)
  /-- Some parentheses are not closed. -/
  | unclosed (count : Nat)
  /-- There is more than one equals sign. -/
  | severalEquals
  /-- The program does not compute one value. -/
  | malformed (fault : Fault)
  deriving DecidableEq, Repr

/-- The text of a parse error, which quotes the text that was parsed; a lexical error speaks for
itself. -/
def ParseError.message (source : String) : ParseError → String
  | .lexical e => e.message
  | .groupAfterOperand => "Missing operator before \"(\"" ++ place
  | .operandAfterOperand a => "Missing operator before " ++ a.quoted ++ place
  | .operatorWithoutOperand op => "Missing operand before \"" ++ op.tag ++ "\"" ++ place
  | .unclosed count =>
    s!"Missing closing parenthesis: {count} unclosed \"(\"" ++ place
  | .severalEquals => "More than one equals sign" ++ place
  | .malformed (.missingOperand op) => "Missing operand for \"" ++ op.tag ++ "\"" ++ place
  | .malformed (.leftover count) => s!"Missing operator between {count} operands" ++ place
where
  /-- Where the error was met. -/
  place : String := " in \"" ++ source ++ "\""

/-- What waits in the yard: an operator, or the mark of an open group. -/
inductive Pending where
  | group
  | operator (op : Operator)
  deriving DecidableEq, Repr

namespace Pending

/-- The operator that waits, if it is one. -/
def operator? : Pending → Option Operator
  | .group => none
  | .operator op => some op

/-- Takes operators off the top as long as they satisfy a condition, and stops at a group. -/
def takeOperators (cond : Operator → Bool) : List Pending → List Operator × List Pending
  | .operator op :: rest =>
    if cond op then
      let (ops, rest) := takeOperators cond rest
      (op :: ops, rest)
    else ([], .operator op :: rest)
  | rest => ([], rest)

end Pending

/-- The state between two tokens. -/
structure Yard where
  /-- The instructions emitted so far, the latest first. -/
  emitted : Program
  /-- What waits, the top first. -/
  pending : List Pending
  /-- Whether the previous token ends an operand. -/
  afterOperand : Bool
  /-- The closing parentheses ignored so far. -/
  ignored : Nat
  deriving Repr

namespace Yard

/-- The state before the first token. -/
def empty : Yard := ⟨[], [], false, 0⟩

/-- The yard with operators emitted, the first of them first. -/
def emit (ops : List Operator) (y : Yard) : Yard :=
  { y with emitted := ops.reverse.map .operator ++ y.emitted }

/-- A closing parenthesis: the operators of the innermost open group go, and the group with them. -/
def close (y : Yard) : Yard :=
  let (ops, rest) := Pending.takeOperators (fun _ => true) y.pending
  let y := y.emit ops
  match rest with
  | .group :: rest => { y with pending := rest, afterOperand := true }
  | rest => { y with pending := rest, ignored := y.ignored + 1 }

/-- A binary operator: the operators that bind at least as tightly go before it. -/
def shunt (op : Binary) (y : Yard) : Yard :=
  let (ops, rest) := Pending.takeOperators (fun waiting => op.rank ≤ waiting.rank) y.pending
  { y.emit ops with pending := .operator (.binary op) :: rest, afterOperand := false }

/-- One token. -/
def step (y : Yard) : Token → Except ParseError Yard
  | .opening =>
    if y.afterOperand then .error .groupAfterOperand
    else .ok { y with pending := .group :: y.pending }
  | .closing => .ok y.close
  | .operator op =>
    if y.afterOperand then .ok (y.shunt op)
    else if op = .subtract then .ok { y with pending := .operator .negate :: y.pending }
    else .error (.operatorWithoutOperand op)
  | .operand a =>
    if y.afterOperand then .error (.operandAfterOperand a)
    else .ok { y with emitted := .operand a :: y.emitted, afterOperand := true }

/-- The tokens one after another, up to the first error. -/
def run (y : Yard) : List Token → Yard × Option ParseError
  | [] => (y, none)
  | token :: tokens =>
    match y.step token with
    | .ok y => y.run tokens
    | .error e => (y, some e)

/-- The end of the tokens: the operators that still wait go, and no group may be open. -/
def finish (y : Yard) : Except ParseError Program :=
  let unclosed := y.pending.count .group
  let program := (y.emit (y.pending.filterMap Pending.operator?)).emitted.reverse
  if 0 < unclosed then .error (.unclosed unclosed)
  else if 1 < program.count (.operator (.binary .equal)) then .error .severalEquals
  else
    match checkOperands program with
    | .error fault => .error (.malformed fault)
    | .ok () => .ok program

end Yard

/-! ### Parsing a text -/

/-- The outcome of parsing, and how many closing parentheses were ignored up to there. -/
structure Parsing where
  result : Except ParseError Program
  ignored : Nat

/-- The program of a list of tokens that ends in an error or not. An error of the yard comes before
one of the text, because the yard takes the tokens as they are read. -/
def Parsing.ofLexing (lexing : Lexing) : Parsing :=
  let (yard, error) := Yard.empty.run lexing.tokens
  let result :=
    match error, lexing.error with
    | some e, _ => .error e
    | none, some e => .error (.lexical e)
    | none, none => yard.finish
  ⟨result, yard.ignored⟩

/-- Parses a text, the groups of its abbreviations held against the nesting limit. -/
def parse (limit : Int) (source : String) : Parsing :=
  .ofLexing (.ofText limit source.toList)

/-- What is said about each closing parenthesis that is ignored. -/
def ignoredMessage (source : String) : String :=
  "Ignoring closing parenthesis without opening parenthesis in \"" ++ source ++ "\""

end Reckon
