import Reckon.Machine
import Reckon.Number.Arithmetic

/-!
The numeric value of a program.

Equations are refused first, then programs with names that have no value. What is left is a program
over numbers alone, and the stack machine computes it.

    program ──▶ equation? ──▶ names without a value? ──▶ numbers ──▶ stack machine ──▶ number
-/

namespace Reckon

/-- Why a program has no numeric value. -/
inductive CalculationError where
  /-- The program is an equation. -/
  | equation
  /-- Some names have no value. -/
  | unbound (names : List String)
  /-- The program does not compute one value. -/
  | malformed (fault : Fault)
  /-- An arithmetic step has no result. -/
  | arithmetic (e : ArithmeticError)
  deriving DecidableEq, Repr

/-- The text of a calculation error. -/
def CalculationError.message : CalculationError → String
  | .equation => "Equation detected. Equations can't be calculated yet."
  | .unbound names => "Cannot calculate. Unbound variables found: " ++ ", ".intercalate names
  | .malformed fault => fault.message
  | .arithmetic e => e.message

/-- The number that an application yields. An equals sign yields none. -/
def Application.compute : Application Number → Except CalculationError Number
  | .negate x => .ok x.neg
  | .binary op left right =>
    match op with
    | .root => arithmetic (left.root right)
    | .power => arithmetic (left.pow right)
    | .divide => arithmetic (left.div right)
    | .multiply => arithmetic (left.mul right)
    | .add => arithmetic (left.add right)
    | .subtract => arithmetic (left.sub right)
    | .equal => .error .equation
where
  /-- The result of an arithmetic step. -/
  arithmetic (r : Except ArithmeticError Number) : Except CalculationError Number :=
    r.mapError .arithmetic

/-- The value of a program over numbers. -/
def computePostfix (p : List (Instruction Number)) : Except CalculationError Number :=
  match (Machine.run (fun a _ => a.compute) p : ExceptT Fault (Except CalculationError) Number).run with
  | .error e => .error e
  | .ok (.error fault) => .error (.malformed fault)
  | .ok (.ok n) => .ok n

/-- The numeric value of a program. -/
def Program.calculate (v : Valuation) (p : Program) : Except CalculationError Number :=
  if p.isEquation then .error .equation
  else
    match p.numeric? v with
    | none => .error (.unbound (p.unbound v))
    | some p => computePostfix p

end Reckon
