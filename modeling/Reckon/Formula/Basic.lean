import Reckon.Digest
import Reckon.Error
import Reckon.Formula.Substitution
import Reckon.Table
import Reckon.Tree

/-!
Formulas: a text, its program, and the values of its variables.

Text and program are fixed when a formula is made; only the values change. Every change renews the
fingerprint, the digest of the program and the values in JSON, and no value is taken over that the
fingerprint could not cover. A change works on the formula itself, which outlives a failure; to bind
variables, names and values are checked one after another before any of them is taken over.

    source ──▶ program ──▶ names ──▶ table ──bind──▶ table ──▶ fingerprint
-/

namespace Reckon

/-- A text with its program and the values of its variables. -/
structure Formula where
  /-- The text as it was given. -/
  source : String
  program : Program
  /-- Whether the text was parsed; a text that is only shown has the empty program. -/
  parsed : Bool
  table : Table
  /-- The digest of the program and the table. -/
  fingerprint : String
  deriving Repr

namespace Formula

/-- What the fingerprint is the digest of. -/
def fingerprintSource (p : Program) (t : Table) : String := Json.array [p.json, t.json]

/-- The digest of a program and a table, if the two can be written. -/
def fingerprintOf (p : Program) (t : Table) : Except Error String :=
  if p.isWritable && t.isWritable then .ok (Digest.fingerprint (fingerprintSource p t))
  else .error .unwritable

/-- The formula of a text, a program and a table, if the two can be written. -/
def make (source : String) (p : Program) (parsed : Bool) (t : Table) : Except Error Formula :=
  (fingerprintOf p t).map fun fingerprint => ⟨source, p, parsed, t, fingerprint⟩

/-- The formula with another table. -/
def withTable (f : Formula) (t : Table) : Except Error Formula :=
  make f.source f.program f.parsed t

/-- The table with one assignment carried out. -/
def assignEntry (t : Table) (assignment : String × Offer) : Except Error Table :=
  if t.names.contains assignment.1 then
    match assignment.2.accept with
    | .ok value => .ok (t.set assignment.1 value)
    | .error e => .error (.offer e)
  else .error (.unknownVariable assignment.1)

/-- The table with several assignments carried out, of each name the last. -/
def assignAll (t : Table) (assignments : List (String × Offer)) : Except Error Table :=
  (Assignments.merge assignments).foldlM assignEntry t

/-- A change to a formula that may fail. The formula is there afterwards all the same, with whatever
was done to it before the failure. -/
abbrev Change := ExceptT Error (StateM Formula)

section Changes

variable {α β : Type} (f : Formula)

/-- What comes of a change, and the formula afterwards. -/
def change (c : Change α) : Except Error α × Formula := Id.run (c.run.run f)

theorem change_bind (c : Change α) (next : α → Change β) : f.change (c >>= next) =
    match f.change c with
    | (.ok a, f') => f'.change (next a)
    | (.error e, f') => (.error e, f') := by
  have hrun : StateT.run (ExceptT.run c) f = pure (f.change c) := rfl
  rw [change, ExceptT.run_bind, StateT.run_bind, hrun, pure_bind]
  obtain ⟨result, f'⟩ := f.change c
  cases result <;> rfl

theorem change_get : f.change get = (.ok f, f) := rfl

theorem change_lift (result : Except Error α) : f.change (liftM result) = (result, f) := rfl

theorem change_modify (g : Formula → Formula) : f.change (modify g) = (.ok (), g f) := rfl

end Changes

/-- Sets several variables, or unsets them where nothing is offered. The table is made aside, and its
fingerprint before any of the two is taken over. -/
def setAll (assignments : List (String × Offer)) : Change Unit := do
  let f ← get
  let table ← assignAll f.table assignments
  let fingerprint ← fingerprintOf f.program table
  modify fun f => { f with fingerprint }
  modify fun f => { f with table }

/-- The formula with several variables set, or unset where nothing is offered. -/
def bind (f : Formula) (assignments : List (String × Offer)) : Except Error Formula :=
  match f.change (setAll assignments) with
  | (.ok _, f) => .ok f
  | (.error e, _) => .error e

/-- The formula with one variable set, or unset where nothing is offered. -/
def assign (f : Formula) (name : String) (offer : Offer) : Except Error Formula :=
  f.bind [(name, offer)]

/-- The formula of a text and its program, no variable set. -/
def ofProgram (source : String) (p : Program) (parsed : Bool) : Except Error Formula :=
  make source p parsed (Table.ofNames p.names)

/-- A new formula, and how many closing parentheses were ignored on the way. -/
structure Creation where
  result : Except Error Formula
  ignored : Nat

/-- A formula from a text that is parsed, some of its variables set. -/
def parse (limit : Int) (source : String) (assignments : List (String × Offer)) : Creation :=
  let parsing := Reckon.parse limit source
  let result : Except Error Formula := do
    let p ← parsing.result.mapError (.parse source)
    (← ofProgram source p true).bind assignments
  ⟨result, parsing.ignored⟩

/-- A formula from a text that is only shown. It has no variables, so every assignment is refused. -/
def display (source : String) (assignments : List (String × Offer)) : Creation :=
  ⟨do (← ofProgram source [] false).bind assignments, 0⟩

/-! ### Reading a formula -/

/-- Whether a name is a variable of the formula. -/
def contains (f : Formula) (name : String) : Bool := f.table.names.contains name

/-- The value of a variable, or none while it is unbound. -/
def value (f : Formula) (name : String) : Except Error (Option Number) :=
  if f.contains name then .ok (f.table.value? name) else .error (.unknownVariable name)

/-- The numeric value. -/
def calculate (f : Formula) : Except Error Number :=
  (f.program.calculate f.table.value?).mapError .calculation

/-- The expression tree. -/
def tree (f : Formula) : Except Error (Tree Operand) :=
  (f.program.tree f.table.value?).mapError .malformed

/-- The text of a value inside the formula. -/
def valueText (n : Number) : Except Error String :=
  match n.substituteText? with
  | some s => .ok s
  | none => .error .unwritable

/-- The text with the values of all bound variables put in. -/
def text (f : Formula) : Except Error String := do
  let values ← f.table.bound.mapM fun (name, n) => return (name, ← valueText n)
  return Substitution.apply values f.source

/-- The description of a formula, in terms of its program and its values. -/
def description (f : Formula) : String :=
  "<Expression " ++ f.fingerprint ++ " rpn=" ++ f.program.listing ++
    " variables=" ++ f.table.description ++ ">"

end Formula

end Reckon
