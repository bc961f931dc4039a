import Reckon.Operand

/-!
Variable tables: the names of a formula in a fixed order, each with its value or none.

Setting a value never moves or adds a name, so the order of a table is the one it was made with. A
list of assignments is read like a dictionary: the last value given to a name counts, at the place
where the name stands first.

    assignments   x = 1, y = 2, x = 3   ──▶   x = 3, y = 2
-/

namespace Reckon

/-- Names in order, each with its value or none. -/
abbrev Table := List (String × Option Number)

namespace Table

/-- A table in which no name has a value. -/
def ofNames (names : List String) : Table := names.map fun s => (s, none)

/-- The names, in order. -/
def names (t : Table) : List String := t.map Prod.fst

/-- The value of a name, none where it has none or does not stand in the table. -/
def value? (t : Table) (s : String) : Option Number := (t.lookup s).join

/-- The table with the value of a name set. -/
def set (t : Table) (s : String) (value : Option Number) : Table :=
  t.map fun (name, old) => if name = s then (name, value) else (name, old)

/-- The names without a value, in order. -/
def unbound (t : Table) : List String := (t.filter fun (_, value) => value.isNone).map Prod.fst

/-- The names with their values, where they have one. -/
def bound (t : Table) : List (String × Number) :=
  t.filterMap fun (name, value) => value.map fun n => (name, n)

/-- Whether every value of the table can be written. -/
def isWritable (t : Table) : Bool := t.all fun (_, value) => value.all Number.isWritable

/-- The table in JSON: pairs of a name and its value. -/
def json (t : Table) : String :=
  Json.array (t.map fun (name, value) =>
    Json.array [Json.string name, (value.map Number.json).getD Json.null])

/-- The description of a table. -/
def description (t : Table) : String :=
  let entry : String × Option Number → String := fun (name, value) =>
    Text.quote name ++ ": " ++ (value.map Number.text).getD "None"
  "\x7b" ++ ", ".intercalate (t.map entry) ++ "\x7d"

/-! ### Setting keeps the names -/

@[simp] theorem names_set (t : Table) (s : String) (value : Option Number) :
    (t.set s value).names = t.names := by
  simp only [names, set, List.map_map]
  refine List.map_congr_left fun ⟨name, old⟩ _ => ?_
  simp only [Function.comp]
  split <;> rfl

@[simp] theorem names_ofNames (names : List String) : (ofNames names).names = names := by
  simp [ofNames, Table.names, Function.comp_def]

end Table

namespace Assignments

variable {α : Type}

/-- One more assignment: it replaces the value of a name that is assigned already. -/
def insert (l : List (String × α)) (assignment : String × α) : List (String × α) :=
  if l.any fun (name, _) => name = assignment.1 then
    l.map fun (name, old) => if name = assignment.1 then assignment else (name, old)
  else l ++ [assignment]

/-- The assignments with each name once: the first place and the last value of each. -/
def merge (l : List (String × α)) : List (String × α) := l.foldl insert []

end Assignments

end Reckon
