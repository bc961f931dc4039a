import Reckon.ErrorKind
import Reckon.Proofs.Formula.Parsing
import Reckon.Proofs.Program.Fold

/-!
What a calculation can end in.

An equation is refused, and so is a program with names that have no value. What is left has a tree of
numbers, and no equals sign in it, so each application on the way is one of numbers by an operator that
computes. It yields a number, or fails because of the arithmetic. That no name ever gets to an operator
can be seen from outside: however combining treats names and equals signs, the run is the same.

    equation                 ──▶  unsupported
    a name without value     ──▶  the names without one
    otherwise                ──▶  a number, or the error of an application of numbers
-/

namespace Reckon

theorem ArithmeticError.kind_mem (e : ArithmeticError) :
    e.kind ∈ [ErrorKind.zeroDivision, .overflow, .value] := by
  cases e <;> simp [kind]

namespace Application

/-- An operator that computes fails only in arithmetic. -/
theorem exists_arithmetic {a : Application Number} {e : CalculationError}
    (hequals : a.operator ≠ .binary .equal) (h : a.compute = .error e) :
    ∃ cause, e = .arithmetic cause := by
  cases a with
  | negate x => cases h
  | binary op left right =>
    have harithmetic : ∀ r, compute.arithmetic r = .error e → ∃ cause, e = .arithmetic cause := by
      rintro (cause | n) h
      · exact ⟨cause, (Except.error.inj h).symm⟩
      · cases h
    cases op with
    | equal => exact absurd rfl hequals
    | root => exact harithmetic _ h
    | power => exact harithmetic _ h
    | divide => exact harithmetic _ h
    | multiply => exact harithmetic _ h
    | add => exact harithmetic _ h
    | subtract => exact harithmetic _ h

end Application

/-! ### Trees of numbers -/

/-- Combining that computes applications of numbers, an error told by what stands for it. What it makes
of names and of equals signs is left open. -/
def Computes {ε : Type} (told : CalculationError → ε)
    (combine : Application Operand → List Operand → Except ε Operand) : Prop :=
  ∀ (a : Application Number) (below : List Operand), a.operator ≠ .binary .equal →
    combine (a.map .number) below = (a.compute.map .number).mapError told

namespace Tree

variable {t : Tree Number}

/-- A tree without an equals sign fails only in arithmetic. -/
theorem exists_arithmetic {e : CalculationError}
    (hequals : .operator (.binary .equal) ∉ t.postorder) (h : t.evaluate = .error e) :
    ∃ cause, e = .arithmetic cause := by
  induction t with
  | leaf n => cases h
  | negate t ih =>
    rw [evaluate] at h
    cases ht : t.evaluate with
    | error e' =>
      rw [ht] at h
      obtain rfl := Except.error.inj h
      exact ih (fun hmem => hequals (List.mem_append_left _ hmem)) ht
    | ok x =>
      rw [ht] at h
      exact Application.exists_arithmetic (a := .negate x) (fun heq => by cases heq) h
  | binary op l r ihl ihr =>
    simp only [postorder, List.mem_append, not_or, List.mem_singleton] at hequals
    -- the left side fails first; the operator itself is reached when both sides have values
    obtain ⟨⟨hl, hr⟩, hop⟩ := hequals
    rw [evaluate] at h
    cases hleft : l.evaluate with
    | error e' =>
      rw [hleft] at h
      obtain rfl := Except.error.inj h
      exact ihl hl hleft
    | ok x =>
      rw [hleft] at h
      cases hright : r.evaluate with
      | error e' =>
        rw [hright] at h
        obtain rfl := Except.error.inj h
        exact ihr hr hright
      | ok y =>
        rw [hright] at h
        refine Application.exists_arithmetic (a := .binary op x y) (fun heq => hop ?_) h
        exact congrArg _ heq.symm

/-- Whatever else combining does, it evaluates a tree of numbers without an equals sign. -/
theorem foldM_computes {ε : Type} {told : CalculationError → ε}
    {combine : Application Operand → List Operand → Except ε Operand} (h : Computes told combine)
    (hequals : .operator (.binary .equal) ∉ t.postorder) (below : List Operand) :
    (t.map .number).foldM combine below = (t.evaluate.map .number).mapError told := by
  induction t generalizing below with
  | leaf n => rfl
  | negate t ih =>
    rw [Tree.map, foldM, evaluate, ih (fun hmem => hequals (List.mem_append_left _ hmem))]
    cases t.evaluate with
    | error e => rfl
    | ok x => exact h (.negate x) below fun heq => by cases heq
  | binary op l r ihl ihr =>
    simp only [postorder, List.mem_append, not_or, List.mem_singleton] at hequals
    obtain ⟨⟨hl, hr⟩, hop⟩ := hequals
    rw [Tree.map, foldM, evaluate, ihl hl]
    cases l.evaluate with
    | error e => rfl
    | ok x =>
      show (r.map .number).foldM combine (.number x :: below) >>= _ = _
      rw [ihr hr]
      cases r.evaluate with
      | error e => rfl
      | ok y => exact h (.binary op x y) below fun heq => hop (congrArg _ heq.symm)

end Tree

/-! ### Programs -/

namespace Program

variable {v : Valuation} {p : Program}

/-- A program with a name that has no value is no program over numbers. -/
theorem numeric?_eq_none {s : String} (hs : .operand (.name s) ∈ p) (hv : v s = none) :
    p.numeric? v = none := by
  induction p with
  | nil => cases hs
  | cons i p ih =>
    rw [numeric?, List.mapM_cons]
    rcases List.mem_cons.1 hs with rfl | hs
    · rw [Instruction.map?, Operand.value?, hv]
      rfl
    · have hrest := ih hs
      rw [numeric?] at hrest
      rw [hrest]
      cases i.map? (Operand.value? v) <;> rfl

theorem calculate_of_isEquation (h : p.isEquation) : p.calculate v = .error .equation := by
  rw [calculate, if_pos h]

/-- The names without a value are told, all of them. -/
theorem calculate_of_unbound (hequals : ¬ p.isEquation) (h : p.unbound v ≠ []) :
    p.calculate v = .error (.unbound (p.unbound v)) := by
  obtain ⟨s, hs⟩ := List.exists_mem_of_ne_nil _ h
  obtain ⟨hmem, hnone⟩ := List.mem_filter.1 hs
  have hnumeric := numeric?_eq_none (mem_names.1 hmem) (Option.isNone_iff_eq_none.1 hnone)
  rw [calculate, if_neg hequals, hnumeric]

/-- Where every name has a value, the program has a tree of numbers without an equals sign. -/
theorem exists_tree_of_bound {limit : Int} {source : String}
    (h : (parse limit source).result = .ok p) (hne : p ≠ []) (hequals : ¬ p.isEquation)
    (hbound : p.unbound v = []) :
    ∃ u : Tree Number, .operator (.binary .equal) ∉ u.postorder ∧ p.calculate v = u.evaluate ∧
      p.resolve v = (u.map .number).postorder := by
  obtain ⟨t, rfl⟩ := exists_tree_of_parse h hne
  have hv : ∀ s, .operand (.name s) ∈ t.postorder → (v s).isSome := by
    intro s hs
    by_contra hnone
    have hmem : s ∈ unbound v t.postorder :=
      List.mem_filter.2 ⟨mem_names.2 hs, by simpa using hnone⟩
    rw [hbound] at hmem
    cases hmem
  obtain ⟨u, hnumeric, hmap⟩ := exists_numeric hv
  have hresolve : resolve v t.postorder = (u.map .number).postorder := by
    rw [resolve, ← Tree.postorder_map, hmap]
  refine ⟨u, fun hmem => hequals ?_, ?_, hresolve⟩
  · -- the operators of a program stay where its operands are replaced
    have hnumber : .equals ∈ (t.map (Operand.resolve v)).postorder :=
      hmap ▸ Tree.operator_mem_map.2 hmem
    exact isEquation_iff.2 (Tree.operator_mem_map.1 hnumber)
  · rw [calculate, if_neg hequals, hnumeric]
    exact computePostfix_postorder u

/-- Where every name has a value, the program yields a number or an arithmetic error, and the machine
on numbers and names comes to the same, whatever combining makes of names and of equals signs. -/
theorem calculate_of_bound {limit : Int} {source : String}
    (h : (parse limit source).result = .ok p) (hne : p ≠ []) (hequals : ¬ p.isEquation)
    (hbound : p.unbound v = []) :
    ((∃ n, p.calculate v = .ok n) ∨ ∃ cause, p.calculate v = .error (.arithmetic cause)) ∧
      ∀ {ε : Type} (told : CalculationError → ε)
        (combine : Application Operand → List Operand → Except ε Operand), Computes told combine →
          (Machine.run combine (p.resolve v)).run =
            ((p.calculate v).map fun n => .ok (.number n)).mapError told := by
  obtain ⟨u, hu, hvalue, hresolve⟩ := exists_tree_of_bound h hne hequals hbound
  refine ⟨?_, fun told combine hcombine => ?_⟩
  · rw [hvalue]
    cases heval : u.evaluate with
    | ok n => exact .inl ⟨n, rfl⟩
    | error e =>
      obtain ⟨cause, rfl⟩ := Tree.exists_arithmetic hu heval
      exact .inr ⟨cause, rfl⟩
  · rw [hresolve, Machine.run_postorder, Tree.foldM_computes hcombine hu, hvalue]
    cases u.evaluate <;> rfl

end Program

end Reckon
