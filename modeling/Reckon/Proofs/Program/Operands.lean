import Reckon.Proofs.Program.Frame

/-!
The yard keeps the operands in their order.

An operand is emitted the moment it is taken, and whatever an operator, a parenthesis or the end of
the tokens sets free is an operator. So the operands of the program are those of the tokens, one for
one and in the same order, however the operators between them change places.

    tokens     a  +  b  *  c
    program    a  b  c  mul  plus
-/

namespace Reckon

/-- The operand that a token is, if it is one. -/
def Token.operand? : Token → Option Operand
  | .operand a => some a
  | _ => none

theorem Token.operand?_eq_some {token : Token} {a : Operand} :
    token.operand? = some a ↔ token = .operand a := by
  cases token <;> simp [operand?]

/-- The operands of a program, in their order. -/
def Program.operands (p : Program) : List Operand := p.filterMap Instruction.operand?

namespace Program

theorem operands_append (p q : Program) : operands (p ++ q) = operands p ++ operands q :=
  List.filterMap_append

theorem operands_operators (ops : List Operator) :
    operands (ops.map Instruction.operator) = [] := by
  rw [operands, List.filterMap_map]
  exact List.filterMap_eq_nil_iff.2 fun _ _ => rfl

theorem mem_operands {p : Program} {a : Operand} : a ∈ p.operands ↔ .operand a ∈ p := by
  rw [operands, List.mem_filterMap]
  constructor
  · rintro ⟨i, hi, ha⟩
    cases i with
    | operator op => cases ha
    | operand b =>
      obtain rfl := Option.some.inj ha
      exact hi
  · exact fun h => ⟨_, h, rfl⟩

theorem count_operands (p : Program) (a : Operand) : p.operands.count a = p.count (.operand a) := by
  induction p with
  | nil => rfl
  | cons i p ih =>
    cases i with
    | operator op =>
      have hne : (Instruction.operator op : Instruction Operand) ≠ .operand a := nofun
      rw [List.count_cons_of_ne hne, ← ih]
      rfl
    | operand b =>
      have hcons : operands (.operand b :: p) = b :: operands p := rfl
      by_cases hb : b = a
      · subst hb
        rw [hcons, List.count_cons_self, List.count_cons_self, ih]
      · rw [hcons, List.count_cons_of_ne hb,
          List.count_cons_of_ne fun h => hb (Instruction.operand.inj h), ih]

end Program

namespace Yard

/-- The operands emitted so far. -/
def operands (y : Yard) : List Operand := Program.operands y.emitted.reverse

variable {y y' : Yard} {token : Token} {ts : List Token}

theorem operands_emit (ops : List Operator) (y : Yard) : (y.emit ops).operands = y.operands := by
  rw [operands, emit, List.reverse_append, ← List.map_reverse, List.reverse_reverse,
    Program.operands_append, Program.operands_operators, List.append_nil, operands]

theorem operands_step (h : y.step token = .ok y') :
    y'.operands = y.operands ++ token.operand?.toList := by
  cases takes_of_step h with
  | opening _ => exact (List.append_nil _).symm
  | negate _ => exact (List.append_nil _).symm
  | operand a _ =>
    rw [operands, List.reverse_cons, Program.operands_append]
    rfl
  | binary op _ => exact (operands_emit _ y).trans (List.append_nil _).symm
  | close _ => exact (operands_emit _ y).trans (List.append_nil _).symm
  | ignore _ => exact (operands_emit _ y).trans (List.append_nil _).symm

theorem operands_run (h : y.run ts = (y', none)) :
    y'.operands = y.operands ++ ts.filterMap Token.operand? := by
  induction ts generalizing y with
  | nil =>
    obtain ⟨rfl, _⟩ := Prod.mk.inj h
    exact (List.append_nil _).symm
  | cons token ts ih =>
    obtain ⟨y₁, hstep, hrun⟩ := exists_step_of_run h
    rw [ih hrun, operands_step hstep, List.append_assoc]
    cases token <;> rfl

end Yard

/-- The operands of a program are those of its tokens, in their order. -/
theorem operands_of_run {p : Program} {ts : List Token} {y : Yard}
    (hrun : Yard.empty.run ts = (y, none)) (hfinish : y.finish = .ok p) :
    p.operands = ts.filterMap Token.operand? := by
  obtain ⟨rfl, _⟩ := Yard.finish_eq_ok.1 hfinish
  rw [Yard.flushed, Program.operands_append, Program.operands_operators, List.append_nil]
  exact Yard.operands_run hrun

end Reckon
