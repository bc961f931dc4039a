import Reckon.Proofs.Program.Conservation
import Reckon.Proofs.Session.Calculation

/-!
From the tokens of a text to the variables of a formula.

Parsing changes the order of operators alone, so the names of a program come in the order in which
they are read. A formula has a place in its table for each of them, in that order, whatever is done
to it later; those without a value are told in that order too.

    z * y + x       program  z y mul x plus       variables  z, y, x        unbound, with y = 1  z, x
-/

namespace Reckon

/-- The name that a token is, if it is one. -/
def Token.name? (token : Token) : Option String := token.operand?.bind Operand.name?

theorem Program.names_eq (p : Program) : p.names = (p.operands.filterMap Operand.name?).eraseDups := by
  rw [names, operands, List.filterMap_filterMap]

/-- Parsing loses, duplicates and reorders nothing but operators. The operands of the program are
those of the tokens, in their order. Each other token that is no parenthesis stands for one operator,
and the program has these and no more: the operator itself, or the negation for a minus whose token
before it, closing parentheses that are ignored aside, is missing, an operator or an opening
parenthesis. So the variables of each formula with this program are the names in the order in which
they are read, and the unbound ones are those of them that have no value. -/
theorem parse_conserves {limit : Int} {source : String} {p : Program}
    (h : (parse limit source).result = .ok p) :
    ∃ ts, tokenize limit source = .ok ts ∧
      p.operands = ts.filterMap Token.operand? ∧
      p.Perm (Token.instructions none (Token.heeded 0 ts)) ∧
      ∀ steps slot f, (Session.after steps).get? slot = some f → f.program = p →
        f.table.names = (ts.filterMap Token.name?).eraseDups ∧
        f.table.unbound = (ts.filterMap Token.name?).eraseDups.filter fun s =>
          (f.table.value? s).isNone := by
  have hparse : parse limit source = ⟨.ok p, (parse limit source).ignored⟩ := by rw [← h]
  obtain ⟨ts, y, hreads, hrun, hfinish, _⟩ := parse_eq_iff.1 hparse
  have hoperands := operands_of_run hrun hfinish
  refine ⟨ts, tokenize_eq_ok_iff_reads.2 hreads, hoperands, perm_instructions_of_run hrun hfinish,
    fun steps slot f hf hprogram => ?_⟩
  have hnames : p.names = (ts.filterMap Token.name?).eraseDups := by
    rw [Program.names_eq, hoperands, List.filterMap_filterMap]
    rfl
  rw [← hnames, ← hprogram]
  exact ⟨(Session.coherent_after steps slot f hf).names, Session.unbound_eq_of_get? hf⟩

set_option maxRecDepth 100000 in
/-- A negation, a closing parenthesis that is ignored, and a minus behind it that does not negate. -/
theorem parse_conserves_ignored :
    let source := "-z) - y * (x - 2)"
    let ts : List Token := [.operator .subtract, .operand (.name "z"), .closing, .operator .subtract,
      .operand (.name "y"), .operator .multiply, .opening, .operand (.name "x"), .operator .subtract,
      .operand (.number (.int 2)), .closing]
    let p : Program := [.operand (.name "z"), .operator .negate, .operand (.name "y"),
      .operand (.name "x"), .operand (.number (.int 2)), .operator (.binary .subtract),
      .operator (.binary .multiply), .operator (.binary .subtract)]
    (parse 64 source).result = .ok p ∧ tokenize 64 source = .ok ts ∧
      p.operands = [.name "z", .name "y", .name "x", .number (.int 2)] ∧
      p.Perm [.operator .negate, .operand (.name "z"), .operator (.binary .subtract),
        .operand (.name "y"), .operator (.binary .multiply), .operand (.name "x"),
        .operator (.binary .subtract), .operand (.number (.int 2))] ∧
      ∃ f, (Session.after [(0, .create source [("y", .number (.int 1))] (some 64))]).get? 0 = some f ∧
        f.table.names = ["z", "y", "x"] ∧ f.table.unbound = ["z", "x"] := by
  intro source ts p
  have hparse : (parse 64 source).result = .ok p := by decide +kernel
  have htokens : tokenize 64 source = .ok ts := by decide +kernel
  obtain ⟨us, hus, hoperands, hperm, hformulas⟩ := parse_conserves hparse
  obtain rfl : ts = us := Except.ok.inj (htokens.symm.trans hus)
  have hformula : ((Session.after [(0, .create source [("y", .number (.int 1))] (some 64))]).get?
      0).map (fun f => (f.program, f.table)) =
      some (p, [("z", none), ("y", some (.int 1)), ("x", none)]) := by
    decide +kernel
  obtain ⟨f, hf, hparts⟩ := Option.map_eq_some_iff.1 hformula
  obtain ⟨hprogram, htable⟩ := Prod.mk.inj hparts
  obtain ⟨hnames, hunbound⟩ := hformulas _ 0 f hf hprogram
  refine ⟨hparse, htokens, hoperands, hperm, f, hf, hnames, ?_⟩
  rw [hunbound, htable]
  decide +kernel

end Reckon
