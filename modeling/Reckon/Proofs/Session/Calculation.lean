import Reckon.Proofs.Program.Outcome
import Reckon.Proofs.Session.Lineage

/-!
What the calculation of a formula can end in, whatever was done to it before.

A formula with a program goes back to a text, and its table has a place for each name of the program
and for no other, so the names that the calculation misses are those that the table shows as unbound.
What is left is arithmetic on numbers.

    z + y / (x - 3)     x = 3                     ──▶   unbound   z, y
                        x = 3   y = 1   z = 2     ──▶   division by zero
                        x = 4   y = 1   z = 2     ──▶   a number
-/

namespace Reckon

/-- The names without a value are the names of the table that are looked up in vain. -/
theorem Table.unbound_eq {t : Table} (hnodup : t.names.Nodup) :
    t.unbound = t.names.filter fun s => (t.value? s).isNone := by
  have hlookup : ∀ entry ∈ t, t.value? entry.1 = entry.2 := by
    intro entry hentry
    induction t with
    | nil => cases hentry
    | cons first t ih =>
      obtain ⟨hnot, hrest⟩ := List.nodup_cons.1 hnodup
      rw [value?, List.lookup_cons]
      rcases List.mem_cons.1 hentry with rfl | hentry
      · rw [beq_self_eq_true]
        rfl
      · have hne : (entry.1 == first.1) = false :=
          beq_eq_false_iff_ne.2 fun heq => hnot (heq ▸ List.mem_map_of_mem hentry)
        rw [hne]
        exact ih hrest hentry
  rw [unbound, names, List.filter_map]
  refine congrArg _ (List.filter_congr fun entry hentry => ?_)
  rw [Function.comp, hlookup entry hentry]

namespace Session

variable {steps : List (Nat × Step)} {slot : Nat} {f : Formula}

theorem Lineage.exists_limit {k : Nat} {source : String} {p : Program}
    (h : Lineage steps k source p) : ∃ limit, programOf limit source = .ok p := by
  induction h with
  | create hprogram => exact ⟨_, hprogram⟩
  | copy _ _ ih => exact ih
  | reparse _ _ hprogram => exact ⟨_, hprogram⟩
  | keep _ _ ih => exact ih

theorem exists_parse_of_get? (h : (after steps).get? slot = some f) (hne : f.program ≠ []) :
    ∃ limit, (parse limit f.source).result = .ok f.program := by
  obtain ⟨limit, hprogram⟩ := (lineage_after h).exists_limit
  cases limit with
  | some limit => exact ⟨limit, hprogram⟩
  | none => exact absurd (Except.ok.inj hprogram).symm hne

theorem unbound_eq_of_get? (h : (after steps).get? slot = some f) :
    f.table.unbound = f.program.unbound f.table.value? := by
  have hcoherent := coherent_after steps slot f h
  rw [Table.unbound_eq (hcoherent.names ▸ f.program.nodup_names), hcoherent.names, Program.unbound]

/-- The calculation of a formula that has a program, after any steps. An equation is refused even
where variables are unbound; otherwise unbound variables are told, all of them, in the order of their
first appearance; otherwise there is a number, or a division by zero, an overflow, or no real value.
So there is never an error of another kind. In the last case the machine that works on numbers and
names alike comes to the same, whatever it makes of names and equals signs: it never combines any. -/
theorem calculate_outcome (h : (after steps).get? slot = some f) (hne : f.program ≠ []) :
    (f.program.isEquation → f.calculate = .error (.calculation .equation)) ∧
    (¬ f.program.isEquation → f.table.unbound ≠ [] →
      f.calculate = .error (.calculation (.unbound f.table.unbound))) ∧
    f.table.unbound = f.program.names.filter (fun s => (f.table.value? s).isNone) ∧
    (¬ f.program.isEquation → f.table.unbound = [] →
      ((∃ n, f.calculate = .ok n) ∨ ∃ cause : ArithmeticError,
        f.calculate = .error (.calculation (.arithmetic cause)) ∧
          cause.kind ∈ [.zeroDivision, .overflow, .value]) ∧
      ∀ {ε : Type} (told : Error → ε)
        (combine : Application Operand → List Operand → Except ε Operand),
        Computes (fun e => told (.calculation e)) combine →
          (Machine.run combine (f.program.resolve f.table.value?)).run =
            (f.calculate.map fun n => .ok (.number n)).mapError told) ∧
    ∀ e, f.calculate = .error e →
      e.kind ∈ [.unsupported, .unboundVariable, .zeroDivision, .overflow, .value] := by
  obtain ⟨limit, hparse⟩ := exists_parse_of_get? h hne
  have hunbound := unbound_eq_of_get? h
  have hequation : f.program.isEquation → f.calculate = .error (.calculation .equation) := by
    intro hequals
    rw [Formula.calculate, Program.calculate_of_isEquation hequals]
    rfl
  have hmissing : ¬ f.program.isEquation → f.table.unbound ≠ [] →
      f.calculate = .error (.calculation (.unbound f.table.unbound)) := by
    intro hequals hsome
    rw [hunbound] at hsome ⊢
    rw [Formula.calculate, Program.calculate_of_unbound hequals hsome]
    rfl
  have hvalue : ¬ f.program.isEquation → f.table.unbound = [] →
      (∃ n, f.calculate = .ok n) ∨
        ∃ cause, f.calculate = .error (.calculation (.arithmetic cause)) := by
    intro hequals hbound
    rw [hunbound] at hbound
    obtain ⟨hresult, _⟩ := Program.calculate_of_bound hparse hne hequals hbound
    rw [Formula.calculate]
    rcases hresult with ⟨n, hn⟩ | ⟨cause, hcause⟩
    · exact .inl ⟨n, by rw [hn]; rfl⟩
    · exact .inr ⟨cause, by rw [hcause]; rfl⟩
  refine ⟨hequation, hmissing, hunbound, fun hequals hbound => ⟨?_, fun told combine hcombine => ?_⟩,
    fun e he => ?_⟩
  · exact (hvalue hequals hbound).imp_right fun ⟨cause, hcause⟩ => ⟨cause, hcause, cause.kind_mem⟩
  · rw [hunbound] at hbound
    obtain ⟨_, hrun⟩ := Program.calculate_of_bound hparse hne hequals hbound
    rw [hrun _ combine hcombine, Formula.calculate]
    cases f.program.calculate f.table.value? <;> rfl
  · by_cases hequals : f.program.isEquation
    · rw [hequation hequals] at he
      obtain rfl := Except.error.inj he
      decide
    by_cases hbound : f.table.unbound = []
    · rcases hvalue hequals hbound with ⟨n, hn⟩ | ⟨cause, hcause⟩
      · rw [hn] at he
        cases he
      · rw [hcause] at he
        obtain rfl := Except.error.inj he
        exact List.mem_cons_of_mem _ (List.mem_cons_of_mem _ cause.kind_mem)
    · rw [hmissing hequals hbound] at he
      obtain rfl := Except.error.inj he
      exact List.mem_cons_of_mem _ (List.mem_cons_self ..)

set_option maxRecDepth 100000 in
/-- A divisor that becomes zero, two variables that were unbound at first, and a machine that stops at
names and equals signs. -/
theorem calculate_outcome_division :
    let first : List (Nat × Step) :=
      [(0, .create "z + y / (x - 3)" [("x", .number (.int 3))] (some 64))]
    let steps := first ++ [(0, .ask (.bind [("y", .number (.int 1)), ("z", .number (.int 2))]))]
    let program : Program := [.operand (.name "z"), .operand (.name "y"), .operand (.name "x"),
      .operand (.number (.int 3)), .operator (.binary .subtract), .operator (.binary .divide),
      .operator (.binary .add)]
    let combine : Application Operand → List Operand → Except (Option Error) Operand := fun a _ =>
      match a with
      | .negate (.number x) => .ok (.number x.neg)
      | .binary op (.number x) (.number y) =>
        if op = .equal then .error none
        else ((Application.binary op x y).compute.map .number).mapError fun e => some (.calculation e)
      | _ => .error none
    (∃ f, (after first).get? 0 = some f ∧ f.program = program ∧ ¬ f.program.isEquation ∧
      f.calculate = .error (.calculation (.unbound ["z", "y"]))) ∧
    ∃ f, (after steps).get? 0 = some f ∧ f.program = program ∧ ¬ f.program.isEquation ∧
      f.calculate = .error (.calculation (.arithmetic .integerDivision)) ∧
      (Machine.run combine (f.program.resolve f.table.value?)).run =
        .error (some (.calculation (.arithmetic .integerDivision))) := by
  intro first steps program combine
  have hfirst : ((after first).get? 0).map (fun f => (f.program, f.table)) =
      some (program, [("z", none), ("y", none), ("x", some (.int 3))]) := by
    decide +kernel
  have hlast : ((after steps).get? 0).map (fun f => (f.program, f.table)) = some (program,
      [("z", some (.int 2)), ("y", some (.int 1)), ("x", some (.int 3))]) := by
    decide +kernel
  have hcombine : Computes (fun e => some (.calculation e)) combine := by
    rintro (x | ⟨op, x, y⟩) below hequals
    · rfl
    · exact if_neg fun heq => hequals (congrArg _ heq)
  obtain ⟨f, hf, hparts⟩ := Option.map_eq_some_iff.1 hfirst
  obtain ⟨g, hg, hparts'⟩ := Option.map_eq_some_iff.1 hlast
  obtain ⟨hprogram, htable⟩ := Prod.mk.inj hparts
  obtain ⟨hprogram', htable'⟩ := Prod.mk.inj hparts'
  have hne : f.program ≠ [] := by rw [hprogram]; exact List.cons_ne_nil _ _
  have hne' : g.program ≠ [] := by rw [hprogram']; exact List.cons_ne_nil _ _
  have hequals : ¬ f.program.isEquation := by rw [hprogram]; decide
  have hequals' : ¬ g.program.isEquation := by rw [hprogram']; decide
  have hunbound : f.table.unbound = ["z", "y"] := by rw [htable]; rfl
  have hbound : g.table.unbound = [] := by rw [htable']; rfl
  have hdivision : g.calculate = .error (.calculation (.arithmetic .integerDivision)) := by
    rw [Formula.calculate, hprogram', htable']
    rfl
  obtain ⟨_, hmissing, _⟩ := calculate_outcome hf hne
  obtain ⟨_, _, _, hlater, _⟩ := calculate_outcome hg hne'
  obtain ⟨_, hrun⟩ := hlater hequals' hbound
  refine ⟨⟨f, hf, hprogram, hequals, ?_⟩, g, hg, hprogram', hequals', hdivision, ?_⟩
  · rw [hmissing hequals (by rw [hunbound]; exact List.cons_ne_nil _ _), hunbound]
  · rw [hrun some combine hcombine, hdivision]
    rfl

end Session

end Reckon
