import Reckon.Proofs.Program.Fold

/-!
Counting values and running the machine go in lock step.

The check of a program counts the values that the machine would have on its stack. One instruction
keeps the two together: where the machine goes on, the count is the height of its stack, and where it
faults, counting faults in the same way. So they accept the same programs and blame the same operator,
the first one that lacks an operand, whatever the values are, whatever names stand for, and whatever
combining does, as long as it yields a value.

    program   2      3        plus     plus
    stack     [2]    [3, 2]   [5]      fault: plus lacks an operand
    count     1      2        1        fault: plus lacks an operand

A program of a text passes the check, so the machine runs it without a fault of its own, even where
combining may fail.
-/

namespace Reckon

theorem depthAfter_map {α β : Type} (f : α → β) (d : Nat) (p : List (Instruction α)) :
    depthAfter d (p.map (Instruction.map f)) = depthAfter d p := by
  induction p generalizing d with
  | nil => rfl
  | cons i p ih =>
    have hi : (i.map f).depth d = i.depth d := by cases i <;> rfl
    rw [List.map_cons, depthAfter_cons, depthAfter_cons, hi]
    exact congrArg _ (funext fun e => ih e)

namespace Machine

variable {V σ : Type}

/-- What the machine makes of a stack and of the state that combining reads and changes. -/
def execute (combine : Application V → List V → StateM σ V) (p : List (Instruction V))
    (stack : List V) (s : σ) : Except Fault (List V) × σ :=
  (p.foldlM (step combine) stack).run.run s

variable (combine : Application V → List V → StateM σ V)

theorem execute_cons (i : Instruction V) (p : List (Instruction V)) (stack : List V) (s : σ) :
    (∃ stack' s', i.depth stack.length = .ok stack'.length ∧
      execute combine (i :: p) stack s = execute combine p stack' s') ∨
    ∃ fault, i.depth stack.length = .error fault ∧
      execute combine (i :: p) stack s = (.error fault, s) := by
  match i, stack with
  | .operand a, stack => exact .inl ⟨a :: stack, s, rfl, rfl⟩
  | .operator .negate, [] => exact .inr ⟨.missingOperand .negate, rfl, rfl⟩
  | .operator .negate, x :: stack =>
    exact .inl ⟨((combine (.negate x) stack).run s).1 :: stack, _, rfl, rfl⟩
  | .operator (.binary op), [] => exact .inr ⟨.missingOperand (.binary op), rfl, rfl⟩
  | .operator (.binary op), [x] => exact .inr ⟨.missingOperand (.binary op), rfl, rfl⟩
  | .operator (.binary op), right :: left :: stack =>
    exact .inl ⟨((combine (.binary op left right) stack).run s).1 :: stack, _, rfl, rfl⟩

/-- The machine ends with a stack as high as it is counted, or faults as counting does. -/
theorem execute_eq (p : List (Instruction V)) (stack : List V) (s : σ) :
    (∃ stack' s', depthAfter stack.length p = .ok stack'.length ∧
      execute combine p stack s = (.ok stack', s')) ∨
    ∃ fault s', depthAfter stack.length p = .error fault ∧
      execute combine p stack s = (.error fault, s') := by
  induction p generalizing stack s with
  | nil => exact .inl ⟨stack, s, rfl, rfl⟩
  | cons i p ih =>
    rw [depthAfter_cons]
    obtain ⟨stack', s', hdepth, hrun⟩ | ⟨fault, hdepth, hrun⟩ :=
      execute_cons combine i p stack s
    · rw [hdepth, hrun]
      exact ih stack' s'
    · rw [hdepth, hrun]
      exact .inr ⟨fault, s, rfl, rfl⟩

/-- A run leaves the only value of its last stack. -/
theorem run_eq (p : List (Instruction V)) (s : σ) :
    (run combine p).run.run s =
      match execute combine p [] s with
      | (.ok [x], s') => (.ok x, s')
      | (.ok stack, s') => (.error (.leftover stack.length), s')
      | (.error fault, s') => (.error fault, s') := by
  have hexecute : (p.foldlM (step combine) []).run.run s = execute combine p [] s := rfl
  rw [run, ExceptT.run_bind, StateT.run_bind, hexecute]
  rcases execute combine p [] s with ⟨fault | _ | ⟨x, _ | ⟨y, stack⟩⟩, s'⟩
  · rfl
  · rfl
  · rfl
  · rfl

end Machine

namespace Program

variable {V σ : Type} {p : Program}

/-- The program as the machine gets it: names with a value replaced by it, and operands taken for the
values of the machine. -/
def loaded (value : Operand → V) (v : Valuation) (p : Program) : List (Instruction V) :=
  (p.resolve v).map (Instruction.map value)

/-- A run of a program: what comes of it, and the state that combining leaves. -/
def runFrom (value : Operand → V) (combine : Application V → List V → StateM σ V) (v : Valuation)
    (p : Program) (s : σ) : Except Fault V × σ :=
  (Machine.run combine (p.loaded value v)).run.run s

variable (value : Operand → V) (v : Valuation) (combine : Application V → List V → StateM σ V)

theorem depthAfter_loaded (d : Nat) (p : Program) :
    depthAfter d (p.loaded value v) = depthAfter d p := by
  rw [loaded, resolve, depthAfter_map, depthAfter_map]

/-- A run yields a value and the program passes the check, or both blame the same fault. -/
theorem runFrom_eq (hne : p ≠ []) (s : σ) :
    (∃ x s', p.runFrom value combine v s = (.ok x, s') ∧ checkOperands p = .ok ()) ∨
    ∃ fault s', p.runFrom value combine v s = (.error fault, s') ∧
      checkOperands p = .error fault := by
  rw [runFrom, Machine.run_eq, checkOperands_of_ne_nil hne, ← depthAfter_loaded value v]
  obtain ⟨stack, s', hdepth, hrun⟩ | ⟨fault, s', hdepth, hrun⟩ :=
    Machine.execute_eq combine (p.loaded value v) [] s
  · rw [List.length_nil] at hdepth
    rw [hdepth, hrun]
    match stack with
    | [] => exact .inr ⟨_, s', rfl, rfl⟩
    | [x] => exact .inl ⟨x, s', rfl, rfl⟩
    | x :: y :: stack =>
      exact .inr ⟨_, s', rfl, if_neg (by rw [List.length_cons, List.length_cons]; omega)⟩
  · rw [List.length_nil] at hdepth
    rw [hdepth, hrun]
    exact .inr ⟨fault, s', rfl, rfl⟩

/-- Where the check blames an operator, it is the first one that lacks an operand: the machine goes on
up to it and has too few values there. -/
theorem exists_execute_of_missing {op : Operator} (hne : p ≠ [])
    (h : checkOperands p = .error (.missingOperand op)) (s : σ) :
    ∃ done rest stack s', p = done ++ .operator op :: rest ∧
      Machine.execute combine (loaded value v done) [] s = (.ok stack, s') ∧
      depthAfter 0 done = .ok stack.length ∧ stack.length < op.arity := by
  rw [checkOperands_of_ne_nil hne] at h
  cases hdepth : depthAfter 0 p with
  | ok d =>
    rw [hdepth] at h
    dsimp only at h
    split at h <;> cases h
  | error fault =>
    rw [hdepth] at h
    obtain rfl : fault = .missingOperand op := Except.error.inj h
    obtain ⟨done, op', rest, d, hp, hdone, hlt, hfault⟩ := exists_of_depthAfter_error hdepth
    obtain rfl : op = op' := Fault.missingOperand.inj hfault
    have hloaded : depthAfter 0 (loaded value v done) = .ok d := by rw [depthAfter_loaded, hdone]
    obtain ⟨stack, s', hstack, hrun⟩ | ⟨_, _, hstack, _⟩ :=
      Machine.execute_eq combine (loaded value v done) [] s
    · rw [List.length_nil, hloaded, Except.ok.injEq] at hstack
      subst hstack
      exact ⟨done, rest, stack, s', hp, hrun, hdone, hlt⟩
    · rw [List.length_nil, hloaded] at hstack
      cases hstack

/-- The check never blames a count of one. -/
theorem leftover_ne_one {n : Nat} (h : checkOperands p = .error (.leftover n)) : n ≠ 1 := by
  rintro rfl
  by_cases hne : p = []
  · subst hne
    cases h
  rw [checkOperands_of_ne_nil hne] at h
  cases hdepth : depthAfter 0 p with
  | error fault =>
    rw [hdepth] at h
    obtain ⟨_, op, _, _, _, _, _, hfault⟩ := exists_of_depthAfter_error hdepth
    rw [hfault] at h
    cases h
  | ok d =>
    rw [hdepth] at h
    dsimp only at h
    split at h
    · cases h
    · next hd => exact hd (Fault.leftover.inj (Except.error.inj h))

/-- The program of a text runs without a fault, in whatever way combining goes on or fails. -/
theorem run_of_parse {limit : Int} {source : String} {m : Type → Type} [Monad m] [LawfulMonad m]
    (h : (parse limit source).result = .ok p) (hne : p ≠ [])
    (combine : Application V → List V → m V) :
    ∃ x : m V, (Machine.run combine (p.loaded value v)).run = Except.ok <$> x := by
  obtain ⟨t, rfl⟩ := exists_tree_of_parse h hne
  rw [loaded, resolve, ← Tree.postorder_map, ← Tree.postorder_map, Machine.run_postorder]
  exact ⟨_, rfl⟩

/-- A program passes the check exactly where its run yields a value; otherwise both blame the same
fault: the first operator that lacks an operand, or the same number of values, which is not one. That
holds of whatever combining does with a state of its own; the stack it only reads. The program of a
text has a tree, and no run of it has a fault. -/
theorem checkOperands_iff_run (value : Operand → V) (v : Valuation) (hne : p ≠ []) :
    (∀ (combine : Application V → List V → StateM σ V) (s : σ),
      (checkOperands p = .ok () ↔ ∃ x s', p.runFrom value combine v s = (.ok x, s')) ∧
      (∀ fault, checkOperands p = .error fault ↔
        ∃ s', p.runFrom value combine v s = (.error fault, s')) ∧
      (∀ op, checkOperands p = .error (.missingOperand op) →
        ∃ done rest stack s', p = done ++ .operator op :: rest ∧
          Machine.execute combine (loaded value v done) [] s = (.ok stack, s') ∧
          depthAfter 0 done = .ok stack.length ∧ stack.length < op.arity) ∧
      ∀ n, checkOperands p = .error (.leftover n) → n ≠ 1) ∧
    ∀ (limit : Int) (source : String), (parse limit source).result = .ok p →
      (∃ t, p.tree v = .ok t) ∧
      ∀ {m : Type → Type} [Monad m] [LawfulMonad m] (combine : Application V → List V → m V),
        ∃ x : m V, (Machine.run combine (p.loaded value v)).run = Except.ok <$> x := by
  refine ⟨fun combine s => ⟨?_, fun fault => ?_,
      fun op h => exists_execute_of_missing value v combine hne h s, fun n h => leftover_ne_one h⟩,
    fun limit source h => ⟨?_, run_of_parse value v h hne⟩⟩
  · obtain ⟨x, s', hrun, hcheck⟩ | ⟨fault, s', hrun, hcheck⟩ :=
      runFrom_eq value v combine hne s <;> simp [hrun, hcheck]
  · obtain ⟨x, s', hrun, hcheck⟩ | ⟨fault', s', hrun, hcheck⟩ :=
      runFrom_eq value v combine hne s <;> simp [hrun, hcheck]
  · obtain ⟨t, rfl⟩ := exists_tree_of_parse h hne
    exact ⟨_, tree_postorder t⟩

set_option maxRecDepth 100000 in
/-- A product with a sum in it, and a sum that lacks its right operand, with the applications
counted. -/
theorem checkOperands_iff_run_counted :
    let p : Program := [.operand (.number (.int 2)), .operand (.name "x"),
      .operand (.number (.int 3)), .operator (.binary .add), .operator (.binary .multiply)]
    let q : Program := [.operand (.number (.int 2)), .operator (.binary .add),
      .operand (.number (.int 3))]
    let v : Valuation := fun _ => none
    let count : Application Operand → List Operand → StateM Nat Operand :=
      fun a _ => do modify (· + 1); return a.left
    p ≠ [] ∧ (parse 64 "2 * (x + 3)").result = .ok p ∧
      (∃ x n, p.runFrom id count v 0 = (.ok x, n)) ∧ (∃ t, p.tree v = .ok t) ∧
      q ≠ [] ∧ ∃ n, q.runFrom id count v 0 = (.error (.missingOperand (.binary .add)), n) := by
  intro p q v count
  have hp : p ≠ [] := List.cons_ne_nil _ _
  have hq : q ≠ [] := List.cons_ne_nil _ _
  have hparse : (parse 64 "2 * (x + 3)").result = .ok p := by decide +kernel
  have hcheck : checkOperands p = .ok () := rfl
  have hfault : checkOperands q = .error (.missingOperand (.binary .add)) := rfl
  obtain ⟨hrun, htext⟩ := checkOperands_iff_run (σ := Nat) id v hp
  obtain ⟨hrun', _⟩ := checkOperands_iff_run (σ := Nat) id v hq
  exact ⟨hp, hparse, (hrun count 0).1.1 hcheck, (htext 64 _ hparse).1, hq,
    ((hrun' count 0).2.1 _).1 hfault⟩

end Program

end Reckon
