import Reckon.Calculation
import Reckon.Proofs.Program.Parsing

/-!
The stack machine on the listing of a tree is a fold of the tree.

The machine reads the listing of a tree, from any stack, as one value: the left operand is folded on
the stack that is there, the right one on top of the left value, and the two are combined above what
waits below. This holds whatever the values are and whatever combining does, so to build the tree of
a program and to compute its value are two folds of one tree, and what the second one fails with is
what comes first in the tree from the left.

    stack  s  ──listing of l──▶  l' s  ──listing of r──▶  r' l' s  ──op──▶  (l' op r') s
-/

namespace Reckon

/-- The application with its operands mapped to something else. -/
def Application.map {V W : Type} (f : V → W) : Application V → Application W
  | .negate x => .negate (f x)
  | .binary op left right => .binary op (f left) (f right)

namespace Tree

variable {α β V : Type} {m : Type → Type} [Monad m]

/-- The tree with its leaves mapped to something else. -/
def map (f : α → β) : Tree α → Tree β
  | .leaf a => .leaf (f a)
  | .negate t => .negate (t.map f)
  | .binary op left right => .binary op (left.map f) (right.map f)

/-- Combines the values of a tree from the leaves up, the left operand before the right one; `below`
are the values that wait for the tree. -/
def foldM (combine : Application V → List V → m V) (below : List V) : Tree V → m V
  | .leaf a => pure a
  | .negate t => do
    let x ← t.foldM combine below
    combine (.negate x) below
  | .binary op left right => do
    let x ← left.foldM combine below
    let y ← right.foldM combine (x :: below)
    combine (.binary op x y) below

theorem postorder_map (f : α → β) (t : Tree α) :
    (t.map f).postorder = t.postorder.map (Instruction.map f) := by
  induction t with
  | leaf a => rfl
  | negate t ih => simp [map, postorder, ih, Instruction.map]
  | binary op l r ihl ihr => simp [map, postorder, ihl, ihr, Instruction.map]

theorem operator_mem_map {f : α → β} {t : Tree α} {op : Operator} :
    .operator op ∈ (t.map f).postorder ↔ .operator op ∈ t.postorder := by
  rw [postorder_map, List.mem_map]
  constructor
  · rintro ⟨i, hi, heq⟩
    cases i with
    | operand a => cases heq
    | operator o =>
      obtain rfl := Instruction.operator.inj heq
      exact hi
  · exact fun h => ⟨_, h, rfl⟩

end Tree

/-- What an operand is pushed as: a name as its value where it has one, and as itself where it has
none. -/
def Operand.pushed {V : Type} (of : Operand → V) (v : Valuation) : Operand → V
  | .number n => of (.number n)
  | .name s =>
    match v s with
    | some n => of (.number n)
    | none => of (.name s)

theorem Operand.pushed_eq {V : Type} (of : Operand → V) (v : Valuation) (a : Operand) :
    a.pushed of v = of (a.resolve v) := by
  cases a with
  | number n => rfl
  | name s =>
    rw [pushed, resolve]
    cases v s <;> rfl

theorem Tree.postorder_pushed {V : Type} (of : Operand → V) (v : Valuation) (t : Tree Operand) :
    (t.map (Operand.pushed of v)).postorder =
      (Program.resolve v t.postorder).map (Instruction.map of) := by
  rw [postorder_map, Program.resolve, List.map_map]
  refine List.map_congr_left fun i _ => ?_
  cases i with
  | operand a => exact congrArg Instruction.operand (a.pushed_eq of v)
  | operator op => rfl

/-! ### The machine on a listing -/

namespace Machine

variable {V : Type} {m : Type → Type} [Monad m] [LawfulMonad m]

/-- The machine leaves the folded value of a tree on the stack that it started from. -/
theorem foldlM_postorder (combine : Application V → List V → m V) (t : Tree V) (stack : List V) :
    t.postorder.foldlM (step combine) stack =
      (do return (← (liftM (t.foldM combine stack) : ExceptT Fault m V)) :: stack) := by
  induction t generalizing stack with
  | leaf a => simp [Tree.postorder, Tree.foldM, step]
  | negate t ih =>
    rw [Tree.postorder, List.foldlM_append, ih]
    simp [Tree.foldM, step]
  | binary op l r ihl ihr =>
    rw [Tree.postorder, List.foldlM_append, List.foldlM_append, ihl]
    simp [ihr, Tree.foldM, step]

/-- A run over the listing of a tree is the fold of the tree and has no fault. -/
theorem run_postorder (combine : Application V → List V → m V) (t : Tree V) :
    (run combine t.postorder).run = Except.ok <$> t.foldM combine [] := by
  rw [run, foldlM_postorder]
  simp

end Machine

/-! ### Two folds of one tree -/

namespace Tree

variable {α : Type}

theorem foldM_ofApplication (t : Tree α) (below : List (Tree α)) :
    (t.map leaf).foldM (m := Id) (fun a _ => ofApplication a) below = t := by
  induction t generalizing below with
  | leaf a => rfl
  | negate t ih => exact congrArg negate (ih below)
  | binary op l r ihl ihr =>
    have hleft := ihl below
    have hright := ihr ((l.map leaf).foldM (m := Id) (fun a _ => ofApplication a) below :: below)
    exact congrArg₂ (binary op) hleft hright

theorem ofPostfix?_postorder (t : Tree α) : ofPostfix? t.postorder = .ok t := by
  have hrun := Machine.run_postorder (m := Id) (fun a _ => ofApplication a) (t.map leaf)
  rw [foldM_ofApplication] at hrun
  rw [ofPostfix?, ← postorder_map]
  exact hrun

/-- The number that a tree of numbers computes: the left operand first, then the right one, then the
operator. -/
def evaluate : Tree Number → Except CalculationError Number
  | .leaf n => .ok n
  | .negate t => do
    let x ← t.evaluate
    (Application.negate x).compute
  | .binary op left right => do
    let x ← left.evaluate
    let y ← right.evaluate
    (Application.binary op x y).compute

theorem foldM_compute (t : Tree Number) (below : List Number) :
    t.foldM (fun a _ => a.compute) below = t.evaluate := by
  induction t generalizing below with
  | leaf n => rfl
  | negate t ih => rw [foldM, evaluate, ih]
  | binary op l r ihl ihr =>
    simp only [foldM, evaluate, ihl, ihr]

end Tree

/-- One instruction of the stack machine over numbers. -/
def Number.step (stack : List Number) (i : Instruction Number) :
    ExceptT Fault (Except CalculationError) (List Number) :=
  Machine.step (fun a _ => a.compute) stack i

namespace Program

variable {v : Valuation} {p : Program}

theorem isEquation_iff : p.isEquation ↔ .equals ∈ p := by
  rw [isEquation, List.contains_iff_mem]

/-- Where every name has a value, a tree of operands becomes a tree of numbers: the one that the
program of the tree is computed as, and the one that names are replaced in. -/
theorem exists_numeric {t : Tree Operand}
    (h : ∀ s, .operand (.name s) ∈ t.postorder → (v s).isSome) :
    ∃ u : Tree Number, numeric? v t.postorder = some u.postorder ∧
      t.map (Operand.resolve v) = u.map .number := by
  induction t with
  | leaf a =>
    cases a with
    | number n => exact ⟨.leaf n, rfl, rfl⟩
    | name s =>
      obtain ⟨n, hn⟩ := Option.isSome_iff_exists.1 (h s (List.mem_singleton_self _))
      exact ⟨.leaf n, by simp [numeric?, Tree.postorder, Instruction.map?, Operand.value?, hn],
        by simp [Tree.map, Operand.resolve, hn]⟩
  | negate t ih =>
    obtain ⟨u, hu, hmap⟩ := ih fun s hs => h s (by simp [Tree.postorder, hs])
    rw [numeric?] at hu
    exact ⟨.negate u, by simp [numeric?, Tree.postorder, hu, Instruction.map?],
      by rw [Tree.map, Tree.map, hmap]⟩
  | binary op l r ihl ihr =>
    obtain ⟨ul, hl, hmapl⟩ := ihl fun s hs => h s (by simp [Tree.postorder, hs])
    obtain ⟨ur, hr, hmapr⟩ := ihr fun s hs => h s (by simp [Tree.postorder, hs])
    rw [numeric?] at hl hr
    exact ⟨.binary op ul ur, by simp [numeric?, Tree.postorder, hl, hr, Instruction.map?],
      by rw [Tree.map, Tree.map, hmapl, hmapr]⟩

theorem tree_postorder (t : Tree Operand) :
    tree v t.postorder = .ok (t.map (Operand.resolve v)) := by
  rw [tree, resolve, ← Tree.postorder_map, Tree.ofPostfix?_postorder]

theorem computePostfix_postorder (u : Tree Number) : computePostfix u.postorder = u.evaluate := by
  have hrun := Machine.run_postorder (fun (a : Application Number) _ => a.compute) u
  rw [Tree.foldM_compute] at hrun
  rw [computePostfix, hrun]
  cases u.evaluate <;> rfl

/-- What a text is parsed to lists a tree, if it is not empty. -/
theorem exists_tree_of_parse {limit : Int} {source : String}
    (h : (parse limit source).result = .ok p) (hne : p ≠ []) : ∃ t : Tree Operand, p = t.postorder := by
  obtain ⟨_, y, _, hfinish⟩ := Parsing.ofLexing_result_eq_ok.1 h
  obtain ⟨_, _, _, hcheck⟩ := Yard.finish_eq_ok.1 hfinish
  exact depthAfter_eq_one_iff.1 ((checkOperands_eq_ok.1 hcheck).resolve_left hne)

/-- The program of a text, no equation and with a value for each of its names, has a tree over
numbers, and its numeric value is what the tree is evaluated to: the same number or the same error. -/
theorem calculate_eq_evaluate {limit : Int} {source : String}
    (h : (parse limit source).result = .ok p) (hne : p ≠ []) (hequals : .equals ∉ p)
    (hv : ∀ s, .operand (.name s) ∈ p → (v s).isSome) :
    ∃ u : Tree Number, p.tree v = .ok (u.map .number) ∧ p.calculate v = u.evaluate := by
  obtain ⟨t, rfl⟩ := exists_tree_of_parse h hne
  obtain ⟨u, hnumeric, hmap⟩ := exists_numeric hv
  have hequation : isEquation t.postorder = false := by
    rw [isEquation, Bool.eq_false_iff, Ne, List.contains_iff_mem]
    exact hequals
  refine ⟨u, ?_, ?_⟩
  · rw [tree_postorder, hmap]
  · rw [calculate, hequation, hnumeric]
    exact computePostfix_postorder u

set_option maxRecDepth 100000 in
/-- A difference on the left of a power, negated operands, and a parenthesis too many. -/
theorem calculate_eq_evaluate_power :
    let p : Program := [.operand (.name "x"), .operand (.number (.int 2)),
      .operator (.binary .subtract), .operator .negate, .operand (.name "y"),
      .operator (.binary .power), .operand (.name "x"), .operator (.binary .multiply)]
    let v : Valuation := fun s => if s = "x" then some (.int 5) else some (.int 3)
    (parse 64 "-(x - 2)^y) * x").result = .ok p ∧ p ≠ [] ∧ .equals ∉ p ∧
      (v "x").isSome ∧ (v "y").isSome ∧
      ∃ u : Tree Number, p.tree v = .ok (u.map .number) ∧ u.evaluate = .ok (.int (-135)) := by
  intro p v
  have hparse : (parse 64 "-(x - 2)^y) * x").result = .ok p := by decide +kernel
  have hne : p ≠ [] := by simp [p]
  have hequals : .equals ∉ p := by decide
  have hv : ∀ s, .operand (.name s) ∈ p → (v s).isSome := by
    intro s _
    by_cases hs : s = "x" <;> simp [v, hs]
  obtain ⟨u, htree, hvalue⟩ := calculate_eq_evaluate hparse hne hequals hv
  refine ⟨hparse, hne, hequals, rfl, rfl, u, htree, ?_⟩
  rw [← hvalue]
  decide +kernel

end Program

end Reckon
