import Reckon.Proofs.Program.Fold

/-!
The tree of a program keeps all of the program.

A tree is written flat with each node behind its operands: a negation behind its only one, every other
node behind two, a leaf as it is. What comes out is the written program that the tree was built from,
names replaced by the values they have. So nothing is lost between the two written forms, and it makes
no difference whether names are replaced before the tree is built or while it is.

    ["plus", ["uminus", "x", null], 2]      x uminus 2 plus        x = 5    5 uminus 2 plus
-/

namespace Reckon

/-- The tree written flat: the operands of each node, then the tag of its operator. -/
def Tree.flat : Tree Operand → List Operand
  | .leaf a => [a]
  | .negate t => t.flat ++ [.name Operator.negate.tag]
  | .binary op left right => left.flat ++ right.flat ++ [.name op.tag]

/-- To write a tree flat is to write its listing. -/
theorem Tree.flat_eq (t : Tree Operand) : t.flat = Program.written t.postorder := by
  induction t with
  | leaf a => rfl
  | negate t ih =>
    rw [flat, ih, postorder, Program.written, Program.written, List.map_append]
    rfl
  | binary op l r ihl ihr =>
    rw [flat, ihl, ihr, postorder, Program.written, Program.written, Program.written,
      List.map_append, List.map_append]
    rfl

/-- An instruction as it stands in a written program, a name as its value where it has one. -/
def Instruction.filled (v : Valuation) : Instruction Operand → Operand
  | .operand a => a.pushed id v
  | .operator op => .name op.tag

namespace Program

/-- The program with its names replaced by the values they have. -/
def filled (v : Valuation) (p : Program) : Program := p.map (Instruction.map (Operand.pushed id v))

theorem filled_eq (v : Valuation) (p : Program) : p.filled v = p.resolve v := by
  refine List.map_congr_left fun i _ => ?_
  cases i with
  | operand a => exact congrArg Instruction.operand (a.pushed_eq id v)
  | operator op => rfl

theorem written_filled (v : Valuation) (p : Program) :
    (p.filled v).written = p.map (Instruction.filled v) := by
  rw [written, filled, List.map_map]
  refine List.map_congr_left fun i _ => ?_
  cases i <;> rfl

theorem filled_none (p : Program) : p.filled (fun _ => none) = p := by
  refine (List.map_congr_left fun i _ => ?_).trans p.map_id
  rcases i with (n | s) | op <;> rfl

theorem exists_tree_listed (v : Valuation) (t : Tree Operand) :
    ∃ u : Tree Operand, tree v t.postorder = .ok u ∧ u.postorder = filled v t.postorder :=
  ⟨t.map (Operand.resolve v), tree_postorder t, by rw [Tree.postorder_map, filled_eq, resolve]⟩

/-- The tree of a text's program, written flat, is the written program with each name that has a value
replaced by it; without values it is the written program itself. The instructions come back too, and
the program with its names replaced first has the same tree. -/
theorem tree_lossless {limit : Int} {source : String} {p : Program}
    (h : (parse limit source).result = .ok p) (hne : p ≠ []) (v : Valuation) :
    (∃ t : Tree Operand, p.tree v = .ok t ∧ t.flat = p.map (Instruction.filled v) ∧
      t.postorder = p.filled v) ∧
    (∃ t : Tree Operand, p.tree (fun _ => none) = .ok t ∧ t.flat = p.written ∧ t.postorder = p) ∧
    p.tree v = (p.filled v).tree fun _ => none := by
  obtain ⟨t, rfl⟩ := exists_tree_of_parse h hne
  refine ⟨?_, ?_, ?_⟩
  · obtain ⟨u, htree, hlisted⟩ := exists_tree_listed v t
    exact ⟨u, htree, by rw [u.flat_eq, hlisted, written_filled], hlisted⟩
  · obtain ⟨u, htree, hlisted⟩ := exists_tree_listed (fun _ => none) t
    rw [filled_none] at hlisted
    exact ⟨u, htree, by rw [u.flat_eq, hlisted], hlisted⟩
  · rw [tree, tree, ← filled_eq, ← filled_eq, filled_none]

set_option maxRecDepth 100000 in
/-- A name that is spelled like the tag of an operator: only the name is replaced. -/
theorem tree_lossless_tag :
    let p : Program := [.operand (.name "plus"), .operator .negate, .operand (.number (.int 2)),
      .operand (.name "y"), .operator (.binary .multiply), .operator (.binary .add)]
    let v : Valuation := fun s => if s = "plus" then some (.int 3) else none
    (parse 64 "-plus + 2 * y").result = .ok p ∧ p ≠ [] ∧
      (∃ t : Tree Operand, p.tree v = .ok t ∧
        t.flat = [.number (.int 3), .name "uminus", .number (.int 2), .name "y", .name "mul",
          .name "plus"]) ∧
      ∃ t : Tree Operand, p.tree (fun _ => none) = .ok t ∧
        t.flat = [.name "plus", .name "uminus", .number (.int 2), .name "y", .name "mul",
          .name "plus"] := by
  intro p v
  have hparse : (parse 64 "-plus + 2 * y").result = .ok p := by decide +kernel
  have hne : p ≠ [] := by simp [p]
  obtain ⟨⟨t, htree, hflat, _⟩, ⟨u, hbare, hwritten, _⟩, _⟩ := tree_lossless hparse hne v
  exact ⟨hparse, hne, ⟨t, htree, hflat⟩, ⟨u, hbare, hwritten⟩⟩

end Program

end Reckon
