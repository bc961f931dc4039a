import Reckon.Proofs.Formula.Parsing
import Reckon.Proofs.Program.Fold

/-!
The value of a program with integers put in.

A negative integer is put in as its magnitude and a minus sign, and the stack machine makes it whole
again before anything else is computed. So the program with the integers put in computes what the
program computes under the integers, or fails with the same error.

    x 2 exp          x = -3          stack  -3
    3 uminus 2 exp                   stack  3  ──▶  -3
-/

namespace Reckon

variable {v w : Valuation} {p : Program}

/-- Every name of the program stands for an integer that can be written. -/
def Valuation.IsExact (v : Valuation) (p : Program) : Prop :=
  ∀ s ∈ p.names, ∃ i, v s = some (.int i) ∧ (Number.int i).isWritable

/-- The text of an integer is computed to the integer. -/
theorem Number.foldlM_instructions_int {i : Int} (h : (Number.int i).isWritable) :
    ∃ q, (Number.int i).instructions.mapM (Instruction.map? (Operand.value? w)) = some q ∧
      ∀ stack, q.foldlM step stack = step stack (.operand (.int i)) := by
  obtain ⟨hsigned, hunsigned⟩ := isSigned_unsigned_int h
  rw [instructions, hsigned, hunsigned]
  by_cases hi : i < 0
  · have hneg : (Number.int i.natAbs).neg = .int i := congrArg Number.int (by omega)
    rw [decide_eq_true hi, if_pos rfl]
    refine ⟨[.operand (.int i.natAbs), .operator .negate], rfl, fun stack => ?_⟩
    rw [← hneg]
    rfl
  · have habs : (i.natAbs : Int) = i := by omega
    rw [decide_eq_false hi, if_neg (by decide), habs]
    exact ⟨[.operand (.int i)], rfl, fun _ => rfl⟩

/-- Each instruction is computed as before. -/
theorem Instruction.foldlM_substitute {i : Instruction Operand}
    (h : ∀ s, i = .operand (.name s) → ∃ n, v s = some (.int n) ∧ (Number.int n).isWritable) :
    ∃ j q, i.map? (Operand.value? v) = some j ∧
      (substitute v i).mapM (map? (Operand.value? w)) = some q ∧
      ∀ stack, q.foldlM Number.step stack = Number.step stack j := by
  match i, h with
  | .operator op, _ => exact ⟨.operator op, [.operator op], rfl, rfl, fun _ => bind_pure _⟩
  | .operand (.number n), _ => exact ⟨.operand n, [.operand n], rfl, rfl, fun _ => rfl⟩
  | .operand (.name s), h =>
    obtain ⟨n, hn, hwritable⟩ := h s rfl
    obtain ⟨q, hq, hfold⟩ := Number.foldlM_instructions_int (w := w) hwritable
    refine ⟨.operand (.int n), q, ?_, ?_, hfold⟩
    · rw [map?, Operand.value?, hn]
      rfl
    · rw [substitute, hn]
      exact hq

namespace Program

/-- Both programs are programs over numbers, and take the stack machine from each stack to the
same. -/
theorem foldlM_substitute (h : v.IsExact p) :
    ∃ q q', p.numeric? v = some q ∧ (p.substitute v).numeric? w = some q' ∧
      ∀ stack, q'.foldlM Number.step stack = q.foldlM Number.step stack := by
  induction p with
  | nil => exact ⟨[], [], rfl, rfl, fun _ => rfl⟩
  | cons i p ih =>
    have hrest : v.IsExact p := fun s hs => h s (mem_names.2 (List.mem_cons_of_mem i (mem_names.1 hs)))
    obtain ⟨q, q', hq, hq', hfold⟩ := ih hrest
    obtain ⟨j, r, hj, hr, hone⟩ := Instruction.foldlM_substitute (w := w) fun s hs =>
      h s (mem_names.2 (hs ▸ List.mem_cons_self ..))
    rw [numeric?] at hq hq'
    refine ⟨j :: q, r ++ q', ?_, ?_, fun stack => ?_⟩
    · rw [numeric?, List.mapM_cons, hj, hq]
      rfl
    · rw [numeric?, substitute, List.flatMap_cons, List.mapM_append, hr]
      rw [substitute] at hq'
      rw [hq']
      rfl
    · rw [List.foldlM_append, List.foldlM_cons, hone]
      exact congrArg _ (funext hfold)

theorem isEquation_substitute (p : Program) : (p.substitute v).isEquation = p.isEquation := by
  rw [isEquation, isEquation, Bool.eq_iff_iff, List.contains_iff_mem, List.contains_iff_mem,
    ← List.count_pos_iff, ← List.count_pos_iff]
  exact iff_of_eq (congrArg (0 < ·) (count_substitute p))

theorem calculate_substitute (h : v.IsExact p) : (p.substitute v).calculate w = p.calculate v := by
  obtain ⟨q, q', hq, hq', hfold⟩ := foldlM_substitute (w := w) h
  have hrun : Machine.run (fun a _ => a.compute) q' =
      (Machine.run (fun a _ => a.compute) q : ExceptT Fault (Except CalculationError) Number) := by
    rw [Machine.run, Machine.run]
    exact congrArg (· >>= _) (hfold [])
  rw [calculate, calculate, isEquation_substitute, hq, hq']
  dsimp only
  rw [computePostfix, computePostfix, hrun]

end Program

end Reckon
