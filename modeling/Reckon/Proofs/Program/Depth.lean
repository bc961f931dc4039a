import Reckon.Tree

/-!
Counting the values a postfix program leaves.

The count of one program after another is the count of the second, started where the first one ends.
It stops at the first operator that finds too few values. An operator ends above zero, so a program
that is counted to its end without a fault leaves at least one value; the listing of a tree leaves
exactly one more than it found. A program that leaves one value is the listing of a tree, because every
stack on the way can be kept as the trees it was read from.

    depth    d ──operand──▶ d + 1        d ──negate──▶ d        d ──binary──▶ d - 1
             d ──listing of a tree──▶ d + 1
-/

namespace Reckon

variable {α : Type}

/-- The number of values on the stack after a program. -/
def depthAfter (d : Nat) (p : List (Instruction α)) : Except Fault Nat :=
  p.foldlM Instruction.depth d

@[simp] theorem depthAfter_nil (d : Nat) : depthAfter d ([] : List (Instruction α)) = .ok d := rfl

theorem depthAfter_cons (d : Nat) (i : Instruction α) (p : List (Instruction α)) :
    depthAfter d (i :: p) = (i.depth d).bind fun e => depthAfter e p := rfl

theorem depthAfter_append (d : Nat) (p q : List (Instruction α)) :
    depthAfter d (p ++ q) = (depthAfter d p).bind fun e => depthAfter e q :=
  List.foldlM_append

theorem depthAfter_operator {d d' : Nat} {op : Operator} :
    depthAfter d [(.operator op : Instruction α)] = .ok d' ↔
      op.arity ≤ d ∧ d' = d - op.arity + 1 := by
  rw [depthAfter_cons, Instruction.depth]
  by_cases h : d < op.arity
  · rw [if_pos h]
    simp only [Except.bind, reduceCtorEq, false_iff]
    omega
  · rw [if_neg h]
    simp only [Except.bind, depthAfter_nil, Except.ok.injEq]
    omega

theorem depthAfter_append_eq_ok {d d' : Nat} {p q : List (Instruction α)} :
    depthAfter d (p ++ q) = .ok d' ↔ ∃ e, depthAfter d p = .ok e ∧ depthAfter e q = .ok d' := by
  rw [depthAfter_append]
  cases depthAfter d p <;> simp [Except.bind]

/-- Counting stops at the first operator that finds too few values, and blames it. -/
theorem exists_of_depthAfter_error {d : Nat} {p : List (Instruction α)} {fault : Fault}
    (h : depthAfter d p = .error fault) :
    ∃ done op rest e, p = done ++ .operator op :: rest ∧ depthAfter d done = .ok e ∧
      e < op.arity ∧ fault = .missingOperand op := by
  induction p generalizing d with
  | nil => cases h
  | cons i p ih =>
    rw [depthAfter_cons] at h
    cases hi : i.depth d with
    | ok e =>
      rw [hi] at h
      obtain ⟨done, op, rest, e', rfl, hdone, hlt, hfault⟩ := ih h
      refine ⟨i :: done, op, rest, e', rfl, ?_, hlt, hfault⟩
      rw [depthAfter_cons, hi]
      exact hdone
    | error fault' =>
      rw [hi] at h
      obtain rfl : fault' = fault := Except.error.inj h
      cases i with
      | operand a => cases hi
      | operator op =>
        rw [Instruction.depth] at hi
        split at hi
        · next hlt => exact ⟨[], op, p, d, rfl, rfl, hlt, (Except.error.inj hi).symm⟩
        · cases hi

/-- A program that is counted to its end leaves a value, unless it is empty. -/
theorem depthAfter_pos {d d' : Nat} {p : List (Instruction α)} (hne : p ≠ [])
    (h : depthAfter d p = .ok d') : 0 < d' := by
  obtain ⟨front, last, rfl⟩ : ∃ front last, p = front ++ [last] :=
    ⟨_, _, (List.dropLast_concat_getLast hne).symm⟩
  obtain ⟨e, _, hlast⟩ := depthAfter_append_eq_ok.1 h
  cases last with
  | operand a =>
    obtain rfl : e + 1 = d' := Except.ok.inj hlast
    exact Nat.succ_pos e
  | operator op =>
    obtain ⟨_, rfl⟩ := depthAfter_operator.1 hlast
    exact Nat.succ_pos _

/-- The listing of a tree leaves one value more. -/
theorem depthAfter_postorder (d : Nat) (t : Tree α) : depthAfter d t.postorder = .ok (d + 1) := by
  induction t generalizing d with
  | leaf a => rfl
  | negate t ih =>
    rw [Tree.postorder, depthAfter_append_eq_ok]
    exact ⟨d + 1, ih d, depthAfter_operator.2 ⟨Nat.le_add_left 1 d, rfl⟩⟩
  | binary op l r ihl ihr =>
    rw [Tree.postorder, List.append_assoc, depthAfter_append_eq_ok]
    refine ⟨d + 1, ihl d, ?_⟩
    rw [depthAfter_append_eq_ok]
    refine ⟨d + 1 + 1, ihr (d + 1), depthAfter_operator.2 ⟨?_, ?_⟩⟩
    · show 2 ≤ d + 1 + 1
      omega
    · show d + 1 = d + 1 + 1 - 2 + 1
      omega

/-! ### Programs that leave one value list a tree -/

/-- The programs of trees one after another, the first tree last: what a stack of them was read from. -/
def Tree.listing (ts : List (Tree α)) : List (Instruction α) := ts.reverse.flatMap Tree.postorder

theorem Tree.listing_cons (t : Tree α) (ts : List (Tree α)) :
    listing (t :: ts) = listing ts ++ t.postorder := by
  simp [listing]

/-- A program that finds its operands in a stack of trees makes trees of them. -/
theorem exists_listing {d : Nat} {ts : List (Tree α)} {p : List (Instruction α)}
    (h : depthAfter ts.length p = .ok d) :
    ∃ us : List (Tree α), us.length = d ∧ Tree.listing ts ++ p = Tree.listing us := by
  induction p generalizing ts with
  | nil => exact ⟨ts, Except.ok.inj h, List.append_nil _⟩
  | cons i p ih =>
    rw [← List.singleton_append, depthAfter_append_eq_ok] at h
    obtain ⟨e, hi, hp⟩ := h
    -- the instruction turns the trees on the top of the stack into one
    obtain ⟨vs, rfl, hvs⟩ : ∃ vs : List (Tree α), vs.length = e ∧
        Tree.listing ts ++ [i] = Tree.listing vs := by
      cases i with
      | operand a =>
        exact ⟨.leaf a :: ts, Except.ok.inj hi, by simp [Tree.listing_cons, Tree.postorder]⟩
      | operator op =>
        obtain ⟨harity, rfl⟩ := depthAfter_operator.1 hi
        match op, ts, harity with
        | .negate, t :: ts, _ =>
          exact ⟨.negate t :: ts, rfl, by simp [Tree.listing_cons, Tree.postorder]⟩
        | .binary op, r :: l :: ts, _ =>
          exact ⟨.binary op l r :: ts, rfl, by simp [Tree.listing_cons, Tree.postorder]⟩
    obtain ⟨us, hlength, hus⟩ := ih hp
    exact ⟨us, hlength, by rw [List.append_cons, hvs, hus]⟩

/-- A program leaves one value exactly where it lists a tree. -/
theorem depthAfter_eq_one_iff {p : List (Instruction α)} :
    depthAfter 0 p = .ok 1 ↔ ∃ t : Tree α, p = t.postorder := by
  constructor
  · intro h
    have hempty : depthAfter ([] : List (Tree α)).length p = .ok 1 := h
    obtain ⟨us, hlength, hus⟩ := exists_listing hempty
    obtain ⟨t, rfl⟩ := List.length_eq_one_iff.1 hlength
    exact ⟨t, by simpa [Tree.listing] using hus⟩
  · rintro ⟨t, rfl⟩
    exact depthAfter_postorder 0 t

theorem checkOperands_eq_ok {p : List (Instruction α)} :
    checkOperands p = .ok () ↔ p = [] ∨ depthAfter 0 p = .ok 1 := by
  rw [checkOperands, depthAfter]
  cases p with
  | nil => exact iff_of_true rfl (.inl rfl)
  | cons i p => cases List.foldlM Instruction.depth 0 (i :: p) <;> simp

theorem checkOperands_of_ne_nil {p : List (Instruction α)} (hne : p ≠ []) :
    checkOperands p =
      match depthAfter 0 p with
      | .error fault => .error fault
      | .ok d => if d = 1 then .ok () else .error (.leftover d) := by
  rw [checkOperands, depthAfter, List.isEmpty_eq_false_iff.2 hne]
  cases p.foldlM Instruction.depth 0 <;> simp

end Reckon
