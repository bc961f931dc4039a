import Reckon.Proofs.Program.Operands

/-!
What the yard is given it lets go again.

Every token that is not a parenthesis stands for one instruction: an operand for itself, an operator
for itself or, where it is a minus behind nothing that ends an operand, for the negation. What is
emitted and what waits are together the instructions of the tokens so far. A token puts in its own,
and what goes to make way for it only moves from one part to the other, wherever that happens; a
closing parenthesis that is ignored is not even remembered as the token before the next one.

    tokens         - x ) - y          instructions   negate  x  minus  y
    program        x  negate  y  minus
-/

namespace Reckon

namespace Token

/-- Whether an operand ends with the token. -/
def endsOperand : Token → Bool
  | .closing | .operand _ => true
  | .opening | .operator _ => false

/-- The instruction that a token stands for, with the token before it. The minus negates unless an
operand ends before it. -/
def instruction? (before : Option Token) : Token → Option (Instruction Operand)
  | .operand a => some (.operand a)
  | .operator op =>
    if op = .subtract ∧ ¬ before.any endsOperand then some (.operator .negate)
    else some (.operator (.binary op))
  | .opening | .closing => none

theorem instruction?_binary {before : Option Token} {op : Binary}
    (h : before.any endsOperand = true) :
    instruction? before (.operator op) = some (.operator (.binary op)) := by
  rw [instruction?, h]
  exact if_neg fun h => h.2 rfl

theorem instruction?_negate {before : Option Token} (h : before.any endsOperand = false) :
    instruction? before (.operator .subtract) = some (.operator .negate) := by
  rw [instruction?, h]
  rfl

/-- The instructions that tokens stand for, in the order of the tokens. -/
def instructions (before : Option Token) : List Token → Program
  | [] => []
  | token :: ts => (instruction? before token).toList ++ instructions (some token) ts

/-- The tokens without the closing parentheses that find no group open, with `n` groups open before
them. -/
def heeded : Nat → List Token → List Token
  | _, [] => []
  | n, .opening :: ts => .opening :: heeded (n + 1) ts
  | 0, .closing :: ts => heeded 0 ts
  | n + 1, .closing :: ts => .closing :: heeded n ts
  | n, .operator op :: ts => .operator op :: heeded n ts
  | n, .operand a :: ts => .operand a :: heeded n ts

end Token

theorem Program.perm_insert (p q : Program) (i : Instruction Operand) :
    (p ++ i :: q).Perm (p ++ q ++ [i]) :=
  List.perm_middle.trans (List.perm_append_singleton i (p ++ q)).symm

namespace Yard

variable {y y' : Yard} {token : Token} {before : Option Token} {ts : List Token}

theorem flushed_emit {ops : List Operator} {rest : List Pending}
    (h : y.pending = ops.map .operator ++ rest) :
    { y.emit ops with pending := rest }.flushed = y.flushed := by
  simp [flushed, emit, h, List.filterMap_map, Function.comp_def, Pending.operator?]

theorem flushed_wait (op : Operator) (y : Yard) :
    List.Perm { y with pending := .operator op :: y.pending }.flushed (y.flushed ++ [.operator op]) :=
  Program.perm_insert y.emitted.reverse _ (.operator op)

theorem flushed_shunt (op : Binary) (y : Yard) :
    (y.shunt op).flushed.Perm (y.flushed ++ [.operator (.binary op)]) := by
  have happ := Pending.takeOperators_append (fun waiting => op.rank ≤ waiting.rank) y.pending
  rw [shunt]
  generalize Pending.takeOperators (fun waiting => decide (op.rank ≤ waiting.rank)) y.pending =
    taken at happ
  obtain ⟨ops, rest⟩ := taken
  rw [← flushed_emit happ.symm]
  exact flushed_wait (.binary op) { y.emit ops with pending := rest }

/-- A token puts in the instruction that it stands for, and nothing is lost. -/
theorem Takes.flushed_perm (h : y.Takes token y')
    (hbefore : y.afterOperand = before.any Token.endsOperand) :
    y'.flushed.Perm (y.flushed ++ (token.instruction? before).toList) := by
  cases h with
  | opening hafter =>
    rw [Token.instruction?, Option.toList_none, List.append_nil]
    exact .refl _
  | operand a hafter =>
    rw [flushed, List.reverse_cons, List.append_assoc]
    exact Program.perm_insert y.emitted.reverse _ (.operand a)
  | binary op hafter =>
    rw [Token.instruction?_binary (hbefore ▸ hafter)]
    exact flushed_shunt op y
  | negate hafter =>
    rw [Token.instruction?_negate (hbefore ▸ hafter)]
    exact flushed_wait .negate y
  | @close ops rest hops =>
    rw [Token.instruction?, Option.toList_none, List.append_nil]
    exact .of_eq (@flushed_emit y ops (.group :: rest) hops)
  | ignore hops =>
    rw [Token.instruction?, Option.toList_none, List.append_nil]
    exact .of_eq (flushed_emit (hops.trans (List.append_nil _).symm))

/-- Behind the token, the rest of the tokens stand for the same instructions as before. -/
theorem Takes.exists_before (h : y.Takes token y')
    (hbefore : y.afterOperand = before.any Token.endsOperand) (ts : List Token) :
    ∃ before' : Option Token, y'.afterOperand = before'.any Token.endsOperand ∧
      Token.instructions before (Token.heeded (y.pending.count .group) (token :: ts)) =
        (token.instruction? before).toList ++
          Token.instructions before' (Token.heeded (y'.pending.count .group) ts) := by
  cases h with
  | opening hafter =>
    refine ⟨some .opening, hafter, ?_⟩
    rw [List.count_cons_self]
    rfl
  | operand a hafter => exact ⟨some (.operand a), rfl, rfl⟩
  | binary op hafter =>
    refine ⟨some (.operator op), rfl, ?_⟩
    rw [count_group_shunt]
    rfl
  | negate hafter =>
    refine ⟨some (.operator .subtract), hafter, ?_⟩
    rw [List.count_cons_of_ne (by decide)]
    rfl
  | close hops =>
    refine ⟨some .closing, rfl, ?_⟩
    rw [hops, List.count_append, Pending.count_group_operators, List.count_cons_self, Nat.zero_add]
    rfl
  | ignore hops =>
    -- a parenthesis that is ignored is not the token before the next one
    refine ⟨before, hbefore, ?_⟩
    rw [hops, Pending.count_group_operators]
    rfl

/-- A run puts in the instructions of all tokens that are heeded. -/
theorem flushed_run (h : y.run ts = (y', none))
    (hbefore : y.afterOperand = before.any Token.endsOperand) :
    y'.flushed.Perm
      (y.flushed ++ Token.instructions before (Token.heeded (y.pending.count .group) ts)) := by
  induction ts generalizing y before with
  | nil =>
    obtain ⟨rfl, _⟩ := Prod.mk.inj h
    exact .of_eq (List.append_nil _).symm
  | cons token ts ih =>
    obtain ⟨y₁, hstep, hrun⟩ := exists_step_of_run h
    have htakes := takes_of_step hstep
    obtain ⟨before', hbefore', hrest⟩ := htakes.exists_before hbefore ts
    rw [hrest, ← List.append_assoc]
    exact (ih hrun hbefore').trans ((htakes.flushed_perm hbefore).append_right _)

end Yard

/-- A program consists of the instructions that its tokens stand for, all tokens but the closing
parentheses that are ignored. -/
theorem perm_instructions_of_run {p : Program} {ts : List Token} {y : Yard}
    (hrun : Yard.empty.run ts = (y, none)) (hfinish : y.finish = .ok p) :
    p.Perm (Token.instructions none (Token.heeded 0 ts)) := by
  obtain ⟨rfl, _⟩ := Yard.finish_eq_ok.1 hfinish
  exact @Yard.flushed_run _ _ none _ hrun rfl

end Reckon
