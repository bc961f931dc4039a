import Reckon.Proofs.Formula.Reading
import Reckon.Proofs.Program.Operands

/-!
The program of a text with values put in.

A negative value stands in parentheses, so its tokens are one operand to the yard: they are taken
where a name is taken, and leave what waits as it was. The yard goes through the same states in both
texts, apart from the instructions that values are emitted as.

    - x ^ 2            yard  ─────────────▶  x 2 exp uminus
    - ( - 3 ) ^ 2      yard  ─────────────▶  3 uminus 2 exp uminus
-/

namespace Reckon

/-- The instructions of a value inside a formula. -/
def Number.instructions (n : Number) : Program :=
  if n.isSigned then [.operand (.number n.unsigned), .operator .negate]
  else [.operand (.number n.unsigned)]

/-- The instructions that stand for an instruction where names have values. -/
def Instruction.substitute (v : Valuation) : Instruction Operand → Program
  | .operand (.name s) =>
    match v s with
    | some n => n.instructions
    | none => [.operand (.name s)]
  | i => [i]

/-- The program with the instructions of its value in place of each name that has one. -/
def Program.substitute (v : Valuation) (p : Program) : Program := p.flatMap (Instruction.substitute v)

variable {v : Valuation}

/-! ### Programs -/

theorem Instruction.substitute_operand (v : Valuation) (a : Operand) :
    ∃ b, substitute v (.operand a) = [.operand b] ∨
      substitute v (.operand a) = [.operand b, .operator .negate] := by
  cases a with
  | number n => exact ⟨_, .inl rfl⟩
  | name s =>
    rw [substitute]
    cases v s with
    | none => exact ⟨_, .inl rfl⟩
    | some n =>
      refine ⟨.number n.unsigned, ?_⟩
      dsimp only
      rw [Number.instructions]
      cases n.isSigned
      · exact .inl rfl
      · exact .inr rfl

namespace Program

theorem mem_names {p : Program} {s : String} : s ∈ p.names ↔ .operand (.name s) ∈ p := by
  rw [names, List.mem_eraseDups, List.mem_filterMap]
  constructor
  · rintro ⟨i, hi, hname⟩
    cases i with
    | operator op => cases hname
    | operand a =>
      cases a with
      | number n => cases hname
      | name s' =>
        obtain rfl := Option.some.inj hname
        exact hi
  · exact fun h => ⟨_, h, rfl⟩

theorem substitute_append (p q : Program) :
    substitute v (p ++ q) = substitute v p ++ substitute v q :=
  List.flatMap_append

theorem substitute_operators (ops : List Operator) :
    substitute v (ops.map .operator) = ops.map .operator := by
  induction ops with
  | nil => rfl
  | cons op ops ih =>
    rw [List.map_cons, substitute, List.flatMap_cons]
    exact congrArg (.operator op :: ·) ih

theorem substitute_eq_nil {p : Program} : substitute v p = [] ↔ p = [] := by
  cases p with
  | nil => exact Iff.rfl
  | cons i p =>
    refine iff_of_false ?_ nofun
    rw [substitute, List.flatMap_cons]
    cases i with
    | operator op => exact nofun
    | operand a =>
      obtain ⟨b, h | h⟩ := Instruction.substitute_operand v a <;> rw [h] <;> exact nofun

theorem count_substitute (p : Program) : (substitute v p).count .equals = p.count .equals := by
  induction p with
  | nil => rfl
  | cons i p ih =>
    have hone : (Instruction.substitute v i).count .equals = [i].count .equals := by
      cases i with
      | operator op => rfl
      | operand a =>
        obtain ⟨b, h | h⟩ := Instruction.substitute_operand v a <;> rw [h] <;> rfl
    have hsplit : ([i] ++ p).count .equals = [i].count .equals + p.count .equals :=
      List.count_append
    rw [List.singleton_append] at hsplit
    rw [substitute, List.flatMap_cons, List.count_append, hone, hsplit, ← ih, substitute]

/-- As many values are on the stack as before. -/
theorem depthAfter_substitute (d : Nat) (p : Program) :
    depthAfter d (substitute v p) = depthAfter d p := by
  induction p generalizing d with
  | nil => rfl
  | cons i p ih =>
    have hone : depthAfter d (Instruction.substitute v i) = i.depth d := by
      cases i with
      | operator op =>
        show depthAfter d [.operator op] = _
        rw [depthAfter_cons]
        cases Instruction.depth d (.operator op : Instruction Operand) <;> rfl
      | operand a =>
        obtain ⟨b, h | h⟩ := Instruction.substitute_operand v a <;> rw [h] <;> rfl
    rw [substitute, List.flatMap_cons, depthAfter_append, hone, depthAfter_cons]
    exact congrArg _ (funext ih)

theorem checkOperands_substitute {p : Program} (h : checkOperands p = .ok ()) :
    checkOperands (substitute v p) = .ok () := by
  rw [checkOperands_eq_ok, substitute_eq_nil, depthAfter_substitute]
  exact checkOperands_eq_ok.1 h

end Program

/-! ### The yard -/

namespace Yard

/-- The yard with the instructions of values in place of names. -/
def substitute (v : Valuation) (y : Yard) : Yard :=
  { y with emitted := (Program.substitute v y.emitted.reverse).reverse }

variable {y y' : Yard} {token : Token} {ts : List Token}

theorem substitute_emit (ops : List Operator) (y : Yard) :
    (y.emit ops).substitute v = (y.substitute v).emit ops := by
  have hemitted : (Program.substitute v
      (ops.reverse.map Instruction.operator ++ y.emitted).reverse).reverse =
      ops.reverse.map Instruction.operator ++ (Program.substitute v y.emitted.reverse).reverse := by
    rw [List.reverse_append, Program.substitute_append, ← List.map_reverse, List.reverse_reverse,
      Program.substitute_operators, List.reverse_append, List.map_reverse]
  rw [emit, substitute, hemitted]
  rfl

theorem flushed_substitute (y : Yard) :
    (y.substitute v).flushed = Program.substitute v y.flushed := by
  rw [flushed, flushed, Program.substitute_append, Program.substitute_operators, substitute,
    List.reverse_reverse]

theorem close_substitute (y : Yard) : (y.substitute v).close = y.close.substitute v := by
  have hpending : (y.substitute v).pending = y.pending := rfl
  rw [close, close, hpending]
  obtain ⟨ops, rest⟩ := Pending.takeOperators (fun _ => true) y.pending
  dsimp only
  rw [← substitute_emit]
  cases rest with
  | nil => rfl
  | cons waiting rest => cases waiting <;> rfl

theorem shunt_substitute (op : Binary) (y : Yard) :
    (y.substitute v).shunt op = (y.shunt op).substitute v := by
  have hpending : (y.substitute v).pending = y.pending := rfl
  rw [shunt, shunt, hpending]
  obtain ⟨ops, rest⟩ := Pending.takeOperators (fun waiting => op.rank ≤ waiting.rank) y.pending
  dsimp only
  rw [← substitute_emit]
  rfl

/-- The tokens of a value are taken like one operand. -/
theorem run_value (n : Number) (hy : y.afterOperand = false) (rest : List Token) :
    y.run (n.tokens ++ rest) =
      { y with emitted := n.instructions.reverse ++ y.emitted, afterOperand := true }.run rest := by
  obtain ⟨emitted, pending, _, ignored⟩ := y
  obtain rfl : _ = false := hy
  rw [Number.tokens, Number.instructions]
  cases n.isSigned with
  | false => rfl
  | true =>
    -- the sign waits in the group, and goes when the group is closed
    have hclose : close ⟨.operand (.number n.unsigned) :: emitted,
        .operator .negate :: .group :: pending, true, ignored⟩ =
          ⟨.operator .negate :: .operand (.number n.unsigned) :: emitted, pending, true, ignored⟩ :=
      rfl
    have hstep : step ⟨.operand (.number n.unsigned) :: emitted,
        .operator .negate :: .group :: pending, true, ignored⟩ .closing = .ok _ :=
      congrArg Except.ok hclose
    exact run_cons_ok hstep

theorem substitute_operand (a : Operand) (y : Yard) :
    { y with emitted := .operand a :: y.emitted, afterOperand := true }.substitute v =
      { y.substitute v with
        emitted := (Instruction.substitute v (.operand a)).reverse ++ (y.substitute v).emitted
        afterOperand := true } := by
  have hemitted : (Program.substitute v (.operand a :: y.emitted).reverse).reverse =
      (Instruction.substitute v (.operand a)).reverse ++
        (Program.substitute v y.emitted.reverse).reverse := by
    rw [List.reverse_cons, Program.substitute_append, List.reverse_append, Program.substitute]
    simp
  rw [substitute, hemitted]
  rfl

/-- A step on a token is the run on what stands for the token. -/
theorem run_step (h : y.step token = .ok y') (rest : List Token) :
    (y.substitute v).run (token.substitute v ++ rest) = (y'.substitute v).run rest := by
  have hafter : (y.substitute v).afterOperand = y.afterOperand := rfl
  cases token with
  | opening =>
    rw [step] at h
    split at h
    · cases h
    · next hy =>
      obtain rfl := Except.ok.inj h
      exact run_cons_ok (by rw [step, hafter, if_neg hy]; rfl)
  | closing =>
    obtain rfl := Except.ok.inj h
    exact run_cons_ok (by rw [step, close_substitute])
  | operator op =>
    rw [step] at h
    split at h
    · next hy =>
      obtain rfl := Except.ok.inj h
      exact run_cons_ok (by rw [step, hafter, if_pos hy, shunt_substitute])
    · next hy =>
      split at h
      · next hop =>
        obtain rfl := Except.ok.inj h
        exact run_cons_ok (by rw [step, hafter, if_neg hy, if_pos hop]; rfl)
      · cases h
  | operand a =>
    rw [step] at h
    split at h
    · cases h
    · next hy =>
      obtain rfl := Except.ok.inj h
      -- every other token stands for itself; only a name with a value stands for several
      have hfalse : (y.substitute v).afterOperand = false := by simpa [hafter] using hy
      have hkeep : Instruction.substitute v (.operand a) = [.operand a] →
          (y.substitute v).run (.operand a :: rest) =
            ({ y with emitted := .operand a :: y.emitted, afterOperand := true }.substitute v).run
              rest := by
        intro ha
        refine run_cons_ok ?_
        rw [substitute_operand, ha, step, if_neg (by rw [hfalse]; decide)]
        rfl
      cases a with
      | number n => exact hkeep rfl
      | name s =>
        cases hs : v s with
        | none =>
          rw [Token.substitute, hs]
          exact hkeep (by rw [Instruction.substitute, hs])
        | some n =>
          have hn : Instruction.substitute v (.operand (.name s)) = n.instructions := by
            rw [Instruction.substitute, hs]
          rw [substitute_operand, hn, Token.substitute, hs]
          exact run_value n hfalse rest

/-- The yard goes through the same states where names have become values. -/
theorem run_substitute (h : y.run ts = (y', none)) :
    (y.substitute v).run (ts.flatMap (Token.substitute v)) = (y'.substitute v, none) := by
  induction ts generalizing y with
  | nil =>
    rw [run] at h
    obtain ⟨rfl, _⟩ := Prod.mk.inj h
    rfl
  | cons token ts ih =>
    obtain ⟨y₁, hstep, hrun⟩ := exists_step_of_run h
    rw [List.flatMap_cons, run_step hstep, ih hrun]

theorem finish_substitute {p : Program} (h : y.finish = .ok p) :
    (y.substitute v).finish = .ok (Program.substitute v p) := by
  obtain ⟨rfl, hgroup, hequals, hcheck⟩ := finish_eq_ok.1 h
  refine finish_eq_ok.2 ⟨(flushed_substitute y).symm, hgroup, ?_, ?_⟩
  · rw [Program.count_substitute]
    exact hequals
  · exact Program.checkOperands_substitute hcheck

/-! ### Operands in the yard -/

/-- The yard takes no operand behind another one. -/
theorem apart_of_run (h : y.run ts = (y', none)) : Token.Apart ts := by
  induction ts generalizing y with
  | nil => exact .nil
  | cons token ts ih =>
    obtain ⟨y₁, hstep, hrun⟩ := exists_step_of_run h
    refine List.isChain_cons.2 ⟨?_, ih hrun⟩
    rintro b hb x a rfl rfl
    obtain ⟨ts', rfl⟩ := List.head?_eq_some_iff.1 hb
    have hafter : y₁.afterOperand = true := by
      rw [step] at hstep
      split at hstep
      · cases hstep
      · obtain rfl := Except.ok.inj hstep
        rfl
    obtain ⟨y₂, hnext, _⟩ := exists_step_of_run hrun
    rw [step, if_pos hafter] at hnext
    cases hnext

end Yard

/-! ### Parsing -/

variable {limit : Int} {source : String} {p : Program} {n : Nat}

/-- Each token of a text stood at the front at some time. -/
theorem Reads.exists_front {cs : List Char} {ts : List Token} {token : Token}
    (h : Reads limit cs ts) (htoken : token ∈ ts) :
    ∃ cs' written rest, Front.ofText limit cs' = .lexeme token written rest := by
  induction h with
  | done _ => cases htoken
  | expanded _ _ ih => exact ih htoken
  | token hfront _ ih =>
    rcases List.mem_cons.1 htoken with rfl | htoken
    · exact ⟨_, _, _, hfront⟩
    · exact ih htoken

/-- The operands of a program were read off the front of a text. -/
theorem exists_front_of_parse {a : Operand} (h : parse limit source = ⟨.ok p, n⟩)
    (ha : .operand a ∈ p) :
    ∃ cs written rest, Front.ofText limit cs = .lexeme (.operand a) written rest := by
  obtain ⟨ts, y, hreads, hrun, hfinish, _⟩ := parse_eq_iff.1 h
  have hmem : a ∈ ts.filterMap Token.operand? :=
    operands_of_run hrun hfinish ▸ Program.mem_operands.2 ha
  obtain ⟨token, htoken, heq⟩ := List.mem_filterMap.1 hmem
  obtain rfl := Token.operand?_eq_some.1 heq
  exact hreads.exists_front htoken

theorem isName_of_parse {s : String} (h : parse limit source = ⟨.ok p, n⟩) (hs : s ∈ p.names) :
    IsName s.toList := by
  obtain ⟨cs, written, rest, hfront⟩ := exists_front_of_parse h (Program.mem_names.1 hs)
  exact Front.isName_of_name hfront

theorem isWritable_of_parse (h : parse limit source = ⟨.ok p, n⟩) : p.isWritable := by
  refine List.all_eq_true.2 fun a ha => ?_
  obtain ⟨i, hi, rfl⟩ := List.mem_map.1 ha
  cases i with
  | operator op => rfl
  | operand a =>
    obtain ⟨cs, written, rest, hfront⟩ := exists_front_of_parse h hi
    rcases Front.lexeme_cases hfront with hspelled | ⟨numeral, w, hn, hvalue, heq, _, _⟩ | ⟨_, heq, _⟩
    · exact absurd rfl (Token.ne_operand_of_spelled? hspelled _)
    · obtain rfl := Token.operand.inj heq
      exact Numeral.isWritable_of_value hn hvalue
    · obtain rfl := Token.operand.inj heq
      rfl

/-- A text with values put in is parsed to the program with the values in place of the names, and as
many closing parentheses are ignored. -/
theorem parse_replaceWords (hv : v.Legible) (hglued : ¬ Glued limit source.toList)
    (h : parse limit source = ⟨.ok p, n⟩) :
    parse limit (String.ofList (Substitution.replaceWords (Substitution.valueOf v) false
      source.toList)) = ⟨.ok (p.substitute v), n⟩ := by
  obtain ⟨ts, y, hreads, hrun, hfinish, rfl⟩ := parse_eq_iff.1 h
  have hapart := Yard.apart_of_run hrun
  have hvalues := Substitution.reads_replaceWords hv hreads hglued hapart
  refine parse_eq_iff.2 ⟨_, _, ?_, Yard.run_substitute hrun, Yard.finish_substitute hfinish, rfl⟩
  rw [String.toList_ofList]
  exact hvalues

end Reckon
