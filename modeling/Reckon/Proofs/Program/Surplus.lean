import Reckon.Proofs.Program.Conservation

/-!
No operand is left over.

An operand adds one value to those of a program, a binary operator takes one away, a negation none. In
the yard an operand is taken only where none stands before it, and only a binary operator comes
between the two; so over what was emitted and what waits the sum is never more than one, and it is one
only behind an operand. Parentheses never raise it, whether they are closed in place, closed too early
or ignored. A program that finds all its operands leaves as many values as the sum says, and at least
one: so it leaves one.

    tokens          -    2    )    *    (    x    )    +
    sum             0    1    1    0    0    1    1    0
    after operand   no   yes  yes  no   no   yes  yes  no
-/

namespace Reckon

/-! ### The sum of a program -/

/-- What an instruction adds to the number of values. -/
def Instruction.surplus {α : Type} : Instruction α → Int
  | .operand _ => 1
  | .operator op => 1 - op.arity

/-- What a program adds to the number of values, if it finds its operands. -/
def Program.surplus (p : Program) : Int := p.foldr (fun i sum => i.surplus + sum) 0

namespace Program

theorem surplus_perm {p q : Program} (h : p.Perm q) : p.surplus = q.surplus :=
  h.foldr_eq' (fun i _ j _ _ => Int.add_left_comm j.surplus i.surplus _) 0

theorem surplus_append (p q : Program) : surplus (p ++ q) = p.surplus + q.surplus := by
  induction p with
  | nil => exact (Int.zero_add _).symm
  | cons i p ih =>
    show i.surplus + surplus (p ++ q) = i.surplus + surplus p + surplus q
    rw [ih, Int.add_assoc]

/-- Counting adds the sum of the program. -/
theorem depthAfter_eq_surplus {d d' : Nat} {p : Program} (h : depthAfter d p = .ok d') :
    (d' : Int) = d + p.surplus := by
  induction p generalizing d with
  | nil =>
    obtain rfl := Except.ok.inj h
    exact (Int.add_zero _).symm
  | cons i p ih =>
    rw [← List.singleton_append, depthAfter_append_eq_ok] at h
    obtain ⟨e, hi, hp⟩ := h
    have hstep : (e : Int) = d + i.surplus := by
      cases i with
      | operand a =>
        obtain rfl : d + 1 = e := Except.ok.inj hi
        rfl
      | operator op =>
        obtain ⟨harity, rfl⟩ := depthAfter_operator.1 hi
        show ((d - op.arity + 1 : Nat) : Int) = d + (1 - op.arity)
        omega
    rw [ih hp, hstep, Int.add_assoc]
    rfl

/-- A program that adds one value at most lacks an operand or leaves exactly one value. -/
theorem missing_or_one {p : Program} (hne : p ≠ []) (h : p.surplus ≤ 1) :
    (∃ op, depthAfter 0 p = .error (.missingOperand op)) ∨ depthAfter 0 p = .ok 1 := by
  cases hdepth : depthAfter 0 p with
  | error fault =>
    obtain ⟨_, op, _, _, _, _, _, rfl⟩ := exists_of_depthAfter_error hdepth
    exact .inl ⟨op, rfl⟩
  | ok d =>
    have hpos := depthAfter_pos hne hdepth
    have hsum := depthAfter_eq_surplus hdepth
    obtain rfl : d = 1 := by omega
    exact .inr rfl

/-- The check never finds too many values in such a program. -/
theorem checkOperands_ne_leftover {p : Program} (h : p.surplus ≤ 1) (n : Nat) :
    checkOperands p ≠ .error (.leftover n) := by
  intro hcheck
  by_cases hne : p = []
  · subst hne
    cases hcheck
  · rw [checkOperands_of_ne_nil hne] at hcheck
    obtain ⟨op, hdepth⟩ | hdepth := missing_or_one hne h
    · rw [hdepth] at hcheck
      cases hcheck
    · rw [hdepth] at hcheck
      cases hcheck

end Program

/-! ### The sum in the yard -/

namespace Yard

variable {y y' : Yard} {token : Token} {ts : List Token}

/-- One value at most, and that only behind an operand. -/
def Spare (y : Yard) : Prop := y.flushed.surplus ≤ if y.afterOperand then 1 else 0

theorem Takes.surplus_flushed {before : Option Token} (h : y.Takes token y')
    (hbefore : y.afterOperand = before.any Token.endsOperand) :
    y'.flushed.surplus = y.flushed.surplus +
      Program.surplus (token.instruction? before).toList := by
  rw [Program.surplus_perm (h.flushed_perm hbefore), Program.surplus_append]

/-- Every token leaves one value at most. -/
theorem Takes.spare (h : y.Takes token y') (hy : y.Spare) : y'.Spare := by
  obtain ⟨before, hbefore⟩ : ∃ before : Option Token,
      y.afterOperand = before.any Token.endsOperand := by
    cases y.afterOperand with
    | true => exact ⟨some .closing, rfl⟩
    | false => exact ⟨none, rfl⟩
  have hsum := h.surplus_flushed hbefore
  have hnothing : Program.surplus [] = 0 := rfl
  rw [Spare] at hy ⊢
  rw [hsum]
  cases h with
  | opening hafter =>
    rw [Token.instruction?, Option.toList_none, hnothing, Int.add_zero]
    exact hy
  | operand a hafter =>
    -- none was there before
    rw [hafter] at hy
    exact Int.add_le_add_right hy 1
  | binary op hafter =>
    -- the operator takes away the one that was
    have hop : Token.instruction? before (.operator op) = some (.operator (.binary op)) :=
      Token.instruction?_binary (hbefore ▸ hafter)
    rw [hafter] at hy
    rw [hop]
    exact Int.add_le_add_right hy (-1)
  | negate hafter =>
    have hop : Token.instruction? before (.operator .subtract) = some (.operator .negate) :=
      Token.instruction?_negate (hbefore ▸ hafter)
    rw [hop]
    exact (Int.add_zero _).symm ▸ hy
  | close hops =>
    rw [Token.instruction?, Option.toList_none, hnothing, Int.add_zero]
    show y.flushed.surplus ≤ 1
    refine Int.le_trans hy ?_
    split <;> decide
  | ignore hops =>
    rw [Token.instruction?, Option.toList_none, hnothing, Int.add_zero]
    exact hy

theorem spare_run (h : y.run ts = (y', none)) (hy : y.Spare) : y'.Spare :=
  keeps_of_run (fun _ _ htakes => htakes.spare) h hy

/-! ### Operands side by side -/

theorem afterOperand_closings (hts : ∀ t ∈ ts, t = .closing) (h : y.run ts = (y', none))
    (hy : y.afterOperand = true) : y'.afterOperand = true := by
  refine keeps_of_run (motive := fun y => y.afterOperand = true) ?_ h hy
  intro y y' token htoken htakes hy
  obtain rfl := hts token htoken
  cases htakes with
  | close _ => rfl
  | ignore _ => exact hy

/-- An operand or a group is not taken behind an operand with nothing but closing parentheses between
them. -/
theorem not_run_of_juxtaposed {before between after : List Token} {a : Operand} {token : Token}
    (hbetween : ∀ t ∈ between, t = .closing) (htoken : token = .opening ∨ ∃ b, token = .operand b) :
    y.run (before ++ .operand a :: (between ++ token :: after)) ≠ (y', none) := by
  intro h
  obtain ⟨y₁, _, h₁⟩ := exists_run_of_append h
  obtain ⟨y₂, hoperand, h₂⟩ := exists_step_of_run h₁
  obtain ⟨y₃, hclosings, h₃⟩ := exists_run_of_append h₂
  obtain ⟨y₄, hstep, _⟩ := exists_step_of_run h₃
  have hy₂ : y₂.afterOperand = true := by
    cases takes_of_step hoperand with
    | operand a _ => rfl
  have hy₃ := afterOperand_closings hbetween hclosings hy₂
  rcases htoken with rfl | ⟨b, rfl⟩
  · rw [step, if_pos hy₃] at hstep
    cases hstep
  · rw [step, if_pos hy₃] at hstep
    cases hstep

end Yard

theorem Parsing.exists_isAdjacency {l : Lexing} (h : ∀ y, Yard.empty.run l.tokens ≠ (y, none)) :
    ∃ e, (ofLexing l).result = .error e ∧ e.IsAdjacency := by
  rw [ofLexing]
  cases hrun : Yard.empty.run l.tokens with
  | mk y error =>
    cases error with
    | none => exact absurd hrun (h y)
    | some e => exact ⟨e, rfl, isAdjacency_of_run hrun⟩

/-- No text is refused because values are left over. Where all tokens are taken and no group is open,
a program that is not empty lacks the operand of some operator or leaves exactly one value; operands
side by side, with closing parentheses between them or not, are refused before that. -/
theorem parse_never_leftover (limit : Int) (source : String) :
    let lexing := Lexing.ofText limit source.toList
    (∀ n, (parse limit source).result ≠ .error (.malformed (.leftover n))) ∧
    (∀ y, Yard.empty.run lexing.tokens = (y, none) → y.pending.count .group = 0 →
      y.flushed ≠ [] →
      (∃ op, depthAfter 0 y.flushed = .error (.missingOperand op)) ∨
        depthAfter 0 y.flushed = .ok 1) ∧
    ∀ (before between after : List Token) (a : Operand) (token : Token),
      lexing.tokens = before ++ .operand a :: (between ++ token :: after) →
      (∀ t ∈ between, t = .closing) → (token = .opening ∨ ∃ b, token = .operand b) →
      ∃ e, (parse limit source).result = .error e ∧ e.IsAdjacency := by
  intro lexing
  -- the invariant: operands are at most one ahead of what the operators take
  have hempty : Yard.empty.Spare := Int.le_refl 0
  have hspare {y : Yard} (hrun : Yard.empty.run lexing.tokens = (y, none)) :
      y.flushed.surplus ≤ 1 := by
    refine Int.le_trans (Yard.spare_run hrun hempty) ?_
    split <;> decide
  refine ⟨fun n hresult => ?_, fun y hrun _ hne => Program.missing_or_one hne (hspare hrun),
    fun before between after a token htokens hbetween htoken => ?_⟩
  · have hlexical (e : LexicalError) : ParseError.malformed (.leftover n) ≠ .lexical e := by
      intro h
      cases h
    have hadjacency : ¬ (ParseError.malformed (.leftover n)).IsAdjacency := by
      intro h
      cases h
    obtain ⟨_, y, hrun, hfinish⟩ :=
      (Parsing.ofLexing_eq_error (l := lexing) hlexical hadjacency).1 hresult
    exact Program.checkOperands_ne_leftover (hspare hrun) n (Yard.checkOperands_of_finish hfinish)
  · refine Parsing.exists_isAdjacency fun y => ?_
    show Yard.empty.run lexing.tokens ≠ (y, none)
    rw [htokens]
    exact Yard.not_run_of_juxtaposed hbetween htoken

set_option maxRecDepth 100000 in
/-- A difference that lacks its left operand behind an empty group, and two numbers with a parenthesis
between them. -/
theorem parse_never_leftover_hole :
    let lexing := Lexing.ofText 64 "() - 3) * 4".toList
    let y : Yard := (Yard.empty.run lexing.tokens).1
    Yard.empty.run lexing.tokens = (y, none) ∧ y.pending.count .group = 0 ∧ y.flushed ≠ [] ∧
      (∃ op, depthAfter 0 y.flushed = .error (.missingOperand op)) ∧
      (parse 64 "() - 3) * 4").result = .error (.malformed (.missingOperand (.binary .subtract))) ∧
      (Lexing.ofText 64 "2) 3".toList).tokens =
        [] ++ .operand (.number (.int 2)) ::
          ([.closing] ++ .operand (.number (.int 3)) :: []) ∧
      (∀ t ∈ [Token.closing], t = .closing) ∧
      ∃ e, (parse 64 "2) 3").result = .error e ∧ e.IsAdjacency := by
  intro lexing y
  have htokens : lexing.tokens = [.opening, .closing, .operator .subtract,
      .operand (.number (.int 3)), .closing, .operator .multiply, .operand (.number (.int 4))] := by
    decide +kernel
  have htaken : (Yard.empty.run lexing.tokens).2 = none := by
    rw [htokens]
    rfl
  have hrun : Yard.empty.run lexing.tokens = (y, none) := Prod.ext rfl htaken
  have hgroup : y.pending.count .group = 0 := by
    show (Yard.empty.run lexing.tokens).1.pending.count .group = 0
    rw [htokens]
    decide
  have hne : y.flushed ≠ [] := by
    show (Yard.empty.run lexing.tokens).1.flushed ≠ []
    rw [htokens]
    decide
  have hdepth : depthAfter 0 y.flushed ≠ .ok 1 := by
    show depthAfter 0 (Yard.empty.run lexing.tokens).1.flushed ≠ .ok 1
    rw [htokens]
    decide
  have hpair : (Lexing.ofText 64 "2) 3".toList).tokens =
      [] ++ .operand (.number (.int 2)) ::
        ([.closing] ++ .operand (.number (.int 3)) :: []) := by decide +kernel
  have hclosing : ∀ t ∈ [Token.closing], t = .closing := List.forall_mem_singleton.2 rfl
  obtain ⟨_, hends, _⟩ := parse_never_leftover 64 "() - 3) * 4"
  obtain ⟨_, _, hpairs⟩ := parse_never_leftover 64 "2) 3"
  exact ⟨hrun, hgroup, hne, (hends y hrun hgroup hne).resolve_right hdepth, by decide +kernel, hpair,
    hclosing, hpairs [] [.closing] [] _ _ hpair hclosing (.inr ⟨_, rfl⟩)⟩

end Reckon
