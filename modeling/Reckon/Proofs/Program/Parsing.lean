import Reckon.Proofs.Program.Waiting
import Reckon.Proofs.Token.Lexing

/-!
The parser accepts the precedence grammar and nothing else.

For tokens that close only what they open the outcome has three kinds: the listing of the derivation
tree where the tokens derive one and there is at most one equals sign; the empty program for groups
nested around nothing; an error of the parser's own for all other tokens.

    tokens ──run──▶ yard ──finish──▶ program          draft of the tokens ──count──▶ phrase
-/

namespace Reckon

namespace Yard

/-- The program when the operators that still wait have gone. -/
def flushed (y : Yard) : Program :=
  y.emitted.reverse ++ (y.pending.filterMap Pending.operator?).map .operator

theorem finish_eq (y : Yard) :
    y.finish =
      if 0 < y.pending.count .group then .error (.unclosed (y.pending.count .group))
      else if 1 < y.flushed.count .equals then .error .severalEquals
      else
        match checkOperands y.flushed with
        | .error fault => .error (.malformed fault)
        | .ok () => .ok y.flushed := by
  have hprogram : y.flushed = (y.emit (y.pending.filterMap Pending.operator?)).emitted.reverse := by
    simp [emit, flushed]
  rw [hprogram]
  rfl

/-- The end of the tokens is accepted exactly where nothing is wrong with groups, equals signs and
operands. -/
theorem finish_eq_ok {y : Yard} {p : Program} :
    y.finish = .ok p ↔ p = y.flushed ∧ y.pending.count .group = 0 ∧ p.count .equals ≤ 1 ∧
      checkOperands p = .ok () := by
  rw [finish_eq]
  by_cases hgroup : 0 < y.pending.count .group
  · rw [if_pos hgroup]
    simp only [reduceCtorEq, false_iff]
    rintro ⟨_, hzero, _⟩
    omega
  rw [if_neg hgroup]
  by_cases hequals : 1 < y.flushed.count .equals
  · rw [if_pos hequals]
    simp only [reduceCtorEq, false_iff]
    rintro ⟨rfl, _, hone, _⟩
    omega
  rw [if_neg hequals]
  cases hcheck : checkOperands y.flushed with
  | error fault =>
    simp only [reduceCtorEq, false_iff]
    rintro ⟨rfl, _, _, hok⟩
    rw [hcheck] at hok
    cases hok
  | ok u =>
    constructor
    · rintro h
      obtain rfl := Except.ok.inj h
      exact ⟨rfl, by omega, by omega, hcheck⟩
    · rintro ⟨rfl, _⟩
      rfl

/-- A fault that is found at the end of the tokens is one of the program. -/
theorem checkOperands_of_finish {y : Yard} {fault : Fault} (h : y.finish = .error (.malformed fault)) :
    checkOperands y.flushed = .error fault := by
  rw [finish_eq] at h
  split at h
  · cases h
  · split at h
    · cases h
    · split at h
      · next hcheck =>
        obtain rfl := ParseError.malformed.inj (Except.error.inj h)
        exact hcheck
      · cases h

/-- A yard in which no group is open holds a draft of all tokens. -/
theorem Holds.exists_draft {y : Yard} {ts : List Token} (h : y.Holds ts)
    (hgroup : y.pending.count .group = 0) : ∃ b g, Draft b 0 g y.flushed ts := by
  have hwrap := h.inHand.wrap (fun _ => true) (fun _ => rfl) (Nat.zero_le 4)
  have happ := Pending.takeOperators_append (fun _ => true) y.pending
  have hhead : ∀ op rest, (Pending.takeOperators (fun _ => true) y.pending).2 =
      .operator op :: rest → true = false := fun _ _ => Pending.takeOperators_head (fun _ => true)
  rw [flushed]
  generalize Pending.takeOperators (fun _ => true) y.pending = taken at hwrap happ hhead
  obtain ⟨ops, rest⟩ := taken
  match rest, hwrap, happ, hhead with
  | .operator op :: rest, _, _, hhead => exact absurd (hhead op rest rfl) (by simp)
  | .group :: w, _, happ, _ =>
    rw [← happ] at hgroup
    simp at hgroup
  | [], hwrap, happ, _ =>
    obtain ⟨p₁, ts₁, g, p₂, ts₂, hs, hd, hp, hts⟩ := hwrap
    cases hs with
    | bottom =>
      refine ⟨y.afterOperand, g, ?_⟩
      have hops : y.pending.filterMap Pending.operator? = ops := by
        rw [← happ]
        simp [List.filterMap_map, Function.comp_def, Pending.operator?]
      rw [hops, ← hp, ← hts]
      exact hd

end Yard

theorem Draft.exists_run {b : Bool} {g : Nat} {p : Program} {ts : List Token} (h : Draft b 0 g p ts) :
    ∃ y, Yard.empty.run ts = (y, none) ∧ y.flushed = p ∧ y.pending.count .group = 0 ∧
      y.ignored = 0 := by
  obtain ⟨q, ops, rfl, _, hrun⟩ := Yard.run_draft h Yard.empty rfl trivial []
  rw [List.append_nil] at hrun
  refine ⟨_, hrun, ?_, ?_, rfl⟩
  · simp [Yard.passed, Yard.flushed, Yard.empty, List.filterMap_map, Function.comp_def,
      Pending.operator?]
  · simp [Yard.passed, Yard.empty, List.count_eq_zero]

/-- The errors that a token meets in the yard: it does not go with the token before it. -/
inductive ParseError.IsAdjacency : ParseError → Prop
  | group : IsAdjacency .groupAfterOperand
  | operand (a : Operand) : IsAdjacency (.operandAfterOperand a)
  | operator (op : Binary) : IsAdjacency (.operatorWithoutOperand op)

namespace Parsing

/-- A text is accepted where it is read to its end, the yard takes all tokens, and nothing is wrong
with what it holds then. -/
theorem ofLexing_result_eq_ok {l : Lexing} {p : Program} : (ofLexing l).result = .ok p ↔
    l.error = none ∧ ∃ y, Yard.empty.run l.tokens = (y, none) ∧ y.finish = .ok p := by
  obtain ⟨ts, lexical⟩ := l
  rw [ofLexing]
  constructor
  · intro h
    cases hrun : Yard.empty.run ts with
    | mk y error =>
      rw [hrun] at h
      cases error with
      | some e => cases h
      | none =>
        cases lexical with
        | some e => cases h
        | none => exact ⟨rfl, y, rfl, h⟩
  · rintro ⟨rfl, y, hrun, hfinish⟩
    rw [hrun]
    exact hfinish

theorem ofLexing_draft {b : Bool} {g : Nat} {p : Program} {ts : List Token} (h : Draft b 0 g p ts)
    (hequals : p.count .equals ≤ 1) (hcheck : checkOperands p = .ok ()) :
    ofLexing ⟨ts, none⟩ = ⟨.ok p, 0⟩ := by
  obtain ⟨y, hrun, hflushed, hgroup, hignored⟩ := h.exists_run
  have hfinish : y.finish = .ok p :=
    Yard.finish_eq_ok.2 ⟨hflushed.symm, hgroup, hequals, hcheck⟩
  rw [ofLexing, hrun]
  dsimp only
  rw [hfinish, hignored]

/-- A list of tokens that close only what they open is accepted exactly where it has a draft that
lists one value, or nothing, and at most one equals sign. -/
theorem ofLexing_eq_ok {ts : List Token} {p : Program} (hm : Token.Matched ts) :
    (ofLexing ⟨ts, none⟩).result = .ok p ↔
      (∃ b g, Draft b 0 g p ts) ∧ p.count .equals ≤ 1 ∧ checkOperands p = .ok () := by
  constructor
  · intro h
    obtain ⟨_, y, hrun, hfinish⟩ := ofLexing_result_eq_ok.1 h
    have hempty : Yard.empty.Holds [] := .before .bottom
    have hholds : y.Holds ts := hempty.run hm hrun
    obtain ⟨rfl, hgroup, hequals, hcheck⟩ := Yard.finish_eq_ok.1 hfinish
    exact ⟨hholds.exists_draft hgroup, hequals, hcheck⟩
  · rintro ⟨⟨b, g, hd⟩, hequals, hcheck⟩
    rw [ofLexing_draft hd hequals hcheck]

theorem isAdjacency_of_step {y : Yard} {token : Token} {e : ParseError}
    (h : y.step token = .error e) : e.IsAdjacency := by
  cases token with
  | closing => cases h
  | opening =>
    rw [Yard.step] at h
    split at h
    · obtain rfl := Except.error.inj h
      exact .group
    · cases h
  | operand a =>
    rw [Yard.step] at h
    split at h
    · obtain rfl := Except.error.inj h
      exact .operand a
    · cases h
  | operator op =>
    rw [Yard.step] at h
    split at h
    · cases h
    · split at h
      · cases h
      · obtain rfl := Except.error.inj h
        exact .operator op

/-- What the yard refuses does not go with the token before it. -/
theorem isAdjacency_of_run {y y' : Yard} {ts : List Token} {e : ParseError}
    (h : y.run ts = (y', some e)) : e.IsAdjacency := by
  induction ts generalizing y with
  | nil => cases h
  | cons token ts ih =>
    rw [Yard.run] at h
    cases hstep : y.step token with
    | ok y₁ =>
      rw [hstep] at h
      exact ih h
    | error e₁ =>
      rw [hstep] at h
      obtain rfl : e₁ = e := Option.some.inj (Prod.mk.inj h).2
      exact isAdjacency_of_step hstep

theorem ne_lexical_of_run {y y' : Yard} {ts : List Token} {e : ParseError}
    (h : y.run ts = (y', some e)) (l : LexicalError) : e ≠ .lexical l := by
  rintro rfl
  cases isAdjacency_of_run h

theorem ne_lexical_of_finish {y : Yard} {e : ParseError} (h : y.finish = .error e)
    (l : LexicalError) : e ≠ .lexical l := by
  rintro rfl
  rw [Yard.finish_eq] at h
  split at h
  · cases h
  · split at h
    · cases h
    · split at h <;> cases h

/-- A lexical error is the one that reading the text ended in. -/
theorem error_of_lexical {l : Lexing} {e : LexicalError}
    (h : (ofLexing l).result = .error (.lexical e)) : l.error = some e := by
  obtain ⟨ts, lexical⟩ := l
  rw [ofLexing] at h
  cases hrun : Yard.empty.run ts with
  | mk y o =>
    rw [hrun] at h
    cases o with
    | some e' => exact absurd (Except.error.inj h) (ne_lexical_of_run hrun e)
    | none =>
      cases lexical with
      | none => exact absurd rfl (ne_lexical_of_finish h e)
      | some e' =>
        obtain rfl := ParseError.lexical.inj (Except.error.inj h)
        rfl

/-- All other errors come up at the end of the tokens. -/
theorem ofLexing_eq_error {l : Lexing} {e : ParseError} (hlexical : ∀ e', e ≠ .lexical e')
    (hadjacency : ¬ e.IsAdjacency) : (ofLexing l).result = .error e ↔
      l.error = none ∧ ∃ y, Yard.empty.run l.tokens = (y, none) ∧ y.finish = .error e := by
  obtain ⟨ts, lexical⟩ := l
  rw [ofLexing]
  constructor
  · intro h
    cases hrun : Yard.empty.run ts with
    | mk y o =>
      rw [hrun] at h
      cases o with
      | some e' =>
        obtain rfl := Except.error.inj h
        exact absurd (isAdjacency_of_run hrun) hadjacency
      | none =>
        cases lexical with
        | some e' =>
          obtain rfl := Except.error.inj h
          exact absurd rfl (hlexical e')
        | none => exact ⟨rfl, y, rfl, h⟩
  · rintro ⟨rfl, y, hrun, hfinish⟩
    rw [hrun]
    exact hfinish

theorem ne_lexical {ts : List Token} {e : ParseError}
    (h : (ofLexing ⟨ts, none⟩).result = .error e) (l : LexicalError) : e ≠ .lexical l := by
  rintro rfl
  cases error_of_lexical h

end Parsing

/-- A text is parsed where it is read to its end and the yard accepts the tokens. -/
theorem parse_eq_iff {limit : Int} {source : String} {p : Program} {n : Nat} :
    parse limit source = ⟨.ok p, n⟩ ↔
      ∃ ts y, Reads limit source.toList ts ∧ Yard.empty.run ts = (y, none) ∧ y.finish = .ok p ∧
        y.ignored = n := by
  constructor
  · intro h
    have hresult : (parse limit source).result = .ok p := by rw [h]
    have hignored : (parse limit source).ignored = n := by rw [h]
    obtain ⟨herror, y, hrun, hfinish⟩ := Parsing.ofLexing_result_eq_ok.1 hresult
    have hlexing : Lexing.ofText limit source.toList = ⟨_, none⟩ :=
      congrArg (Lexing.mk _) herror
    refine ⟨_, y, Lexing.ofCursor_eq_iff_reads.1 hlexing, hrun, hfinish, ?_⟩
    rw [← hignored, parse, Parsing.ofLexing, hrun]
  · rintro ⟨ts, y, hreads, hrun, hfinish, rfl⟩
    have hlexing : Lexing.ofText limit source.toList = ⟨ts, none⟩ :=
      Lexing.ofCursor_eq_iff_reads.2 hreads
    rw [parse, hlexing, Parsing.ofLexing, hrun]
    dsimp only
    rw [hfinish]

/-- For tokens that close only what they open: the program is the listing of the derivation tree where
the tokens derive one with at most one equals sign, it is empty for groups nested around nothing, and
for all other tokens there is an error that is not a lexical one. -/
theorem parse_iff_phrase {limit : Int} {source : String} {ts : List Token}
    (h : tokenize limit source = .ok ts) (hm : Token.Matched ts) :
    (∀ p, p ≠ [] → ((parse limit source).result = .ok p ↔
      ∃ t, Phrase 0 t ts ∧ ts.count .equals ≤ 1 ∧ p = t.postorder)) ∧
    ((parse limit source).result = .ok [] ↔
      ∃ n, ts = List.replicate n .opening ++ List.replicate n .closing) ∧
    ((¬ ∃ t, Phrase 0 t ts ∧ ts.count .equals ≤ 1) →
      (¬ ∃ n, ts = List.replicate n .opening ++ List.replicate n .closing) →
      ∃ e, (parse limit source).result = .error e ∧ ∀ l, e ≠ .lexical l) := by
  have hphrase : ∀ p, p ≠ [] → ((parse limit source).result = .ok p ↔
      ∃ t, Phrase 0 t ts ∧ ts.count .equals ≤ 1 ∧ p = t.postorder) := by
    intro p hp
    rw [parse, tokenize_eq_ok.1 h, Parsing.ofLexing_eq_ok hm]
    constructor
    -- the tokens always have a draft: the operands count its gaps, and one without gaps is a phrase
    · rintro ⟨⟨b, g, hd⟩, hequals, hcheck⟩
      rw [hd.count_equals] at hequals
      obtain ⟨t, ht, rfl⟩ := hd.exists_phrase (hd.gaps_eq_zero hp hcheck) hequals
      exact ⟨t, ht, hequals, rfl⟩
    · rintro ⟨t, ht, hequals, rfl⟩
      have hd := Draft.of_phrase ht
      refine ⟨⟨true, 0, hd⟩, ?_, checkOperands_eq_ok.2 (.inr (depthAfter_postorder 0 t))⟩
      rw [hd.count_equals]
      exact hequals
  have hnest : (parse limit source).result = .ok [] ↔
      ∃ n, ts = List.replicate n .opening ++ List.replicate n .closing := by
    rw [parse, tokenize_eq_ok.1 h, Parsing.ofLexing_eq_ok hm]
    constructor
    · rintro ⟨⟨b, g, hd⟩, _, _⟩
      exact hd.nest_of_nil rfl
    · rintro ⟨n, rfl⟩
      obtain ⟨b, hd⟩ := Draft.of_nest n
      exact ⟨⟨b, 1, hd⟩, Nat.zero_le 1, checkOperands_eq_ok.2 (.inl rfl)⟩
  refine ⟨hphrase, hnest, fun hno hnone => ?_⟩
  cases hresult : (parse limit source).result with
  | error e =>
    refine ⟨e, rfl, fun l => ?_⟩
    rw [parse, tokenize_eq_ok.1 h] at hresult
    exact Parsing.ne_lexical hresult l
  | ok p =>
    by_cases hp : p = []
    · subst hp
      exact absurd (hnest.1 hresult) hnone
    · obtain ⟨t, ht, hequals, _⟩ := (hphrase p hp).1 hresult
      exact absurd ⟨t, ht, hequals⟩ hno

set_option maxRecDepth 100000 in
/-- A negated group binds tighter than the power behind it. -/
theorem parse_iff_phrase_negated_group :
    tokenize 64 "-(x+2)^y" = .ok
      [.operator .subtract, .opening, .operand (.name "x"), .operator .add,
        .operand (.number (.int 2)), .closing, .operator .power, .operand (.name "y")] ∧
    Token.Matched
      [.operator .subtract, .opening, .operand (.name "x"), .operator .add,
        .operand (.number (.int 2)), .closing, .operator .power, .operand (.name "y")] ∧
    (parse 64 "-(x+2)^y").result = .ok
      [.operand (.name "x"), .operand (.number (.int 2)), .operator (.binary .add),
        .operator .negate, .operand (.name "y"), .operator (.binary .power)] := by
  have htokens : tokenize 64 "-(x+2)^y" = .ok
      [.operator .subtract, .opening, .operand (.name "x"), .operator .add,
        .operand (.number (.int 2)), .closing, .operator .power, .operand (.name "y")] := by
    decide +kernel
  have hmatched : Token.Matched
      [.operator .subtract, .opening, .operand (.name "x"), .operator .add,
        .operand (.number (.int 2)), .closing, .operator .power, .operand (.name "y")] := by
    decide
  refine ⟨htokens, hmatched, ?_⟩
  have hsum : Phrase 0 _ [.operand (.name "x"), .operator .add, .operand (.number (.int 2))] :=
    .loosen (@Phrase.chain 1 .add _ _ _ _ rfl (by decide)
      (.loosen (.loosen (.loosen (.operand _)))) (.loosen (.loosen (.operand _))))
  have hpower : Phrase 3 _ _ :=
    @Phrase.chain 3 .power _ _ _ _ rfl (by decide) (.loosen (.negate (.group hsum)))
      (.operand (.name "y"))
  exact ((parse_iff_phrase htokens hmatched).1 _ (by simp)).2
    ⟨_, .loosen (.loosen (.loosen hpower)), by decide, rfl⟩

end Reckon
