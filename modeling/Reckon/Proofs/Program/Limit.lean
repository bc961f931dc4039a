import Reckon.Proofs.Program.Parsing
import Reckon.Proofs.Token.Limit

/-!
Raising the nesting limit.

Reading is the only part of parsing that knows the limit. A text that was read to its end or to an
error of another kind is read to the same under a higher limit, and then parsed to the same. Where a
group nested too deep, the yard may have refused one of the tokens before it: it refuses that token
still, because it takes the tokens as they are read.
-/

namespace Reckon

/-- A run that was refused is refused at the same token, whatever comes behind. -/
theorem Yard.run_append_of_error {y y' : Yard} {ts : List Token} {e : ParseError}
    (h : y.run ts = (y', some e)) (us : List Token) : y.run (ts ++ us) = (y', some e) := by
  induction ts generalizing y with
  | nil => cases h
  | cons token ts ih =>
    rw [run] at h
    rw [List.cons_append, run]
    cases hstep : y.step token with
    | error e₁ =>
      rw [hstep] at h
      exact h
    | ok y₁ =>
      rw [hstep] at h
      exact ih h

/-- What is parsed is the same under a higher limit, unless it ends where a group nested too deep. -/
theorem Parsing.ofLexing_raise {l l' : Lexing} (h : l.Raised l')
    (hne : ∀ e, (ofLexing l).result = .error (.lexical e) → ¬ e.isTooDeep) :
    ofLexing l' = ofLexing l := by
  cases h with
  | same => rfl
  | @tooDeep e hdeep ts us error =>
    cases hrun : Yard.empty.run ts with
    | mk y refused =>
      cases refused with
      | some e' => rw [ofLexing, ofLexing, hrun, Yard.run_append_of_error hrun us]
      | none =>
        rw [ofLexing, hrun] at hne
        exact absurd hdeep (hne e rfl)

/-- A higher limit changes the outcome of reading or of parsing a text only where a group nested too
deep; and no group does where the limit is no less than the number of opening braces and of opening
brackets. -/
theorem tokenize_parse_raise (source : String) :
    (∀ limit limit', limit ≤ limit' →
      ((∀ e, tokenize limit source = .error e → ¬ e.isTooDeep) →
        tokenize limit' source = tokenize limit source) ∧
      ((∀ e, (parse limit source).result = .error (.lexical e) → ¬ e.isTooDeep) →
        parse limit' source = parse limit source)) ∧
    ∀ limit : Int, source.toList.count '\x7b' ≤ limit → source.toList.count '[' ≤ limit →
      (∀ e, tokenize limit source = .error e → ¬ e.isTooDeep) ∧
      ∀ e, (parse limit source).result = .error (.lexical e) → ¬ e.isTooDeep := by
  constructor
  · intro limit limit' h
    have hraised := Lexing.ofText_raised h source.toList
    refine ⟨fun hne => ?_, Parsing.ofLexing_raise hraised⟩
    have hne : ∀ e ∈ (Lexing.ofText limit source.toList).error, ¬ e.isTooDeep :=
      fun e he => hne e (tokenize_eq_error.2 he)
    rw [tokenize, tokenize]
    generalize Lexing.ofText limit source.toList = l at hraised hne
    generalize Lexing.ofText limit' source.toList = l' at hraised
    cases hraised with
    | tooDeep hdeep => exact absurd hdeep (hne _ rfl)
    | same => rfl
  · intro limit hbraces hbrackets
    have hfits := Lexing.ofText_fits ⟨hbraces, hbrackets⟩
    exact ⟨fun e he => hfits e (tokenize_eq_error.1 he),
      fun e he => hfits e (Parsing.error_of_lexical he)⟩

set_option maxRecDepth 100000 in
/-- A root in a root, and a group behind it that is never closed: too deep under the limit one, but
under the limit two already an error of another kind, and so under every higher one. -/
theorem tokenize_parse_raise_roots :
    let source := "\\sqrt\x7b\\sqrt\x7bx\x7d\x7d + \\sqrt\x7by"
    let foreign := LexicalError.foreign 28 "\\sqrt\x7by"
    tokenize 1 source = .error (.tooDeep 1 11 "\x7bx\x7d\x7d + \\sqrt\x7by") ∧
      tokenize 2 source = .error foreign ∧
      (∀ limit ≥ 2, tokenize limit source = .error foreign ∧
        (parse limit source).result = .error (.lexical foreign)) ∧
      source.toList.count '\x7b' = 3 ∧ source.toList.count '[' = 0 ∧
      ∀ e, (parse 3 source).result = .error (.lexical e) → ¬ e.isTooDeep := by
  intro source foreign
  have htokens : tokenize 2 source = .error foreign := by decide +kernel
  have hparse : (parse 2 source).result = .error (.lexical foreign) := by decide +kernel
  have hbraces : source.toList.count '\x7b' = 3 := by decide +kernel
  have hbrackets : source.toList.count '[' = 0 := by decide +kernel
  have hfits := (tokenize_parse_raise source).2 3 (by rw [hbraces]; decide) (by rw [hbrackets]; decide)
  refine ⟨by decide +kernel, htokens, fun limit hlimit => ?_, hbraces, hbrackets, hfits.2⟩
  obtain ⟨htokenize, hparsing⟩ := (tokenize_parse_raise source).1 2 limit hlimit
  constructor
  · rw [htokenize, htokens]
    intro e he
    obtain rfl := Except.error.inj (htokens.symm.trans he)
    decide
  · rw [hparsing, hparse]
    intro e he
    obtain rfl := ParseError.lexical.inj (Except.error.inj (hparse.symm.trans he))
    decide

end Reckon
