import Mathlib.Data.List.Chain
import Reckon.Proofs.Formula.Words
import Reckon.Proofs.Token.Spelling

/-!
The tokens of a text with values put in.

Each name with a value becomes the tokens of its value, and every other token stays. The induction
follows the reading of the text: a sign or a parenthesis is read again, a numeral ends where it
ended, a name is a word of its own, and an abbreviation is expanded after the values are put in just
as before.

    -x^2      x = -3      ──▶     - ( - 3 ) ^ 2
-/

namespace Reckon

/-- The tokens of a value inside a formula. -/
def Number.tokens (n : Number) : List Token :=
  if n.isSigned then [.opening, .operator .subtract, .operand (.number n.unsigned), .closing]
  else [.operand (.number n.unsigned)]

/-- The tokens that stand for a token where names have values. -/
def Token.substitute (v : Valuation) : Token → List Token
  | .operand (.name s) =>
    match v s with
    | some n => n.tokens
    | none => [.operand (.name s)]
  | token => [token]

/-- No operand stands directly behind another one. -/
def Token.Apart (ts : List Token) : Prop :=
  ts.IsChain fun a b => ∀ x y, a = .operand x → b ≠ .operand y

/-- Values that can be put into a text: they belong to names, and each has a text that is a
numeral. -/
structure Valuation.Legible (v : Valuation) : Prop where
  name : ∀ {s n}, v s = some n → IsName s.toList
  writable : ∀ {s n}, v s = some n → n.isWritable
  finite : ∀ {s n}, v s = some n → n.isFinite

/-- The text that is put in for a word. -/
def Substitution.valueOf (v : Valuation) (w : List Char) : Option (List Char) :=
  (v (String.ofList w)).map fun n => (n.substituteText?.getD "").toList

namespace Token.Apart

variable {token : Token} {ts : List Token}

theorem of_cons (h : Token.Apart (token :: ts)) : Token.Apart ts := List.IsChain.tail h

theorem ne_operand {a : Operand} (h : Token.Apart (.operand a :: ts)) (x : Operand)
    (ts' : List Token) : ts ≠ .operand x :: ts' := by
  rintro rfl
  exact (List.isChain_cons_cons.1 h).1 a x rfl rfl

end Token.Apart

/-! ### The tokens of a value -/

namespace Reads

variable {limit : Int} {rest : List Char} {ts : List Token}

theorem of_value {n : Number} (hw : n.isWritable) (hfinite : n.isFinite)
    (hends : Numeral.Ends rest) (h : Reads limit rest ts) :
    Reads limit ((n.substituteText?.getD "").toList ++ rest) (n.tokens ++ ts) := by
  obtain ⟨numeral, hnumeral, hvalue, htext⟩ := Number.exists_numeral hw hfinite
  rw [htext, Option.getD_some, String.toList_ofList, Number.signedText, Number.tokens]
  cases n.isSigned with
  | false => exact of_front (Front.ofText_numeral hnumeral hvalue hends) h
  | true =>
    have hclosing : Reads limit (')' :: rest) (.closing :: ts) :=
      of_spelling (s := ")") (by simp [Token.spellings]) h
    have hoperand := of_front (Front.ofText_numeral hnumeral hvalue (.parenthesis rest)) hclosing
    have hsign : Reads limit ('-' :: (numeral.text ++ ')' :: rest)) (.operator .subtract :: _) :=
      of_spelling (s := "-") (by simp [Token.spellings]) hoperand
    have hopening : Reads limit ('(' :: '-' :: (numeral.text ++ ')' :: rest)) (.opening :: _) :=
      of_spelling (s := "(") (by simp [Token.spellings]) hsign
    simpa using hopening

end Reads

namespace Substitution

variable {limit : Int} {v : Valuation} {value : List Char → Option (List Char)}
  {cs rest written : List Char} {ts : List Token}

theorem proper_valueOf (hv : v.Legible) : Proper (valueOf v) := by
  constructor
  · intro w t h
    obtain ⟨n, hn, _⟩ := Option.map_eq_some_iff.1 h
    simpa using hv.name hn
  · intro w t h
    obtain ⟨n, hn, rfl⟩ := Option.map_eq_some_iff.1 h
    obtain ⟨numeral, hnumeral, _, htext⟩ := Number.exists_numeral (hv.writable hn) (hv.finite hn)
    exact ⟨n.isSigned, numeral, hnumeral, by rw [htext, Option.getD_some, String.toList_ofList]⟩

/-- The word that a text starts with is not replaced, unless a name is read there. -/
theorem value_takeWhile (h : Proper value) (hreads : Reads limit cs ts)
    (hname : ∀ s written rest, Front.ofText limit cs ≠ .lexeme (.operand (.name s)) written rest) :
    value (cs.takeWhile Text.isWordChar) = none := by
  have hnone : (∀ c ∈ cs.head?, ¬ Text.isWordChar c) → value (cs.takeWhile Text.isWordChar) = none := by
    intro hhead
    rw [takeWhile_eq_nil hhead]
    exact h.value_nil
  cases cs with
  | nil => exact hnone nofun
  | cons c cs =>
    -- a text that is read starts with a blank, a root's name, a mark or an operand
    rcases hreads.head_cases with hblank | ⟨more, hroot⟩ | hsign | ⟨a, written, rest, _, hfront, _⟩
    · refine hnone fun d hd => ?_
      obtain rfl := Option.some.inj hd
      exact Text.not_isWordChar_of_isBlank hblank
    · have hletters : ∀ c ∈ "sqrt".toList, Text.isWordChar c := by
        simp [Text.isWordChar, Text.isNameChar]
      rw [← hroot, List.takeWhile_append_of_pos hletters]
      exact h.value_root
    · refine hnone fun d hd => ?_
      obtain rfl := Option.some.inj hd
      exact Token.not_isWordChar_of_mark hsign
    · rcases Front.lexeme_cases hfront with
        hspelled | ⟨n, _, hn, _, _, _, happ⟩ | ⟨_, hoperand, _, _⟩
      · exact absurd rfl (Token.ne_operand_of_spelled? hspelled a)
      · obtain ⟨d, ds, hcons, hd⟩ := hn.exists_digit
        rw [hcons] at happ
        obtain ⟨rfl, _⟩ := List.cons.inj happ
        rw [List.takeWhile_cons_of_pos (Text.isWordChar_of_isDigit hd)]
        exact h.value_digit hd
      · rw [hoperand] at hfront
        exact absurd hfront (hname _ _ _)

/-- What is spelled stays, and the text behind it is replaced on its own. -/
theorem replaceWords_spelled (h : Proper value) {token : Token}
    (hspelled : Token.spelled? cs = some (token, written, rest))
    (hrest : written ∈ ["sqrt".toList, "\\times".toList, "\\cdot".toList] →
      value (rest.takeWhile Text.isWordChar) = none) :
    replaceWords value false cs = written ++ replaceWords value false rest := by
  obtain ⟨s, hmem, rfl, rfl⟩ := Token.spelled?_eq_some_iff.1 hspelled
  have hparenthesis : ∀ c, Separates c → value ((c :: rest).takeWhile Text.isWordChar) = none := by
    intro c hc
    rw [List.takeWhile_cons_of_neg hc.1]
    exact h.value_nil
  simp only [Token.spellings, List.mem_cons, Prod.mk.injEq, List.not_mem_nil, or_false] at hmem
  -- only the three spellings in letters need the hypothesis: the others end in a mark
  rcases hmem with ⟨rfl, _⟩ | ⟨rfl, _⟩ | ⟨rfl, _⟩ | ⟨rfl, _⟩ | ⟨rfl, _⟩ | ⟨rfl, _⟩ | ⟨rfl, _⟩ |
    ⟨rfl, _⟩ | ⟨rfl, _⟩ | ⟨rfl, _⟩ | ⟨rfl, _⟩ | ⟨rfl, _⟩ | ⟨rfl, _⟩
  · exact replaceWords_cons (c := '=') (by decide)
  · exact replaceWords_cons (c := '*') (by decide)
  · exact replaceWords_command (w := "times".toList) (by decide) (hrest (by decide))
  · exact replaceWords_command (w := "cdot".toList) (by decide) (hrest (by decide))
  · exact replaceWords_cons (c := '/') (by decide)
  · exact replaceWords_cons (c := '+') (by decide)
  · exact replaceWords_cons (c := '^') (by decide)
  · exact replaceWords_cons (c := '-') (by decide)
  · exact replaceWords_root h (hrest (by decide))
  · exact replaceWords_cons (c := '(') (by decide)
  · have hleft : replaceWords value false ('\\' :: ("left".toList ++ '(' :: rest)) = _ :=
      replaceWords_command (by decide) (hparenthesis '(' (by decide))
    rw [replaceWords_cons (c := '(') (by decide)] at hleft
    exact hleft
  · exact replaceWords_cons (c := ')') (by decide)
  · have hright : replaceWords value false ('\\' :: ("right".toList ++ ')' :: rest)) = _ :=
      replaceWords_command (by decide) (hparenthesis ')' (by decide))
    rw [replaceWords_cons (c := ')') (by decide)] at hright
    exact hright

theorem head_replaceWords {p : Char → Prop} (h : value (cs.takeWhile Text.isWordChar) = none)
    (hcs : ∀ c ∈ cs.head?, p c) : ∀ c ∈ (replaceWords value false cs).head?, p c := by
  rw [head?_replaceWords h]
  exact hcs

/-- A text with values put in has the tokens of the text, those of the values in place of the
names. -/
theorem reads_replaceWords (hv : v.Legible) (h : Reads limit cs ts) (hglued : ¬ Glued limit cs)
    (hapart : Token.Apart ts) :
    Reads limit (replaceWords (valueOf v) false cs) (ts.flatMap (Token.substitute v)) := by
  have hproper := proper_valueOf hv
  induction h with
  | @done cs hnil =>
    obtain ⟨u, hu, hcs⟩ := Text.exists_blanks cs
    rw [hnil, List.append_nil] at hcs
    subst hcs
    have hblanks : replaceWords (valueOf v) false (cs ++ []) = cs ++ _ := replaceWords_blanks hu
    rw [List.append_nil] at hblanks
    rw [hblanks]
    exact .blanks hu (.done (by simp [replaceWords]))
  | @token cs written rest token ts hfront hrest ih =>
    have hreads := ih (fun hmore => hglued (.token hfront hmore)) hapart.of_cons
    obtain ⟨u, hu, hcs⟩ := Text.exists_blanks cs
    rw [hcs, replaceWords_blanks hu]
    refine .blanks hu ?_
    rcases Front.lexeme_cases hfront with
      hspelled | ⟨n, w, hn, hvalue, rfl, rfl, happ⟩ | ⟨hname, rfl, happ, hhead⟩
    · -- what is spelled in letters is followed by no name, so the word there stays
      have hkeep : written ∈ ["sqrt".toList, "\\times".toList, "\\cdot".toList] →
          valueOf v (rest.takeWhile Text.isWordChar) = none := by
        intro hletters
        refine value_takeWhile hproper hrest fun s written' rest' hname => hglued ?_
        exact .here hfront hletters hname
      obtain ⟨s, hmem, rfl, _⟩ := Token.spelled?_eq_some_iff.1 hspelled
      have hsame : Token.substitute v token = [token] := by
        cases token with
        | operand a => exact absurd rfl (Token.ne_operand_of_spelled? hspelled a)
        | _ => rfl
      rw [replaceWords_spelled hproper hspelled hkeep, List.flatMap_cons, hsame]
      exact .of_spelling hmem hreads
    -- no operand follows a numeral, so the word behind it is no name
    · have hnext := hapart.ne_operand
      have hkeep : valueOf v (rest.takeWhile Text.isWordChar) = none := by
        refine value_takeWhile hproper hrest fun s written' rest' hname => ?_
        obtain ⟨ts', hts, _⟩ := hrest.exists_cons hname
        exact hnext _ ts' hts
      have hends := head_replaceWords hkeep (hrest.ends hnext)
      rw [happ, replaceWords_numeral hproper hn hkeep]
      exact .of_front (Front.ofText_numeral hn hvalue hends) hreads
    · have hword := hrest.not_isWordChar hhead
      have hkeep : valueOf v (rest.takeWhile Text.isWordChar) = none := by
        rw [takeWhile_eq_nil hword]
        exact hproper.value_nil
      have hnext := hapart.ne_operand
      rw [happ, replaceWords_name hname hword, List.flatMap_cons, Token.substitute, valueOf]
      cases hn : v (String.ofList written) with
      | none => exact .of_front (Front.ofText_name hname (head_replaceWords hkeep hword)) hreads
      | some n =>
        exact .of_value (hv.writable hn) (hv.finite hn)
          (head_replaceWords hkeep (hrest.ends hnext)) hreads
  | @expanded cs text ts hfront htext ih =>
    have hreads := ih (fun hmore => hglued (.expanded hfront hmore)) hapart
    obtain ⟨u, hu, hcs⟩ := Text.exists_blanks cs
    rw [hcs, replaceWords_blanks hu]
    exact .blanks hu (.of_expand (expand_replaceWords hproper (Front.expanded_iff.1 hfront)) hreads)

end Substitution

end Reckon
