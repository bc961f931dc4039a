import Reckon.Proofs.Number.Numeral
import Reckon.Proofs.Token.Lexing

/-!
Names and numerals at the front of a text, and what may stand behind them.

A name ends where no word character follows, a numeral where no digit, point or exponent mark does;
then it is read off the front whatever else is written behind it. In a text that is read to its end
there is no third thing behind an operand: what follows is blank, a sign or a parenthesis, the
spelled-out root, or one more operand.

    x_1 │ + 2          name x_1          2.5 │ sqrt 3         numeral 2.5
-/

namespace Reckon

/-! ### Names -/

/-- A text that is a name as a whole: a stem, with or without a subscript, that does not start like a
spelled-out operator or a numeral. -/
structure IsName (w : List Char) : Prop where
  spelled : Token.spelled? w = none
  digit : ∀ c ∈ w.head?, ¬ c.isDigit
  shape : ∃ stem sub, w = stem ++ sub ∧ stem ≠ [] ∧ (∀ c ∈ stem, Text.isNameChar c) ∧
    (sub = [] ∨ ∃ s, sub = '_' :: s ∧ s ≠ [] ∧ ∀ c ∈ s, Text.isNameChar c)

theorem spanName_name {stem rest : List Char} (hstem : ∀ c ∈ stem, Text.isNameChar c)
    (hrest : ∀ c ∈ rest.head?, ¬ Text.isNameChar c) : spanName (stem ++ rest) = (stem, rest) := by
  have hspan : spanName rest = ([], rest) := by
    cases rest with
    | nil => rfl
    | cons c rest =>
      have hc := hrest c rfl
      rw [spanName, List.takeWhile_cons_of_neg hc, List.dropWhile_cons_of_neg hc]
  rw [spanName, Prod.mk.injEq] at hspan
  rw [spanName, List.takeWhile_append_of_pos hstem, List.dropWhile_append_of_pos hstem, hspan.1,
    hspan.2, List.append_nil]

theorem Text.not_isNameChar_of_not_isWordChar {c : Char} (h : ¬ isWordChar c) : ¬ isNameChar c :=
  fun hname => h (isWordChar_of_isNameChar hname)

namespace IsName

variable {w rest : List Char}

theorem exists_head (h : IsName w) : ∃ c w', w = c :: w' ∧ Text.isNameChar c ∧ ¬ c.isDigit := by
  obtain ⟨stem, sub, rfl, hne, hstem, _⟩ := h.shape
  cases stem with
  | nil => exact absurd rfl hne
  | cons c stem => exact ⟨c, _, rfl, hstem c (List.mem_cons_self ..), h.digit c rfl⟩

theorem isWordChar (h : IsName w) : ∀ c ∈ w, Text.isWordChar c := by
  obtain ⟨stem, sub, rfl, _, hstem, hsub⟩ := h.shape
  intro c hc
  rcases List.mem_append.1 hc with hc | hc
  · exact Text.isWordChar_of_isNameChar (hstem c hc)
  · rcases hsub with rfl | ⟨s, rfl, _, hs⟩
    · cases hc
    · rcases List.mem_cons.1 hc with rfl | hc
      · decide
      · exact Text.isWordChar_of_isNameChar (hs c hc)

/-- A name is scanned off the front where no word character follows it. -/
theorem scanName?_eq (h : IsName w) (hrest : ∀ c ∈ rest.head?, ¬ Text.isWordChar c) :
    scanName? (w ++ rest) = some (w, rest) := by
  obtain ⟨stem, sub, rfl, hne, hstem, hsub⟩ := h.shape
  have hname : ∀ c ∈ rest.head?, ¬ Text.isNameChar c :=
    fun c hc => Text.not_isNameChar_of_not_isWordChar (hrest c hc)
  have hspan : spanName (stem ++ (sub ++ rest)) = (stem, sub ++ rest) := by
    refine spanName_name hstem ?_
    rcases hsub with rfl | ⟨s, rfl, _, _⟩
    · exact hname
    · intro c hc
      obtain rfl : '_' = c := by simpa using hc
      decide
  have hscan : scanSubscript (sub ++ rest) = (sub, rest) := by
    rcases hsub with rfl | ⟨s, rfl, hs, hchars⟩
    · cases rest with
      | nil => rfl
      | cons c rest =>
        have hc : c ≠ '_' := by
          rintro rfl
          exact hrest '_' rfl (by decide)
        simp [scanSubscript, hc]
    · rw [List.cons_append, scanSubscript, spanName_name hchars hname]
      cases s with
      | nil => exact absurd rfl hs
      | cons c s => rfl
  rw [List.append_assoc, scanName?, hspan]
  cases stem with
  | nil => exact absurd rfl hne
  | cons c stem =>
    dsimp only
    rw [hscan]

end IsName

/-- What is scanned as a name has the shape of one. -/
theorem shape_of_scanName? {cs w rest : List Char} (h : scanName? cs = some (w, rest)) :
    ∃ stem sub, w = stem ++ sub ∧ stem ≠ [] ∧ (∀ c ∈ stem, Text.isNameChar c) ∧
      (sub = [] ∨ ∃ s, sub = '_' :: s ∧ s ≠ [] ∧ ∀ c ∈ s, Text.isNameChar c) := by
  have hstem : ∀ c ∈ (spanName cs).1, Text.isNameChar c := fun c hc => List.mem_takeWhile_imp hc
  unfold scanName? at h
  split at h
  · cases h
  · next stem rest' hne hspan =>
    rw [hspan] at hstem
    obtain ⟨rfl, rfl⟩ := Prod.mk.inj (Option.some.inj h)
    refine ⟨stem, _, rfl, hne, hstem, ?_⟩
    unfold scanSubscript
    split
    · next ds =>
      have hs : ∀ c ∈ (spanName ds).1, Text.isNameChar c := fun c hc => List.mem_takeWhile_imp hc
      split
      · exact .inl rfl
      · next s rest'' hne' hspan' =>
        rw [hspan'] at hs
        exact .inr ⟨s, rfl, hne', hs⟩
    · exact .inl rfl

theorem head_spanName (cs : List Char) : ∀ c ∈ (spanName cs).2.head?, ¬ Text.isNameChar c := by
  intro c hc
  have hnot := List.head?_dropWhile_not Text.isNameChar cs
  rw [spanName, Option.mem_def] at hc
  rw [hc] at hnot
  simpa using hnot

theorem head_scanSubscript {cs : List Char} (h : ∀ c ∈ cs.head?, ¬ Text.isNameChar c) :
    ∀ c ∈ (scanSubscript cs).2.head?, ¬ Text.isNameChar c := by
  unfold scanSubscript
  split
  · next ds =>
    have hhead := head_spanName ds
    split
    · exact h
    · next s rest _ hspan =>
      rw [hspan] at hhead
      exact hhead
  · exact h

theorem head_of_scanName? {cs w rest : List Char} (h : scanName? cs = some (w, rest)) :
    ∀ c ∈ rest.head?, ¬ Text.isNameChar c := by
  have hhead := head_spanName cs
  unfold scanName? at h
  split at h
  · cases h
  · next stem rest' _ hspan =>
    rw [hspan] at hhead
    obtain ⟨_, rfl⟩ := Prod.mk.inj (Option.some.inj h)
    exact head_scanSubscript hhead

theorem Numeral.not_digit_of_scan? {front rest : List Char} (hne : front ≠ [])
    (h : scan? (front ++ rest) = none) : ∀ c ∈ front.head?, ¬ c.isDigit := by
  intro c hc hd
  obtain ⟨tail, rfl⟩ := List.head?_eq_some_iff.1 hc
  rw [List.cons_append, scan?, spanDigits, List.takeWhile_cons_of_pos hd] at h
  cases h

/-! ### Operands at the front -/

namespace Token

theorem spelled?_prefix_eq_none {front rest : List Char} (h : spelled? (front ++ rest) = none) :
    spelled? front = none := by
  rw [Option.eq_none_iff_forall_not_mem]
  rintro ⟨token, written, rest'⟩ hsome
  obtain ⟨s, hmem, hwritten, rfl⟩ := spelled?_eq_some_iff.1 (Option.mem_def.1 hsome)
  have hspelled : spelled? (written ++ rest' ++ rest) = some (token, written, rest' ++ rest) :=
    spelled?_eq_some_iff.2 ⟨s, hmem, hwritten, List.append_assoc ..⟩
  rw [h] at hspelled
  cases hspelled

/-- The characters that a spelling starts with, the root spelled in letters apart. -/
def marks : List Char := ['=', '*', '/', '+', '^', '-', '(', ')', '\\']

theorem spellings_head : ∀ a ∈ spellings, a.1 = "sqrt" ∨ a.1.toList.headD ' ' ∈ marks := by
  decide +kernel

theorem not_isWordChar_of_mark {c : Char} (h : c ∈ marks) : ¬ Text.isWordChar c := by
  simp only [marks, List.mem_cons, List.not_mem_nil, or_false] at h
  rcases h with rfl | rfl | rfl | rfl | rfl | rfl | rfl | rfl | rfl <;> decide

theorem not_isBlank_of_mark {c : Char} (h : c ∈ marks) : ¬ Text.isBlank c := by
  simp only [marks, List.mem_cons, List.not_mem_nil, or_false] at h
  rcases h with rfl | rfl | rfl | rfl | rfl | rfl | rfl | rfl | rfl <;> decide

/-- What is spelled starts with the root, a sign, a parenthesis or a backslash. -/
theorem spelled?_head {cs written rest : List Char} {token : Token}
    (h : spelled? cs = some (token, written, rest)) :
    "sqrt".toList <+: cs ∨ ∃ c ds, cs = c :: ds ∧ c ∈ marks := by
  obtain ⟨s, hmem, rfl, rfl⟩ := spelled?_eq_some_iff.1 h
  rcases spellings_head _ hmem with hroot | hhead
  · exact .inl (hroot ▸ List.prefix_append _ _)
  · refine .inr ?_
    dsimp only at hhead
    cases hs : s.toList with
    | nil =>
      rw [hs] at hhead
      exact absurd hhead (by decide)
    | cons c ds =>
      rw [hs] at hhead
      exact ⟨c, _, rfl, hhead⟩

theorem ne_operand_of_spelled? {cs written rest : List Char} {token : Token}
    (h : spelled? cs = some (token, written, rest)) (a : Operand) : token ≠ .operand a := by
  obtain ⟨s, hmem, _, _⟩ := spelled?_eq_some_iff.1 h
  rintro rfl
  simp [spellings] at hmem

theorem spelled?_digit {d : Char} {cs : List Char} (hd : d.isDigit) :
    spelled? (d :: cs) = none := by
  rw [Option.eq_none_iff_forall_not_mem]
  rintro ⟨token, written, rest⟩ hsome
  rcases spelled?_head hsome with ⟨more, hroot⟩ | ⟨c, ds, heq, hc⟩
  · obtain ⟨rfl, _⟩ := List.cons.inj hroot
    cases hd
  · obtain ⟨rfl, _⟩ := List.cons.inj heq
    exact not_isWordChar_of_mark hc (Text.isWordChar_of_isDigit hd)

end Token

namespace Front

variable {limit : Int} {cs rest written : List Char}

theorem ofText_digit {d : Char} (hd : d.isDigit) : ofText limit (d :: cs) = ofOperand (d :: cs) := by
  have hslash : d ≠ '\\' := by
    rintro rfl
    cases hd
  rw [ofText, Token.spelled?_digit hd]
  dsimp only
  rw [Abbreviation.expand_eq_absent hslash]

theorem ofText_numeral {n : Numeral} {w : Number} (h : n.Plain) (hvalue : n.value = .ok w)
    (hrest : Numeral.Ends rest) :
    ofText limit (n.text ++ rest) = .lexeme (.operand (.number w)) n.text rest := by
  have hscan := Numeral.scan?_text h hrest
  obtain ⟨d, ds, hcons, hd⟩ := h.exists_digit
  rw [hcons, List.cons_append] at hscan ⊢
  rw [ofText_digit hd, ofOperand, hscan]
  dsimp only
  rw [hvalue, hcons]

theorem ofText_longNumeral {n : Numeral} {digits : Nat} (h : n.Plain)
    (hvalue : n.value = .error digits) (hrest : Numeral.Ends rest) :
    ofText limit (n.text ++ rest) = .longNumeral digits n.text rest := by
  have hscan := Numeral.scan?_text h hrest
  obtain ⟨d, ds, hcons, hd⟩ := h.exists_digit
  rw [hcons, List.cons_append] at hscan ⊢
  rw [ofText_digit hd, ofOperand, hscan]
  dsimp only
  rw [hvalue, hcons]

/-- A name is read off the front where no word character follows it. -/
theorem ofText_name {w : List Char} (h : IsName w)
    (hrest : ∀ c ∈ rest.head?, ¬ Text.isWordChar c) :
    ofText limit (w ++ rest) = .lexeme (.operand (.name (String.ofList w))) w rest := by
  have hscan := h.scanName?_eq hrest
  have hspelled := h.spelled
  obtain ⟨c, w', rfl, hc, hdigit⟩ := h.exists_head
  have hslash : c ≠ '\\' := by
    rintro rfl
    exact absurd hc (by decide)
  have hnumeral : Numeral.scan? (c :: w' ++ rest) = none := by
    rw [List.cons_append, Numeral.scan?, Numeral.spanDigits, List.takeWhile_cons_of_neg hdigit]
  rw [ofText, Token.spelled?_append_eq_none
    (fun d hd => Text.not_isNameChar_of_not_isWordChar (hrest d hd)) hc hspelled]
  dsimp only
  rw [List.cons_append, Abbreviation.expand_eq_absent hslash]
  dsimp only
  rw [ofOperand, ← List.cons_append, hnumeral]
  dsimp only
  rw [hscan]

/-- A token is spelled, or it is a numeral or a name. -/
theorem lexeme_cases {token : Token} (h : ofText limit cs = .lexeme token written rest) :
    Token.spelled? cs = some (token, written, rest) ∨
    (∃ n w, Numeral.Plain n ∧ n.value = .ok w ∧ token = .operand (.number w) ∧
      written = n.text ∧ cs = n.text ++ rest) ∨
    (IsName written ∧ token = .operand (.name (String.ofList written)) ∧ cs = written ++ rest ∧
      ∀ c ∈ rest.head?, ¬ Text.isNameChar c) := by
  rw [ofText] at h
  cases hspelled : Token.spelled? cs with
  | some found =>
    obtain ⟨token', written', rest'⟩ := found
    rw [hspelled] at h
    obtain ⟨rfl, rfl, rfl⟩ := Front.lexeme.inj h
    exact .inl rfl
  | none =>
    rw [hspelled] at h
    dsimp only at h
    split at h
    · cases h
    · cases h
    -- a numeral is tried before a name, so a name starts with no digit
    rw [ofOperand] at h
    cases hscan : Numeral.scan? cs with
    | some found =>
      obtain ⟨n, rest'⟩ := found
      rw [hscan] at h
      dsimp only at h
      split at h
      · next w hvalue =>
        obtain ⟨rfl, rfl, rfl⟩ := Front.lexeme.inj h
        exact .inr (.inl ⟨n, w, Numeral.plain_of_scan? hscan, hvalue, rfl, rfl,
          (Numeral.scan?_append hscan).1.symm⟩)
      · cases h
    | none =>
      rw [hscan] at h
      dsimp only at h
      split at h
      · next name rest' hname =>
        obtain ⟨rfl, rfl, rfl⟩ := Front.lexeme.inj h
        obtain ⟨happ, hne⟩ := scanName?_append hname
        refine .inr (.inr ⟨⟨?_, ?_, shape_of_scanName? hname⟩, rfl, happ.symm,
          head_of_scanName? hname⟩)
        · rw [← happ] at hspelled
          exact Token.spelled?_prefix_eq_none hspelled
        · rw [← happ] at hscan
          exact Numeral.not_digit_of_scan? hne hscan
      · cases h

theorem isName_of_name {s : String} (h : ofText limit cs = .lexeme (.operand (.name s)) written rest) :
    IsName s.toList := by
  rcases lexeme_cases h with hspelled | ⟨_, _, _, _, heq, _, _⟩ | ⟨hname, heq, _, _⟩
  · exact absurd rfl (Token.ne_operand_of_spelled? hspelled _)
  · cases heq
  · obtain rfl := Operand.name.inj (Token.operand.inj heq)
    rw [String.toList_ofList]
    exact hname

/-- What is written for a token is one of its spellings, or has word characters, points and signs
only. -/
theorem written_cases {token : Token} (h : ofText limit cs = .lexeme token written rest) :
    (∃ s, (s, token) ∈ Token.spellings ∧ written = s.toList) ∨
      ∀ c ∈ written, Text.isWordChar c ∨ c ∈ ['.', '+', '-'] := by
  rcases lexeme_cases h with hspelled | ⟨n, _, hn, _, _, rfl, _⟩ | ⟨hname, _, _, _⟩
  · obtain ⟨s, hmem, hwritten, _⟩ := Token.spelled?_eq_some_iff.1 hspelled
    exact .inl ⟨s, hmem, hwritten⟩
  · refine .inr fun c hc => ?_
    rcases hn.mem_text c hc with hdigit | hmark
    · exact .inl (Text.isWordChar_of_isDigit hdigit)
    · simp only [List.mem_cons, List.not_mem_nil, or_false] at hmark
      rcases hmark with rfl | rfl | rfl | rfl <;> decide
  · exact .inr fun c hc => .inl (hname.isWordChar c hc)

/-- A kind of characters that is in no spelling, and is no word character, point or sign, is in nothing
that is written for a token. -/
theorem written_not {p : Char → Bool} {token : Token}
    (hspellings : Token.spellings.all fun a => a.1.toList.all (!p ·))
    (hword : ∀ c, p c → ¬ Text.isWordChar c) (hmarks : ['.', '+', '-'].all (!p ·))
    (h : ofText limit cs = .lexeme token written rest) : ∀ c ∈ written, !p c := by
  intro c hc
  rcases written_cases h with ⟨s, hmem, rfl⟩ | hchars
  · exact List.all_eq_true.1 (List.all_eq_true.1 hspellings _ hmem) c hc
  · rcases hchars c hc with hchar | hmark
    · rw [Bool.not_eq_true', Bool.eq_false_iff]
      exact fun hp => hword c hp hchar
    · exact List.all_eq_true.1 hmarks c hmark

/-- An operand starts with a name character. -/
theorem isNameChar_of_operand {a : Operand} {c : Char}
    (h : ofText limit (c :: cs) = .lexeme (.operand a) written rest) : Text.isNameChar c := by
  rcases lexeme_cases h with hspelled | ⟨n, _, hn, _, _, _, happ⟩ | ⟨hname, _, happ, _⟩
  · exact absurd rfl (Token.ne_operand_of_spelled? hspelled a)
  · obtain ⟨d, ds, hcons, hd⟩ := hn.exists_digit
    rw [hcons] at happ
    obtain ⟨rfl, _⟩ := List.cons.inj happ
    exact Text.isNameChar_of_isDigit hd
  · obtain ⟨d, ds, rfl, hd, _⟩ := hname.exists_head
    obtain ⟨rfl, _⟩ := List.cons.inj happ
    exact hd

end Front

/-! ### What stands behind an operand -/

/-- A blank separates words. -/
theorem Text.not_isWordChar_of_isBlank {c : Char} (h : isBlank c) : ¬ isWordChar c := by
  intro hw
  have hletter : c.isAlphanum = ((decide ('A'.val ≤ c.val ∧ c.val ≤ 'Z'.val) ||
      (decide ('a'.val ≤ c.val) && decide (c.val ≤ 'z'.val))) || c.isDigit) := rfl
  simp only [isWordChar, isNameChar, hletter, Char.isDigit_iff_toNat, Bool.or_eq_true,
    Bool.and_eq_true, decide_eq_true_eq, UInt32.le_iff_toNat_le, Char.toNat_val] at hw
  have hcode : (48 ≤ c.toNat ∧ c.toNat ≤ 57) ∨ (65 ≤ c.toNat ∧ c.toNat ≤ 90) ∨
      (97 ≤ c.toNat ∧ c.toNat ≤ 122) ∨ c.toNat ∈ [95, 0x130, 0x131, 0x17F, 0x212A] := by
    rcases hw with (((((( hw | hw) | hw) | rfl) | rfl) | rfl) | rfl) | rfl
    · exact .inr (.inl hw)
    · exact .inr (.inr (.inl hw))
    · exact .inl hw
    all_goals decide
  simp only [isBlank, blankRanges, List.any_cons, List.any_nil, Bool.or_false, Bool.or_eq_true,
    Bool.and_eq_true, decide_eq_true_eq] at h
  simp only [List.mem_cons, List.not_mem_nil, or_false] at hcode
  omega

namespace Reads

variable {limit : Int} {c : Char} {cs : List Char} {ts : List Token}

/-- A text that is read starts with a blank, the spelled-out root, a sign, a parenthesis, a backslash
or an operand. -/
theorem head_cases (h : Reads limit (c :: cs) ts) :
    Text.isBlank c ∨ "sqrt".toList <+: c :: cs ∨
      c ∈ Token.marks ∨
      ∃ a written rest ts', Front.ofText limit (c :: cs) = .lexeme (.operand a) written rest ∧
        ts = .operand a :: ts' := by
  by_cases hblank : Text.isBlank c
  · exact .inl hblank
  have hskip : Text.skipBlanks (c :: cs) = c :: cs :=
    Text.skipBlanks_cons_of_not cs (by simpa using hblank)
  refine .inr ?_
  cases h with
  | done hnil =>
    rw [hskip] at hnil
    cases hnil
  | token hfront _ =>
    rw [hskip] at hfront
    rcases Front.lexeme_cases hfront with
      hspelled | ⟨_, _, _, _, rfl, _, _⟩ | ⟨_, rfl, _, _⟩
    · rcases Token.spelled?_head hspelled with hroot | ⟨c', ds, heq, hc'⟩
      · exact .inl hroot
      · obtain ⟨rfl, _⟩ := List.cons.inj heq
        exact .inr (.inl hc')
    · exact .inr (.inr ⟨_, _, _, _, hfront, rfl⟩)
    · exact .inr (.inr ⟨_, _, _, _, hfront, rfl⟩)
  | expanded hfront _ =>
    rw [hskip, Front.expanded_iff] at hfront
    obtain ⟨rest, heq⟩ := Abbreviation.exists_backslash hfront
    obtain ⟨rfl, _⟩ := List.cons.inj heq
    exact .inr (.inl (by decide))

/-- A text that starts with no operand does not go on a numeral before it. -/
theorem ends (h : Reads limit cs ts) (hts : ∀ a ts', ts ≠ .operand a :: ts') : Numeral.Ends cs := by
  intro c hc
  have hends : ¬ Text.isWordChar c → c ≠ '.' → ¬ c.isDigit ∧ c ≠ '.' ∧ c ≠ 'e' := by
    intro hword hpoint
    refine ⟨fun hd => hword (Text.isWordChar_of_isDigit hd), hpoint, ?_⟩
    rintro rfl
    exact hword (by decide)
  obtain ⟨cs, rfl⟩ := List.head?_eq_some_iff.1 hc
  rcases h.head_cases with hblank | ⟨more, hroot⟩ | hmark | ⟨a, _, _, ts', _, rfl⟩
  · refine hends (Text.not_isWordChar_of_isBlank hblank) ?_
    rintro rfl
    exact absurd hblank (by decide)
  · obtain ⟨rfl, _⟩ := List.cons.inj hroot
    decide
  · refine hends (Token.not_isWordChar_of_mark hmark) ?_
    rintro rfl
    simp [Token.marks] at hmark
  · exact absurd rfl (hts a ts')

/-- A text that goes on no name before it starts with no word character. -/
theorem not_isWordChar (h : Reads limit cs ts) (hname : ∀ c ∈ cs.head?, ¬ Text.isNameChar c) :
    ∀ c ∈ cs.head?, ¬ Text.isWordChar c := by
  intro c hc
  have hnot := hname c hc
  obtain ⟨cs, rfl⟩ := List.head?_eq_some_iff.1 hc
  rcases h.head_cases with hblank | ⟨more, hroot⟩ | hsign | ⟨a, _, _, ts', hfront, _⟩
  · exact Text.not_isWordChar_of_isBlank hblank
  · obtain ⟨rfl, _⟩ := List.cons.inj hroot
    exact absurd (by decide) hnot
  · exact Token.not_isWordChar_of_mark hsign
  · exact absurd (Front.isNameChar_of_operand hfront) hnot

end Reads

/-- Somewhere in the text a name is read directly behind an operator that is spelled in letters. -/
inductive Glued (limit : Int) : List Char → Prop
  | here {cs written rest written' rest' : List Char} {token : Token} {s : String} :
      Front.ofText limit (Text.skipBlanks cs) = .lexeme token written rest →
      written ∈ ["sqrt".toList, "\\times".toList, "\\cdot".toList] →
      Front.ofText limit rest = .lexeme (.operand (.name s)) written' rest' → Glued limit cs
  | token {cs written rest : List Char} {token : Token} :
      Front.ofText limit (Text.skipBlanks cs) = .lexeme token written rest →
      Glued limit rest → Glued limit cs
  | expanded {cs text : List Char} :
      Front.ofText limit (Text.skipBlanks cs) = .expanded text → Glued limit text → Glued limit cs

namespace Glued

variable {limit : Int} {cs written rest : List Char} {token : Token}

theorem token_iff (hfront : Front.ofText limit (Text.skipBlanks cs) = .lexeme token written rest) :
    Glued limit cs ↔
      (written ∈ ["sqrt".toList, "\\times".toList, "\\cdot".toList] ∧
        ∃ s written' rest', Front.ofText limit rest = .lexeme (.operand (.name s)) written' rest') ∨
      Glued limit rest := by
  constructor
  · intro h
    cases h with
    | here hfront' hletters hname =>
      rw [hfront] at hfront'
      obtain ⟨_, rfl, rfl⟩ := Front.lexeme.inj hfront'
      exact .inl ⟨hletters, _, _, _, hname⟩
    | token hfront' hrest =>
      rw [hfront] at hfront'
      obtain ⟨_, _, rfl⟩ := Front.lexeme.inj hfront'
      exact .inr hrest
    | expanded hfront' _ =>
      rw [hfront] at hfront'
      cases hfront'
  · rintro (⟨hletters, s, written', rest', hname⟩ | hrest)
    · exact .here hfront hletters hname
    · exact .token hfront hrest

theorem not_of_blank (h : Text.skipBlanks cs = []) : ¬ Glued limit cs := by
  intro hglued
  cases hglued with
  | here hfront _ _ =>
    rw [h] at hfront
    cases hfront
  | token hfront _ =>
    rw [h] at hfront
    cases hfront
  | expanded hfront _ =>
    rw [h] at hfront
    cases hfront

end Glued

end Reckon
