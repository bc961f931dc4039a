import Reckon.Proofs.Token.Name

/-!
One token more in front of a text that is read.

What stands at the front is read first, and the rest as before. A token is spelled in one of its fixed
forms, as a plain numeral or as a name; where a blank or the end follows, each of them is read back as
the token it was written for.

    2.5 │ ␣ + x          numeral 2.5, then the tokens of + x
    \times │ ␣ 3         product, then the tokens of 3
-/

namespace Reckon

/-- No blank stands before a token at the front. -/
theorem Front.skipBlanks_of_lexeme {limit : Int} {cs written rest : List Char} {token : Token}
    (h : Front.ofText limit cs = .lexeme token written rest) : Text.skipBlanks cs = cs := by
  cases cs with
  | nil => rfl
  | cons c cs =>
    refine Text.skipBlanks_cons_of_not cs ?_
    rw [Bool.eq_false_iff]
    intro hblank
    have hword := Text.not_isWordChar_of_isBlank hblank
    rcases Front.lexeme_cases h with hspelled | ⟨n, _, _, _, rfl, _, _⟩ | ⟨_, rfl, _, _⟩
    · rcases Token.spelled?_head hspelled with ⟨more, hroot⟩ | ⟨d, ds, heq, hd⟩
      · obtain ⟨rfl, _⟩ := List.cons.inj hroot
        exact absurd hblank (by decide)
      · obtain ⟨rfl, _⟩ := List.cons.inj heq
        exact Token.not_isBlank_of_mark hd hblank
    · exact hword (Text.isWordChar_of_isNameChar (Front.isNameChar_of_operand h))
    · exact hword (Text.isWordChar_of_isNameChar (Front.isNameChar_of_operand h))

namespace Token

theorem opening_mem : ("(", opening) ∈ spellings := by simp [spellings]

theorem closing_mem : (")", closing) ∈ spellings := by simp [spellings]

theorem divide_mem : ("/", operator .divide) ∈ spellings := by simp [spellings]

theorem root_mem : ("sqrt", operator .root) ∈ spellings := by simp [spellings]

end Token

theorem Front.ofText_spelling {limit : Int} {s : String} {token : Token}
    (hs : (s, token) ∈ Token.spellings) (rest : List Char) :
    ofText limit (s.toList ++ rest) = .lexeme token s.toList rest := by
  have hspelled : Token.spelled? (s.toList ++ rest) = some (token, s.toList, rest) :=
    Token.spelled?_eq_some_iff.2 ⟨s, hs, rfl, rfl⟩
  rw [ofText, hspelled]

namespace Reads

variable {limit : Int} {cs rest written u : List Char} {ts : List Token}

theorem blanks (hu : ∀ c ∈ u, Text.isBlank c) (h : Reads limit cs ts) : Reads limit (u ++ cs) ts := by
  have hskip : Text.skipBlanks (u ++ cs) = Text.skipBlanks cs := Text.skipBlanks_append hu
  cases h with
  | done hnil => exact .done (by rw [hskip, hnil])
  | token hfront hrest => exact .token (by rw [hskip]; exact hfront) hrest
  | expanded hfront htext => exact .expanded (by rw [hskip]; exact hfront) htext

theorem of_front {token : Token} (hfront : Front.ofText limit cs = .lexeme token written rest)
    (h : Reads limit rest ts) : Reads limit cs (token :: ts) := by
  have hskip := Front.skipBlanks_of_lexeme hfront
  exact .token (by rw [hskip]; exact hfront) h

/-- The first token is the one that stands at the front. -/
theorem exists_cons {token : Token} (hfront : Front.ofText limit cs = .lexeme token written rest)
    (h : Reads limit cs ts) : ∃ ts', ts = token :: ts' ∧ Reads limit rest ts' := by
  have hskip := Front.skipBlanks_of_lexeme hfront
  cases h with
  | done hnil =>
    rw [hskip] at hnil
    rw [hnil] at hfront
    cases hfront
  | @token _ _ _ _ ts' hfront' hrest =>
    rw [hskip, hfront] at hfront'
    obtain ⟨rfl, _, rfl⟩ := Front.lexeme.inj hfront'
    exact ⟨ts', rfl, hrest⟩
  | expanded hfront' _ =>
    rw [hskip, hfront] at hfront'
    cases hfront'

theorem of_spelling {s : String} {token : Token} (hs : (s, token) ∈ Token.spellings)
    (h : Reads limit rest ts) : Reads limit (s.toList ++ rest) (token :: ts) :=
  of_front (Front.ofText_spelling hs rest) h

theorem exists_of_spelling {s : String} {token : Token} (hs : (s, token) ∈ Token.spellings)
    (h : Reads limit (s.toList ++ rest) ts) : ∃ ts', ts = token :: ts' ∧ Reads limit rest ts' :=
  h.exists_cons (Front.ofText_spelling hs rest)

theorem of_expand {text : List Char} (hexpand : Abbreviation.expand limit cs = .found text)
    (h : Reads limit text ts) : Reads limit cs ts := by
  obtain ⟨rest, rfl⟩ := Abbreviation.exists_backslash hexpand
  have hskip : Text.skipBlanks ('\\' :: rest) = '\\' :: rest :=
    Text.skipBlanks_cons_of_not rest (by decide)
  exact .expanded (by rw [hskip]; exact Front.expanded_iff.2 hexpand) h

end Reads

/-! ### Spelling and reading back -/

/-- The spellings of a token: a fixed one, a plain numeral that denotes the number, or the name. -/
inductive Token.Spelled : Token → List Char → Prop
  | fixed {s : String} {token : Token} : (s, token) ∈ Token.spellings → Spelled token s.toList
  | numeral {n : Numeral} {w : Number} :
      n.Plain → n.value = .ok w → Spelled (.operand (.number w)) n.text
  | name {w : List Char} : IsName w → Spelled (.operand (.name (String.ofList w))) w

/-- A text of the shape of a name is one if it starts with no digit and not with the root. -/
theorem isName_iff {w : List Char} : IsName w ↔
    (∃ stem sub, w = stem ++ sub ∧ stem ≠ [] ∧ (∀ c ∈ stem, Text.isNameChar c) ∧
      (sub = [] ∨ ∃ s, sub = '_' :: s ∧ s ≠ [] ∧ ∀ c ∈ s, Text.isNameChar c)) ∧
    (∀ c ∈ w.head?, ¬ c.isDigit) ∧ ¬ "sqrt".toList <+: w := by
  constructor
  · intro h
    refine ⟨h.shape, h.digit, fun ⟨rest, hroot⟩ => ?_⟩
    have hspelled : Token.spelled? w = some (.operator .root, "sqrt".toList, rest) :=
      Token.spelled?_eq_some_iff.2 ⟨"sqrt", by simp [Token.spellings], rfl, hroot.symm⟩
    rw [h.spelled] at hspelled
    cases hspelled
  · rintro ⟨hshape, hdigit, hroot⟩
    refine ⟨?_, hdigit, hshape⟩
    rw [Option.eq_none_iff_forall_not_mem]
    rintro ⟨token, written, rest⟩ hsome
    rcases Token.spelled?_head (Option.mem_def.1 hsome) with hprefix | ⟨c, cs, rfl, hc⟩
    · exact hroot hprefix
    · -- the stem starts with a name character, and no mark is one
      obtain ⟨stem, sub, heq, hne, hstem, _⟩ := hshape
      cases stem with
      | nil => exact hne rfl
      | cons d stem =>
        obtain ⟨rfl, _⟩ := List.cons.inj heq
        exact Token.not_isWordChar_of_mark hc
          (Text.isWordChar_of_isNameChar (hstem c (List.mem_cons_self ..)))

/-- A blank goes on no numeral. -/
theorem Numeral.Ends.of_blank {rest : List Char} (h : ∀ c ∈ rest.head?, Text.isBlank c) :
    Numeral.Ends rest := by
  intro c hc
  have hblank := h c hc
  have hword := Text.not_isWordChar_of_isBlank hblank
  refine ⟨fun hd => hword (Text.isWordChar_of_isDigit hd), ?_, ?_⟩
  · rintro rfl
    exact absurd hblank (by decide)
  · rintro rfl
    exact hword (by decide)

/-- A token that is spelled before a blank is read back. -/
theorem Reads.of_spelled {limit : Int} {token : Token} {written rest : List Char} {ts : List Token}
    (hspelled : token.Spelled written) (hrest : ∀ c ∈ rest.head?, Text.isBlank c)
    (h : Reads limit rest ts) : Reads limit (written ++ rest) (token :: ts) := by
  cases hspelled with
  | fixed hmem => exact of_spelling hmem h
  | numeral hn hvalue => exact of_front (Front.ofText_numeral hn hvalue (.of_blank hrest)) h
  | name hname =>
    have hword : ∀ c ∈ rest.head?, ¬ Text.isWordChar c :=
      fun c hc => Text.not_isWordChar_of_isBlank (hrest c hc)
    exact of_front (Front.ofText_name hname hword) h

/-- Tokens that are spelled one after another with a blank between them are read back. -/
theorem Reads.of_intercalate {limit : Int} {spell : Token → String} {ts : List Token}
    (hspell : ∀ token ∈ ts, token.Spelled (spell token).toList) :
    Reads limit (" ".intercalate (ts.map spell)).toList ts := by
  induction ts with
  | nil => exact .done rfl
  | cons token ts ih =>
    obtain ⟨htoken, hts⟩ := List.forall_mem_cons.1 hspell
    have hread := ih hts
    cases ts with
    | nil =>
      have hend : ∀ c ∈ ([] : List Char).head?, Text.isBlank c := nofun
      simpa using of_spelled htoken hend hread
    | cons next ts =>
      have hspace : ∀ c ∈ [' '], Text.isBlank c := List.forall_mem_singleton.2 rfl
      have hblank : Reads limit (' ' :: _) (next :: ts) := blanks hspace hread
      have hfirst := of_spelled htoken (by simpa using hspace) hblank
      simpa [String.intercalate_cons_cons] using hfirst

end Reckon
