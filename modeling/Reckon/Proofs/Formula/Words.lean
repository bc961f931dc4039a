import Reckon.Formula.Substitution
import Reckon.Proofs.Number.Written
import Reckon.Proofs.Token.Name

/-!
Putting values in for words, piece by piece.

The text falls apart at each character that belongs to no word: what stands before it and what stands
behind it are replaced on their own. A text that starts in the middle of a word stays as it is up to
the end of the word, if neither the whole word nor the rest of it is a name with a value.

    ab + \frac{a}{b}      a = 4      ──▶     ab + \frac{4}{b}
-/

namespace Reckon

namespace Substitution

/-- What is put in is put in for names, and it is a numeral, maybe behind a minus sign and in
parentheses. -/
structure Proper (value : List Char → Option (List Char)) : Prop where
  name : ∀ {w t}, value w = some t → IsName w
  text : ∀ {w t}, value w = some t →
    ∃ negative numeral, Numeral.Plain numeral ∧ t = Number.signedText negative numeral

variable {value : List Char → Option (List Char)} {command : Bool} {c : Char} {cs rest : List Char}

namespace Proper

theorem value_nil (h : Proper value) : value [] = none := by
  cases hv : value [] with
  | none => rfl
  | some t =>
    obtain ⟨_, _, heq, _⟩ := (h.name hv).exists_head
    cases heq

theorem value_digit {d : Char} {w : List Char} (h : Proper value) (hd : d.isDigit) :
    value (d :: w) = none := by
  cases hv : value (d :: w) with
  | none => rfl
  | some t => exact absurd hd ((h.name hv).digit d rfl)

theorem value_root {w : List Char} (h : Proper value) : value ("sqrt".toList ++ w) = none := by
  cases hv : value ("sqrt".toList ++ w) with
  | none => rfl
  | some t =>
    have hspelled := (h.name hv).spelled
    have hroot : Token.spelled? ("sqrt".toList ++ w) = some (.operator .root, "sqrt".toList, w) :=
      Token.spelled?_eq_some_iff.2 ⟨"sqrt", by simp [Token.spellings], rfl, rfl⟩
    rw [hroot] at hspelled
    cases hspelled

end Proper

/-! ### Words -/

theorem replaceWords_cons_of_not (hc : ¬ Text.isWordChar c) :
    replaceWords value command (c :: cs) = c :: replaceWords value (c == '\\') cs := by
  rw [replaceWords, if_neg hc]

theorem replaceWords_word (hc : Text.isWordChar c) :
    replaceWords value command (c :: cs) =
      (if command then c :: cs.takeWhile Text.isWordChar
        else (value (c :: cs.takeWhile Text.isWordChar)).getD
          (c :: cs.takeWhile Text.isWordChar)) ++
        replaceWords value false (cs.dropWhile Text.isWordChar) := by
  rw [replaceWords, if_pos hc]

/-- A text falls apart at a character that belongs to no word. -/
theorem replaceWords_append_cons (hc : ¬ Text.isWordChar c) (front : List Char) :
    replaceWords value command (front ++ c :: cs) =
      replaceWords value command front ++ c :: replaceWords value (c == '\\') cs := by
  have htake : ∀ ds, (ds ++ c :: cs).takeWhile Text.isWordChar = ds.takeWhile Text.isWordChar := by
    intro ds
    induction ds with
    | nil => exact List.takeWhile_cons_of_neg hc
    | cons d ds ih => rw [List.cons_append, List.takeWhile_cons, List.takeWhile_cons, ih]
  have hdrop : ∀ ds, (ds ++ c :: cs).dropWhile Text.isWordChar =
      ds.dropWhile Text.isWordChar ++ c :: cs := by
    intro ds
    induction ds with
    | nil => exact List.dropWhile_cons_of_neg hc
    | cons d ds ih =>
      rw [List.cons_append, List.dropWhile_cons, List.dropWhile_cons, ih]
      split <;> rfl
  fun_induction replaceWords value command front with
  | case1 command => exact replaceWords_cons_of_not hc
  | case2 command d front hd _ ih =>
    rw [List.cons_append, replaceWords_word hd, htake, hdrop, ih, List.append_assoc]
  | case3 command d front hd ih =>
    rw [List.cons_append, replaceWords_cons_of_not hd, ih, List.cons_append]

/-- A word stays if it stands behind a backslash or is no name with a value. -/
theorem replaceWords_eq (h : command = true ∨ value (cs.takeWhile Text.isWordChar) = none) :
    replaceWords value command cs = cs.takeWhile Text.isWordChar ++
      replaceWords value false (cs.dropWhile Text.isWordChar) := by
  cases cs with
  | nil => simp [replaceWords]
  | cons c cs =>
    by_cases hc : Text.isWordChar c
    · rw [List.takeWhile_cons_of_pos hc] at h ⊢
      rw [replaceWords_word hc, List.dropWhile_cons_of_pos hc]
      rcases h with rfl | h
      · rfl
      · rw [h]
        cases command <;> rfl
    · rw [List.takeWhile_cons_of_neg hc, List.dropWhile_cons_of_neg hc,
        replaceWords_cons_of_not hc, List.nil_append, replaceWords_cons_of_not hc]

/-- The beginning of a word stays, where neither the word nor the rest of it is replaced. -/
theorem replaceWords_append {front : List Char} (hfront : ∀ c ∈ front, Text.isWordChar c)
    (hword : command = true ∨ value (front ++ rest.takeWhile Text.isWordChar) = none)
    (hrest : value (rest.takeWhile Text.isWordChar) = none) :
    replaceWords value command (front ++ rest) = front ++ replaceWords value false rest := by
  have htake : (front ++ rest).takeWhile Text.isWordChar = front ++ rest.takeWhile Text.isWordChar :=
    List.takeWhile_append_of_pos hfront
  have hdrop : (front ++ rest).dropWhile Text.isWordChar = rest.dropWhile Text.isWordChar :=
    List.dropWhile_append_of_pos hfront
  rw [replaceWords_eq (by rw [htake]; exact hword), htake, hdrop, List.append_assoc,
    ← replaceWords_eq (.inr hrest)]

theorem takeWhile_eq_nil {cs : List Char} (h : ∀ c ∈ cs.head?, ¬ Text.isWordChar c) :
    cs.takeWhile Text.isWordChar = [] := by
  cases cs with
  | nil => rfl
  | cons c cs => exact List.takeWhile_cons_of_neg (h c rfl)

/-- A name is replaced as a whole. -/
theorem replaceWords_name {w : List Char} (hw : IsName w)
    (hrest : ∀ c ∈ rest.head?, ¬ Text.isWordChar c) :
    replaceWords value false (w ++ rest) = (value w).getD w ++ replaceWords value false rest := by
  have hchars := hw.isWordChar
  obtain ⟨c, w', rfl, _, _⟩ := hw.exists_head
  obtain ⟨hc, hw'⟩ := List.forall_mem_cons.1 hchars
  have hdrop : rest.dropWhile Text.isWordChar = rest := by
    cases rest with
    | nil => rfl
    | cons d rest => exact List.dropWhile_cons_of_neg (hrest d rfl)
  rw [List.cons_append, replaceWords_word hc, List.takeWhile_append_of_pos hw',
    List.dropWhile_append_of_pos hw', takeWhile_eq_nil hrest, hdrop, List.append_nil]
  rfl

/-- The first character stays, unless a name with a value starts with it. -/
theorem head?_replaceWords (h : value (cs.takeWhile Text.isWordChar) = none) :
    (replaceWords value command cs).head? = cs.head? := by
  rw [replaceWords_eq (.inr h)]
  cases cs with
  | nil => simp [replaceWords]
  | cons c cs =>
    by_cases hc : Text.isWordChar c
    · rw [List.takeWhile_cons_of_pos hc]
      rfl
    · rw [List.takeWhile_cons_of_neg hc, List.dropWhile_cons_of_neg hc,
        replaceWords_cons_of_not hc]
      rfl

/-- Blanks stay. -/
theorem replaceWords_blanks {u : List Char} (hu : ∀ c ∈ u, Text.isBlank c) :
    replaceWords value false (u ++ cs) = u ++ replaceWords value false cs := by
  induction u with
  | nil => rfl
  | cons c u ih =>
    obtain ⟨hc, hu⟩ := List.forall_mem_cons.1 hu
    have hslash : (c == '\\') = false := by
      rw [beq_eq_false_iff_ne]
      rintro rfl
      exact absurd hc (by decide)
    rw [List.cons_append, replaceWords_cons_of_not (Text.not_isWordChar_of_isBlank hc), hslash,
      ih hu, List.cons_append]

/-! ### Numerals -/

theorem replaceWords_digits (h : Proper value) {d : Char} {ds : List Char} (hd : d.isDigit)
    (hds : ∀ c ∈ d :: ds, Text.isWordChar c)
    (hrest : value (rest.takeWhile Text.isWordChar) = none) :
    replaceWords value false (d :: ds ++ rest) = d :: ds ++ replaceWords value false rest :=
  replaceWords_append hds (.inr (h.value_digit hd)) hrest

theorem isWordChar_of_digits {ds : List Char} (h : ∀ c ∈ ds, c.isDigit) :
    ∀ c ∈ ds, Text.isWordChar c :=
  fun c hc => Text.isWordChar_of_isDigit (h c hc)

/-- Digits and an exponent stay; without a sign they are one word. -/
theorem replaceWords_mantissa (h : Proper value) {ds : List Char} {e : Option NumeralExponent}
    (hne : ds ≠ []) (hds : ∀ c ∈ ds, c.isDigit)
    (he : ∀ e' ∈ e, e'.digits ≠ [] ∧ ∀ c ∈ e'.digits, c.isDigit)
    (hrest : value (rest.takeWhile Text.isWordChar) = none) :
    replaceWords value false (ds ++ Numeral.exponentText e ++ rest) =
      ds ++ Numeral.exponentText e ++ replaceWords value false rest := by
  obtain ⟨d, ds, rfl⟩ := List.exists_cons_of_ne_nil hne
  have hd := hds d (List.mem_cons_self ..)
  have hwords := isWordChar_of_digits hds
  cases e with
  | none =>
    rw [Numeral.exponentText, List.append_nil]
    exact replaceWords_digits h hd hwords hrest
  | some e =>
    obtain ⟨sign, digits⟩ := e
    obtain ⟨hdigits, hes⟩ := he _ rfl
    obtain ⟨d', digits, rfl⟩ := List.exists_cons_of_ne_nil hdigits
    have hd' := hes d' (List.mem_cons_self ..)
    have hmark : ∀ c ∈ d :: (ds ++ ['e']), Text.isWordChar c := by
      intro c hc
      rcases List.mem_append.1 (List.cons_append ▸ hc) with hc | hc
      · exact hwords c hc
      · rw [List.mem_singleton.1 hc]
        decide
    have hexponent : replaceWords value false (d' :: digits ++ rest) =
        d' :: digits ++ replaceWords value false rest :=
      replaceWords_digits h hd' (isWordChar_of_digits hes) hrest
    -- a signed exponent makes two words, cut at the sign; an unsigned one belongs to the first word
    have hsplit : ∀ c, ¬ Text.isWordChar c → (c == '\\') = false →
        replaceWords value false (d :: (ds ++ ['e']) ++ c :: (d' :: digits ++ rest)) =
          d :: (ds ++ ['e']) ++ c :: (d' :: digits ++ replaceWords value false rest) := by
      intro c hc hslash
      rw [replaceWords_digits h hd hmark (by rw [List.takeWhile_cons_of_neg hc]; exact h.value_nil),
        replaceWords_cons_of_not hc, hslash, hexponent]
    cases sign with
    | plus => simpa [Numeral.exponentText, Sign.text] using hsplit '+' (by decide) (by decide)
    | minus => simpa [Numeral.exponentText, Sign.text] using hsplit '-' (by decide) (by decide)
    | missing =>
      have hall : ∀ c ∈ d :: (ds ++ ['e'] ++ d' :: digits), Text.isWordChar c := by
        intro c hc
        rw [← List.cons_append] at hc
        rcases List.mem_append.1 hc with hc | hc
        · exact hmark c hc
        · exact isWordChar_of_digits hes c hc
      have hone := replaceWords_digits h hd hall hrest
      simpa [Numeral.exponentText, Sign.text] using hone

/-- A numeral stays. -/
theorem replaceWords_numeral (h : Proper value) {n : Numeral} (hn : n.Plain)
    (hrest : value (rest.takeWhile Text.isWordChar) = none) :
    replaceWords value false (n.text ++ rest) = n.text ++ replaceWords value false rest := by
  obtain ⟨whole, decimals, exponent⟩ := n
  rw [Numeral.text]
  cases decimals with
  | nil =>
    have hmantissa := replaceWords_mantissa h hn.whole_ne_nil hn.whole hn.exponent hrest
    simpa [Numeral.decimalsText] using hmantissa
  | cons d decimals =>
    have hmantissa := replaceWords_mantissa h (List.cons_ne_nil d decimals) hn.decimals hn.exponent
      hrest
    obtain ⟨d', whole, rfl⟩ := List.exists_cons_of_ne_nil hn.whole_ne_nil
    have hpoint : ¬ Text.isWordChar '.' := by decide
    have hstop : value (('.' :: (d :: decimals ++ Numeral.exponentText exponent ++ rest)).takeWhile
        Text.isWordChar) = none := by
      rw [List.takeWhile_cons_of_neg hpoint]
      exact h.value_nil
    have hwhole := replaceWords_digits h (hn.whole d' (List.mem_cons_self ..))
      (isWordChar_of_digits hn.whole) hstop
    rw [replaceWords_cons_of_not hpoint, show ('.' == '\\') = false from rfl, hmantissa] at hwhole
    simpa [Numeral.decimalsText] using hwhole

/-! ### Groups and abbreviations -/

/-- A character that belongs to no word and starts no command. -/
abbrev Separates (c : Char) : Prop := ¬ Text.isWordChar c ∧ c ≠ '\\'

theorem replaceWords_cons (hc : Separates c) :
    replaceWords value command (c :: cs) = c :: replaceWords value false cs := by
  rw [replaceWords_cons_of_not hc.1, beq_eq_false_iff_ne.2 hc.2]

theorem replaceWords_append_sep (hc : Separates c) (front : List Char) :
    replaceWords value command (front ++ c :: cs) =
      replaceWords value command front ++ c :: replaceWords value false cs := by
  rw [replaceWords_append_cons hc.1, beq_eq_false_iff_ne.2 hc.2]

theorem replaceWords_command {w : List Char} (hw : w.all Text.isWordChar)
    (hrest : value (rest.takeWhile Text.isWordChar) = none) :
    replaceWords value command ('\\' :: (w ++ rest)) =
      '\\' :: (w ++ replaceWords value false rest) := by
  have hslash : ¬ Text.isWordChar '\\' := by decide
  rw [replaceWords_cons_of_not hslash, beq_self_eq_true,
    replaceWords_append (List.all_eq_true.1 hw) (.inl rfl) hrest]

theorem replaceWords_root (h : Proper value)
    (hrest : value (rest.takeWhile Text.isWordChar) = none) :
    replaceWords value false ("sqrt".toList ++ rest) =
      "sqrt".toList ++ replaceWords value false rest :=
  replaceWords_append (by simp [Text.isWordChar, Text.isNameChar]) (.inr h.value_root) hrest

/-- The characters that groups of an abbreviation stand between. -/
def delimiters : List Char := ['\x7b', '\x7d', '[', ']']

theorem not_isWordChar_of_delimiter (hc : c ∈ delimiters) : ¬ Text.isWordChar c := by
  simp only [delimiters, List.mem_cons, List.not_mem_nil, or_false] at hc
  rcases hc with rfl | rfl | rfl | rfl <;> decide

namespace Proper

/-- What is put in holds no braces and brackets. -/
theorem not_delimiter (h : Proper value) {w t : List Char} (hv : value w = some t) :
    ∀ c ∈ t, c ∉ delimiters := by
  obtain ⟨negative, numeral, hn, rfl⟩ := h.text hv
  have hnumeral : ∀ c ∈ numeral.text, c ∉ delimiters := by
    intro c hc hd
    rcases hn.mem_text c hc with hdigit | hmark
    · exact not_isWordChar_of_delimiter hd (Text.isWordChar_of_isDigit hdigit)
    · simp only [List.mem_cons, List.not_mem_nil, or_false] at hmark
      rcases hmark with rfl | rfl | rfl | rfl <;> simp [delimiters] at hd
  intro c hc
  cases negative with
  | false => exact hnumeral c hc
  | true =>
    rcases List.mem_append.1 hc with hc | hc
    · rcases List.mem_cons.1 hc with rfl | hc
      · simp [delimiters]
      · rcases List.mem_cons.1 hc with rfl | hc
        · simp [delimiters]
        · exact hnumeral c hc
    · rw [List.mem_singleton.1 hc]
      simp [delimiters]

/-- Groups stay balanced and nest as deep as before. -/
theorem inside_replaceWords (h : Proper value) {opening closing : Char} {limit : Int}
    (ho : opening ∈ delimiters) (hc : closing ∈ delimiters) :
    ∀ {inner : Int}, Group.Inside opening closing limit inner cs →
      Group.Inside opening closing limit inner (replaceWords value command cs) := by
  have hchars : ∀ d, Text.isWordChar d → d ≠ opening ∧ d ≠ closing := by
    intro d hd
    refine ⟨?_, ?_⟩
    · rintro rfl
      exact not_isWordChar_of_delimiter ho hd
    · rintro rfl
      exact not_isWordChar_of_delimiter hc hd
  fun_induction replaceWords value command cs
  case case1 => exact id
  case case2 command c cs hchar word ih =>
    intro inner hin
    have hplain : ∀ d ∈ word, d ≠ opening ∧ d ≠ closing := by
      intro d hd
      rcases List.mem_cons.1 hd with rfl | hd
      · exact hchars d hchar
      · exact hchars d (List.mem_takeWhile_imp hd)
    have hsplit : c :: cs = word ++ cs.dropWhile Text.isWordChar :=
      congrArg (c :: ·) List.takeWhile_append_dropWhile.symm
    -- neither a word nor what is put in for it has a delimiter, so the depth passes over both
    rw [hsplit, Group.Inside.append_iff hplain] at hin
    rw [Group.Inside.append_iff]
    · exact ih hin
    · cases command with
      | true => exact hplain
      | false =>
        cases hv : value word with
        | none => exact hplain
        | some t =>
          intro d hd
          have hnot := h.not_delimiter hv d hd
          exact ⟨fun heq => hnot (heq ▸ ho), fun heq => hnot (heq ▸ hc)⟩
  case case3 command c cs hchar ih =>
    intro inner hin
    obtain ⟨hnonneg, hlt, hin⟩ := Group.Inside.cons_iff.1 hin
    exact Group.Inside.cons_iff.2 ⟨hnonneg, hlt, ih hin⟩

end Proper

theorem value_takeWhile_blanks (h : Proper value) {u : List Char} (hu : ∀ c ∈ u, Text.isBlank c)
    (hc : Separates c) : value ((u ++ c :: cs).takeWhile Text.isWordChar) = none := by
  have hnil : (u ++ c :: cs).takeWhile Text.isWordChar = [] := by
    cases u with
    | nil => exact List.takeWhile_cons_of_neg hc.1
    | cons d u =>
      exact List.takeWhile_cons_of_neg (Text.not_isWordChar_of_isBlank (hu d (List.mem_cons_self ..)))
  rw [hnil]
  exact h.value_nil

/-- A fraction is replaced in its arguments, and so is its plain text. -/
theorem fraction_replaceWords (h : Proper value) {limit : Int} {text : List Char}
    (hfraction : Abbreviation.fraction limit cs = .found text) :
    Abbreviation.fraction limit (replaceWords value false cs) =
      .found (replaceWords value false text) := by
  obtain ⟨u, num, v, den, rest, hu, hv, hnum, hden, rfl, rfl⟩ :=
    Abbreviation.fraction_eq_found_iff.1 hfraction
  rw [Abbreviation.fraction_eq_found_iff]
  refine ⟨u, replaceWords value false num, v, replaceWords value false den,
    replaceWords value false rest, hu, hv, h.inside_replaceWords (by decide) (by decide) hnum,
    h.inside_replaceWords (by decide) (by decide) hden, ?_, ?_⟩
  · have hopening : Separates '\x7b' := by decide
    have hclosing : Separates '\x7d' := by decide
    have hname : "\\frac".toList = '\\' :: "frac".toList := rfl
    simp only [hname, List.append_assoc, List.cons_append]
    rw [replaceWords_command (by decide) (value_takeWhile_blanks h hu hopening),
      replaceWords_blanks hu, replaceWords_cons hopening, replaceWords_append_sep hclosing,
      replaceWords_blanks hv, replaceWords_cons hopening, replaceWords_append_sep hclosing]
  · have hopening : Separates '(' := by decide
    have hclosing : Separates ')' := by decide
    have hblank : Separates ' ' := by decide
    have hsign : Separates '/' := by decide
    simp only [Abbreviation.fractionText, List.append_assoc, List.cons_append, List.nil_append]
    rw [replaceWords_cons hopening, replaceWords_append_sep hclosing, replaceWords_cons hblank,
      replaceWords_cons hsign, replaceWords_cons hblank, replaceWords_cons hopening,
      replaceWords_append_sep hclosing, replaceWords_cons hblank]

/-- The plain text of a root is replaced in the radicand and in the degree. -/
theorem replaceWords_rootText (h : Proper value) (deg radicand rest : List Char) :
    replaceWords value false (Abbreviation.rootText deg radicand ++ rest) =
      Abbreviation.rootText (replaceWords value false deg) (replaceWords value false radicand) ++
        replaceWords value false rest := by
  have hopening : Separates '(' := by decide
  have hclosing : Separates ')' := by decide
  have hblank : Separates ' ' := by decide
  have hstop : ∀ cs, value ((' ' :: cs).takeWhile Text.isWordChar) = none :=
    fun cs => value_takeWhile_blanks h (u := []) nofun hblank
  have hroot : ∀ cs, replaceWords value false ('s' :: 'q' :: 'r' :: 't' :: ' ' :: cs) =
      's' :: 'q' :: 'r' :: 't' :: replaceWords value false (' ' :: cs) :=
    fun cs => replaceWords_root h (hstop cs)
  simp only [Abbreviation.rootText, List.append_assoc, List.cons_append, List.nil_append]
  rw [replaceWords_cons hopening, replaceWords_append_sep hclosing, replaceWords_cons hblank, hroot,
    replaceWords_cons hblank, replaceWords_cons hopening, replaceWords_append_sep hclosing,
    replaceWords_cons hblank]

/-- A root is replaced in its degree and its argument, and so is its plain text. -/
theorem root_replaceWords (h : Proper value) {limit : Int} {text : List Char}
    (hroot : Abbreviation.root limit cs = .found text) :
    Abbreviation.root limit (replaceWords value false cs) =
      .found (replaceWords value false text) := by
  have hopening : Separates '\x7b' := by decide
  have hclosing : Separates '\x7d' := by decide
  have hname : "\\sqrt".toList = '\\' :: "sqrt".toList := rfl
  obtain ⟨deg, radicand, rest, hrad, rfl, hcs⟩ := Abbreviation.root_eq_found_iff.1 hroot
  rw [Abbreviation.root_eq_found_iff, replaceWords_rootText h]
  refine ⟨_, _, _, h.inside_replaceWords (by decide) (by decide) hrad, rfl, ?_⟩
  -- a root without a degree has a 2 in its plain text, which stays as all digits do
  rcases hcs with ⟨u, hu, rfl, rfl⟩ | ⟨u, v, hu, hv, hdeg, rfl⟩
  · have htwo : replaceWords value false ['2'] = ['2'] := by
      have hdigits : replaceWords value false (['2'] ++ []) = ['2'] ++ replaceWords value false [] :=
        replaceWords_digits h (by decide) (by simp [Text.isWordChar, Text.isNameChar]) h.value_nil
      simpa [replaceWords] using hdigits
    refine .inl ⟨u, hu, htwo, ?_⟩
    simp only [hname, List.append_assoc, List.cons_append]
    rw [replaceWords_command (by decide) (value_takeWhile_blanks h hu hopening),
      replaceWords_blanks hu, replaceWords_cons hopening, replaceWords_append_sep hclosing]
  · have hopening' : Separates '[' := by decide
    have hclosing' : Separates ']' := by decide
    refine .inr ⟨u, v, hu, hv, h.inside_replaceWords (by decide) (by decide) hdeg, ?_⟩
    simp only [hname, List.append_assoc, List.cons_append]
    rw [replaceWords_command (by decide) (value_takeWhile_blanks h hu hopening'),
      replaceWords_blanks hu, replaceWords_cons hopening', replaceWords_append_sep hclosing',
      replaceWords_blanks hv, replaceWords_cons hopening, replaceWords_append_sep hclosing]

theorem expand_replaceWords (h : Proper value) {limit : Int} {text : List Char}
    (hexpand : Abbreviation.expand limit cs = .found text) :
    Abbreviation.expand limit (replaceWords value false cs) =
      .found (replaceWords value false text) := by
  rw [Abbreviation.expand_eq_found_iff] at hexpand ⊢
  exact hexpand.imp (fraction_replaceWords h) (root_replaceWords h)

end Substitution

end Reckon
