import Reckon.Proofs.Token.Name

/-!
What stands behind a token may be cut off.

Reading looks ahead, but never takes more than the token: a numeral looks for digits behind a point or
an exponent mark, a name for a character behind an underscore. Where these are missing they are
missing from every beginning of the text too. So a token that is read off the front is read off each
beginning of the text that it lies in, whatever the nesting limit is.

    1e-x       numeral 1, rest e-x          1e- │       numeral 1, rest e-
    x_ 1       name x, rest _ 1             x_ │        name x, rest _
-/

namespace Reckon

variable {cs y rest : List Char}

theorem dropWhile_cut {p : Char → Bool} (h : (cs ++ y).dropWhile p = rest ++ y) :
    cs.dropWhile p = rest := by
  rw [List.dropWhile_append] at h
  split at h
  · next hempty =>
    have hlength := congrArg List.length h
    have hle := (List.dropWhile_suffix (l := y) p).length_le
    rw [List.length_append] at hlength
    have hrest : rest = [] := List.length_eq_zero_iff.1 (by omega)
    rw [List.isEmpty_iff.1 hempty, hrest]
  · exact List.append_cancel_right h

theorem takeWhile_cut {p : Char → Bool} (h : (cs ++ y).dropWhile p = rest ++ y) :
    cs.takeWhile p = (cs ++ y).takeWhile p := by
  have hall := List.takeWhile_append_dropWhile (p := p) (l := cs ++ y)
  have hfront := List.takeWhile_append_dropWhile (p := p) (l := cs)
  rw [h, ← List.append_assoc] at hall
  rw [dropWhile_cut h] at hfront
  exact List.append_cancel_right (hfront.trans (List.append_cancel_right hall).symm)

theorem takeWhile_eq_nil_of_append {p : Char → Bool} (h : (cs ++ y).takeWhile p = []) :
    cs.takeWhile p = [] := by
  cases cs with
  | nil => rfl
  | cons c cs =>
    by_cases hc : p c
    · rw [List.cons_append, List.takeWhile_cons_of_pos hc] at h
      cases h
    · exact List.takeWhile_cons_of_neg hc

theorem eq_nil_of_append_eq {taken : List Char} (h : taken ++ (rest ++ y) = y) :
    taken = [] ∧ rest = [] := by
  have hlength := congrArg List.length h
  rw [List.length_append, List.length_append] at hlength
  exact ⟨List.length_eq_zero_iff.1 (by omega), List.length_eq_zero_iff.1 (by omega)⟩

/-! ### Numerals -/

namespace Numeral

variable {ds : List Char}

theorem spanDigits_cut (h : spanDigits (cs ++ y) = (ds, rest ++ y)) : spanDigits cs = (ds, rest) := by
  obtain ⟨htake, hdrop⟩ := Prod.mk.inj h
  rw [spanDigits, takeWhile_cut hdrop, dropWhile_cut hdrop, htake]

theorem spanDigits_eq_nil_of_append (h : (spanDigits (cs ++ y)).1 = []) :
    spanDigits cs = ([], cs) := by
  have hnil : (spanDigits cs).1 = [] := takeWhile_eq_nil_of_append h
  have happ := spanDigits_append cs
  rw [hnil, List.nil_append] at happ
  exact Prod.ext hnil happ

theorem decimalsText_eq_nil (h : decimalsText ds = []) : ds = [] := by
  cases ds with
  | nil => rfl
  | cons d ds => simp [decimalsText] at h

theorem exponentText_eq_nil {e : Option NumeralExponent} (h : exponentText e = []) : e = none := by
  cases e with
  | none => rfl
  | some e => cases h

theorem scanDecimals_of_ne {c : Char} (hc : c ≠ '.') : scanDecimals (c :: cs) = ([], c :: cs) := by
  simp [scanDecimals, hc]

theorem scanExponent_of_ne {c : Char} (hc : c ≠ 'e') : scanExponent (c :: cs) = (none, c :: cs) := by
  simp [scanExponent, hc]

theorem scanDecimals_cut (h : scanDecimals (cs ++ y) = (ds, rest ++ y)) :
    scanDecimals cs = (ds, rest) := by
  have happ : decimalsText ds ++ (rest ++ y) = cs ++ y := by
    have happ := scanDecimals_append (cs ++ y)
    rwa [h] at happ
  cases cs with
  | nil =>
    obtain ⟨hds, rfl⟩ := eq_nil_of_append_eq happ
    rw [decimalsText_eq_nil hds]
    rfl
  | cons c cs =>
    by_cases hc : c = '.'
    · subst hc
      rw [List.cons_append, scanDecimals] at h
      rw [scanDecimals]
      obtain ⟨digits, rest', hspan⟩ : ∃ digits rest', spanDigits (cs ++ y) = (digits, rest') :=
        ⟨_, _, rfl⟩
      rw [hspan] at h
      cases digits with
      | nil =>
        obtain ⟨rfl, hrest⟩ := Prod.mk.inj h
        obtain rfl : '.' :: cs = rest := List.append_cancel_right hrest
        rw [spanDigits_eq_nil_of_append (congrArg Prod.fst hspan)]
      | cons d digits =>
        obtain ⟨rfl, rfl⟩ := Prod.mk.inj h
        rw [spanDigits_cut hspan]
    · rw [List.cons_append, scanDecimals_of_ne hc] at h
      obtain ⟨rfl, hrest⟩ := Prod.mk.inj h
      obtain rfl : c :: cs = rest := List.append_cancel_right hrest
      exact scanDecimals_of_ne hc

theorem scan_cons_append (c : Char) :
    Sign.scan (c :: cs ++ y) = ((Sign.scan (c :: cs)).1, (Sign.scan (c :: cs)).2 ++ y) := by
  by_cases hminus : c = '-'
  · subst hminus
    rfl
  by_cases hplus : c = '+'
  · subst hplus
    rfl
  · simp [Sign.scan, hplus, hminus]

/-- The digits of an exponent stand behind its sign, and all of them in the text or none. -/
theorem scanExponent_cut {e : Option NumeralExponent}
    (h : scanExponent (cs ++ y) = (e, rest ++ y)) : scanExponent cs = (e, rest) := by
  have happ : exponentText e ++ (rest ++ y) = cs ++ y := by
    have happ := scanExponent_append (cs ++ y)
    rwa [h] at happ
  cases cs with
  | nil =>
    obtain ⟨he, rfl⟩ := eq_nil_of_append_eq happ
    rw [exponentText_eq_nil he]
    rfl
  | cons c cs =>
    by_cases hc : c = 'e'
    · subst hc
      cases cs with
      | nil =>
        -- no more than the mark is left of an exponent
        cases e with
        | none =>
          obtain rfl : rest = ['e'] := List.append_cancel_right happ
          rfl
        | some e =>
          have hdigits := (plain_scanExponent e (Option.mem_def.2 (congrArg Prod.fst h))).1
          have htail : e.sign.text ++ e.digits ++ (rest ++ y) = y := (List.cons.inj happ).2
          obtain ⟨hnil, _⟩ := eq_nil_of_append_eq htail
          exact absurd (List.append_eq_nil_iff.1 hnil).2 hdigits
      | cons d cs =>
        rw [List.cons_append, scanExponent, scan_cons_append] at h
        rw [scanExponent]
        obtain ⟨digits, rest', hspan⟩ :
            ∃ digits rest', spanDigits ((Sign.scan (d :: cs)).2 ++ y) = (digits, rest') :=
          ⟨_, _, rfl⟩
        rw [hspan] at h
        cases digits with
        | nil =>
          obtain ⟨rfl, hrest⟩ := Prod.mk.inj h
          obtain rfl : 'e' :: d :: cs = rest := List.append_cancel_right hrest
          rw [spanDigits_eq_nil_of_append (congrArg Prod.fst hspan)]
        | cons d digits =>
          obtain ⟨rfl, rfl⟩ := Prod.mk.inj h
          rw [spanDigits_cut hspan]
    · rw [List.cons_append, scanExponent_of_ne hc] at h
      obtain ⟨rfl, hrest⟩ := Prod.mk.inj h
      obtain rfl : c :: cs = rest := List.append_cancel_right hrest
      exact scanExponent_of_ne hc

/-- A numeral is scanned part after part. -/
theorem scan?_eq_some_iff {n : Numeral} :
    scan? cs = some (n, rest) ↔ n.whole ≠ [] ∧ ∃ rest₁ rest₂, spanDigits cs = (n.whole, rest₁) ∧
      scanDecimals rest₁ = (n.decimals, rest₂) ∧ scanExponent rest₂ = (n.exponent, rest) := by
  rw [scan?]
  obtain ⟨whole, rest₁⟩ := spanDigits cs
  cases whole with
  | nil =>
    constructor
    · intro h
      cases h
    · rintro ⟨hne, _, _, hspan, _⟩
      exact absurd (Prod.mk.inj hspan).1.symm hne
  | cons d whole =>
    constructor
    · intro h
      obtain ⟨rfl, rfl⟩ := Prod.mk.inj (Option.some.inj h)
      exact ⟨List.cons_ne_nil _ _, rest₁, (scanDecimals rest₁).2, rfl, rfl, rfl⟩
    · rintro ⟨_, rest₁', rest₂, hspan, hdecimals, hexponent⟩
      obtain ⟨hwhole, rfl⟩ := Prod.mk.inj hspan
      dsimp only
      rw [hdecimals]
      dsimp only
      rw [hexponent, hwhole]

/-- A numeral that lies in a beginning of the text is scanned off it. -/
theorem scan?_cut {n : Numeral} (h : scan? (cs ++ y) = some (n, rest ++ y)) :
    scan? cs = some (n, rest) := by
  obtain ⟨hne, rest₁, rest₂, hspan, hdecimals, hexponent⟩ := scan?_eq_some_iff.1 h
  -- what is left behind each part ends in `y`
  obtain rfl : exponentText n.exponent ++ rest ++ y = rest₂ := by
    have happ := scanExponent_append rest₂
    rwa [hexponent, ← List.append_assoc] at happ
  obtain rfl : decimalsText n.decimals ++ (exponentText n.exponent ++ rest) ++ y = rest₁ := by
    have happ := scanDecimals_append rest₁
    rwa [hdecimals, ← List.append_assoc] at happ
  exact scan?_eq_some_iff.2
    ⟨hne, _, _, spanDigits_cut hspan, scanDecimals_cut hdecimals, scanExponent_cut hexponent⟩

theorem scan?_eq_none_of_append (h : scan? (cs ++ y) = none) : scan? cs = none := by
  obtain ⟨whole, rest₁, hspan⟩ : ∃ whole rest₁, spanDigits (cs ++ y) = (whole, rest₁) :=
    ⟨_, _, rfl⟩
  rw [scan?, hspan] at h
  cases whole with
  | nil => rw [scan?, spanDigits_eq_nil_of_append (congrArg Prod.fst hspan)]
  | cons d whole => cases h

end Numeral

/-! ### Names -/

theorem spanName_cut {ds : List Char} (h : spanName (cs ++ y) = (ds, rest ++ y)) :
    spanName cs = (ds, rest) := by
  obtain ⟨htake, hdrop⟩ := Prod.mk.inj h
  rw [spanName, takeWhile_cut hdrop, dropWhile_cut hdrop, htake]

theorem spanName_eq_nil_of_append (h : (spanName (cs ++ y)).1 = []) : spanName cs = ([], cs) := by
  have hnil : (spanName cs).1 = [] := takeWhile_eq_nil_of_append h
  have happ := spanName_append cs
  rw [hnil, List.nil_append] at happ
  exact Prod.ext hnil happ

theorem scanSubscript_of_ne {c : Char} (hc : c ≠ '_') : scanSubscript (c :: cs) = ([], c :: cs) := by
  simp [scanSubscript, hc]

theorem scanSubscript_cut {sub : List Char} (h : scanSubscript (cs ++ y) = (sub, rest ++ y)) :
    scanSubscript cs = (sub, rest) := by
  cases cs with
  | nil =>
    have happ := scanSubscript_append ([] ++ y)
    rw [h] at happ
    obtain ⟨rfl, rfl⟩ := eq_nil_of_append_eq happ
    rfl
  | cons c cs =>
    by_cases hc : c = '_'
    · subst hc
      rw [List.cons_append, scanSubscript] at h
      rw [scanSubscript]
      obtain ⟨name, rest', hspan⟩ : ∃ name rest', spanName (cs ++ y) = (name, rest') := ⟨_, _, rfl⟩
      rw [hspan] at h
      cases name with
      | nil =>
        obtain ⟨rfl, hrest⟩ := Prod.mk.inj h
        obtain rfl : '_' :: cs = rest := List.append_cancel_right hrest
        rw [spanName_eq_nil_of_append (congrArg Prod.fst hspan)]
      | cons d name =>
        obtain ⟨rfl, rfl⟩ := Prod.mk.inj h
        rw [spanName_cut hspan]
    · rw [List.cons_append, scanSubscript_of_ne hc] at h
      obtain ⟨rfl, hrest⟩ := Prod.mk.inj h
      obtain rfl : c :: cs = rest := List.append_cancel_right hrest
      exact scanSubscript_of_ne hc

/-- A name that lies in a beginning of the text is scanned off it. -/
theorem scanName?_cut {name : List Char} (h : scanName? (cs ++ y) = some (name, rest ++ y)) :
    scanName? cs = some (name, rest) := by
  obtain ⟨stem, rest₁, hspan⟩ : ∃ stem rest₁, spanName (cs ++ y) = (stem, rest₁) := ⟨_, _, rfl⟩
  rw [scanName?, hspan] at h
  cases stem with
  | nil => cases h
  | cons c stem =>
    obtain ⟨rfl, hrest⟩ := Prod.mk.inj (Option.some.inj h)
    obtain ⟨sub, rest₂, hsub⟩ : ∃ sub rest₂, scanSubscript rest₁ = (sub, rest₂) := ⟨_, _, rfl⟩
    rw [hsub] at hrest ⊢
    obtain rfl : rest₂ = rest ++ y := hrest
    obtain rfl : sub ++ rest ++ y = rest₁ := by
      have happ := scanSubscript_append rest₁
      rwa [hsub, ← List.append_assoc] at happ
    rw [scanName?, spanName_cut hspan]
    dsimp only
    rw [scanSubscript_cut hsub]

/-! ### Tokens -/

namespace Front

variable {token : Token} {written : List Char}

theorem ofOperand_cut (h : ofOperand (cs ++ y) = .lexeme token written (rest ++ y)) :
    ofOperand cs = .lexeme token written rest := by
  rw [ofOperand] at h ⊢
  cases hscan : Numeral.scan? (cs ++ y) with
  | some found =>
    obtain ⟨n, rest'⟩ := found
    rw [hscan] at h
    dsimp only at h
    cases hvalue : n.value with
    | error digits =>
      rw [hvalue] at h
      cases h
    | ok w =>
      rw [hvalue] at h
      obtain ⟨rfl, rfl, rfl⟩ := Front.lexeme.inj h
      rw [Numeral.scan?_cut hscan]
      dsimp only
      rw [hvalue]
  | none =>
    rw [hscan] at h
    dsimp only at h
    rw [Numeral.scan?_eq_none_of_append hscan]
    cases hname : scanName? (cs ++ y) with
    | none =>
      rw [hname] at h
      cases h
    | some found =>
      obtain ⟨name, rest'⟩ := found
      rw [hname] at h
      obtain ⟨rfl, rfl, rfl⟩ := Front.lexeme.inj h
      rw [scanName?_cut hname]

/-- A token that lies in a beginning of the text is read off it, whatever the limit is. -/
theorem lexeme_cut {limit limit' : Int}
    (h : ofText limit (cs ++ y) = .lexeme token written (rest ++ y)) :
    ofText limit' cs = .lexeme token written rest := by
  rw [ofText] at h
  cases hspelled : Token.spelled? (cs ++ y) with
  | some found =>
    obtain ⟨token', written', rest'⟩ := found
    rw [hspelled] at h
    obtain ⟨rfl, rfl, rfl⟩ := Front.lexeme.inj h
    obtain ⟨s, hmem, hwritten, happ⟩ := Token.spelled?_eq_some_iff.1 hspelled
    rw [← List.append_assoc] at happ
    have hcut : Token.spelled? cs = some (token', written', rest) :=
      Token.spelled?_eq_some_iff.2 ⟨s, hmem, hwritten, List.append_cancel_right happ⟩
    rw [ofText, hcut]
  | none =>
    rw [hspelled] at h
    dsimp only at h
    split at h
    · cases h
    · cases h
    · have hcut := ofOperand_cut h
      obtain ⟨c, front, rfl, hc⟩ := isNameChar_of_ofOperand hcut
      -- an operand does not start with a backslash, so nothing is expanded there
      have hslash : c ≠ '\\' := by
        rintro rfl
        exact absurd hc (by decide)
      rw [ofText, Token.spelled?_prefix_eq_none hspelled]
      dsimp only
      rw [Abbreviation.expand_eq_absent hslash]
      exact hcut

end Front

end Reckon
