import Reckon.Proofs.Token.Group
import Reckon.Token.Front

/-!
Reading does not look across a seam.

A seam is the beginning of a text that continues nothing: no name character, underscore, point or
sign. What stands at the front of a text is the same whatever is written behind a seam, as long as
something stands there at all.

    front │ seam          x_ │ (…)       1e │ (…)       \frac{a}{b} │ \sqrt{c}
-/

namespace Reckon

/-- A character that may continue a name or a numeral. -/
def Text.continues (c : Char) : Bool :=
  isNameChar c || c = '_' || c = '.' || c = '+' || c = '-'

/-- A text that continues nothing that stands before it. -/
def Seam (cs : List Char) : Prop := ∀ c rest, cs = c :: rest → Text.continues c = false

namespace Seam

variable {cs : List Char}

theorem cons {c : Char} (h : Text.continues c = false) : Seam (c :: cs) := by
  rintro d rest heq
  obtain ⟨rfl, _⟩ := List.cons.inj heq
  exact h

theorem head_ne {c d : Char} {rest : List Char} (h : Seam (c :: rest))
    (hd : Text.continues d = true) : c ≠ d := by
  rintro rfl
  rw [h c rest rfl] at hd
  cases hd

theorem dropWhile_append {p : Char → Bool} (hp : ∀ c, p c → Text.continues c) (h : Seam cs)
    (front : List Char) : (front ++ cs).dropWhile p = front.dropWhile p ++ cs := by
  have hcs : cs.dropWhile p = cs := by
    cases cs with
    | nil => rfl
    | cons c rest =>
      have hc : ¬ p c = true := fun hc => h.head_ne (hp c hc) rfl
      rw [List.dropWhile_cons_of_neg hc]
  rw [List.dropWhile_append]
  split
  · next hempty => rw [hcs, List.isEmpty_iff.1 hempty, List.nil_append]
  · rfl

theorem takeWhile_append {p : Char → Bool} (hp : ∀ c, p c → Text.continues c) (h : Seam cs)
    (front : List Char) : (front ++ cs).takeWhile p = front.takeWhile p := by
  have happ := List.takeWhile_append_dropWhile (p := p) (l := front ++ cs)
  have hfront := List.takeWhile_append_dropWhile (p := p) (l := front)
  rw [h.dropWhile_append hp] at happ
  conv at happ => rhs; rw [← hfront]
  rw [← List.append_assoc] at happ
  exact List.append_cancel_right (List.append_cancel_right happ)

end Seam

theorem Text.continues_of_isNameChar {c : Char} (h : isNameChar c) : continues c := by
  simp [continues, h]

theorem Text.continues_of_isDigit {c : Char} (h : c.isDigit) : continues c :=
  continues_of_isNameChar (isNameChar_of_isDigit h)

theorem Seam.not_isNameChar {cs : List Char} (h : Seam cs) :
    ∀ d ∈ cs.head?, ¬ Text.isNameChar d := by
  intro d hd hname
  obtain ⟨rest, rfl⟩ := List.head?_eq_some_iff.1 hd
  exact h.head_ne (Text.continues_of_isNameChar hname) rfl

/-! ### Numerals and names before a seam -/

namespace Numeral

theorem spanDigits_append_seam {cs : List Char} (h : Seam cs) (front : List Char) :
    spanDigits (front ++ cs) = ((spanDigits front).1, (spanDigits front).2 ++ cs) := by
  rw [spanDigits, h.takeWhile_append fun _ => Text.continues_of_isDigit,
    h.dropWhile_append fun _ => Text.continues_of_isDigit]
  rfl

theorem scanDecimals_append_seam {cs : List Char} (h : Seam cs) (front : List Char) :
    scanDecimals (front ++ cs) = ((scanDecimals front).1, (scanDecimals front).2 ++ cs) := by
  match front with
  | [] =>
    match cs, h with
    | [], _ => rfl
    | c :: rest, h =>
      have hc : c ≠ '.' := h.head_ne (by decide)
      simp [scanDecimals, hc]
  | c :: front =>
    by_cases hc : c = '.'
    · subst hc
      rw [List.cons_append, scanDecimals, scanDecimals, spanDigits_append_seam h]
      obtain ⟨digits, rest⟩ := spanDigits front
      cases digits <;> rfl
    · simp [scanDecimals, hc]

theorem scan_append_seam {cs : List Char} (h : Seam cs) (front : List Char) :
    Sign.scan (front ++ cs) = ((Sign.scan front).1, (Sign.scan front).2 ++ cs) := by
  match front with
  | [] =>
    match cs, h with
    | [], _ => rfl
    | c :: rest, h =>
      have hplus : c ≠ '+' := h.head_ne (by decide)
      have hminus : c ≠ '-' := h.head_ne (by decide)
      simp [Sign.scan, hplus, hminus]
  | c :: front =>
    by_cases hminus : c = '-'
    · subst hminus
      rfl
    by_cases hplus : c = '+'
    · subst hplus
      rfl
    · simp [Sign.scan, hplus, hminus]

theorem scanExponent_append_seam {cs : List Char} (h : Seam cs) (front : List Char) :
    scanExponent (front ++ cs) = ((scanExponent front).1, (scanExponent front).2 ++ cs) := by
  match front with
  | [] =>
    match cs, h with
    | [], _ => rfl
    | c :: rest, h =>
      have hc : c ≠ 'e' := h.head_ne (by decide)
      simp [scanExponent, hc]
  | c :: front =>
    by_cases hc : c = 'e'
    · subst hc
      rw [List.cons_append, scanExponent, scanExponent, scan_append_seam h,
        spanDigits_append_seam h]
      obtain ⟨digits, rest⟩ := spanDigits (Sign.scan front).2
      cases digits <;> rfl
    · simp [scanExponent, hc]

theorem scan?_append_seam {cs : List Char} (h : Seam cs) (front : List Char) :
    scan? (front ++ cs) = (scan? front).map fun (n, rest) => (n, rest ++ cs) := by
  rw [scan?, scan?, spanDigits_append_seam h]
  obtain ⟨whole, rest⟩ := spanDigits front
  cases whole with
  | nil => rfl
  | cons d whole =>
    dsimp only
    rw [scanDecimals_append_seam h, scanExponent_append_seam h]
    rfl

end Numeral

theorem spanName_append_seam {cs : List Char} (h : Seam cs) (front : List Char) :
    spanName (front ++ cs) = ((spanName front).1, (spanName front).2 ++ cs) := by
  rw [spanName, h.takeWhile_append fun _ => Text.continues_of_isNameChar,
    h.dropWhile_append fun _ => Text.continues_of_isNameChar]
  rfl

theorem scanSubscript_append_seam {cs : List Char} (h : Seam cs) (front : List Char) :
    scanSubscript (front ++ cs) = ((scanSubscript front).1, (scanSubscript front).2 ++ cs) := by
  match front with
  | [] =>
    match cs, h with
    | [], _ => rfl
    | c :: rest, h =>
      have hc : c ≠ '_' := h.head_ne (by decide)
      simp [scanSubscript, hc]
  | c :: front =>
    by_cases hc : c = '_'
    · subst hc
      rw [List.cons_append, scanSubscript, scanSubscript, spanName_append_seam h]
      obtain ⟨subscript, rest⟩ := spanName front
      cases subscript <;> rfl
    · simp [scanSubscript, hc]

theorem scanName?_append_seam {cs : List Char} (h : Seam cs) (front : List Char) :
    scanName? (front ++ cs) = (scanName? front).map fun (name, rest) => (name, rest ++ cs) := by
  rw [scanName?, scanName?, spanName_append_seam h]
  obtain ⟨stem, rest⟩ := spanName front
  cases stem with
  | nil => rfl
  | cons c stem =>
    dsimp only
    rw [scanSubscript_append_seam h]
    rfl

/-! ### Spellings before a seam -/

namespace Token

theorem spellings_prefix_free :
    ∀ a ∈ spellings, ∀ b ∈ spellings, a.1.toList <+: b.1.toList → a = b := by
  decide +kernel

theorem spellings_names :
    ∀ a ∈ spellings, Text.isNameChar (a.1.toList.headD ' ') → a.1.toList.all Text.isNameChar := by
  decide +kernel

/-- A token is spelled at the front exactly where one of its spellings stands there. -/
theorem spelled?_eq_some_iff {cs written rest : List Char} {token : Token} :
    spelled? cs = some (token, written, rest) ↔
      ∃ s, (s, token) ∈ spellings ∧ written = s.toList ∧ cs = written ++ rest := by
  have hsound : ∀ {token written rest}, spelled? cs = some (token, written, rest) →
      ∃ s, (s, token) ∈ spellings ∧ written = s.toList ∧ cs = written ++ rest := by
    intro token written rest h
    obtain ⟨⟨s, token'⟩, hmem, hfound⟩ := List.exists_of_findSome?_eq_some h
    obtain ⟨rest', hrest, heq⟩ := Option.map_eq_some_iff.1 hfound
    simp only [Prod.mk.injEq] at heq
    obtain ⟨rfl, rfl, rfl⟩ := heq
    exact ⟨s, hmem, rfl, Text.behind?_eq_some.1 hrest⟩
  refine ⟨hsound, ?_⟩
  rintro ⟨s, hmem, rfl, hcs⟩
  cases hfound : spelled? cs with
  | none =>
    have hnone := List.findSome?_eq_none_iff.1 hfound (s, token) hmem
    simp [Text.behind?_eq_some.2 hcs] at hnone
  | some found =>
    obtain ⟨token', written', rest'⟩ := found
    obtain ⟨s', hmem', rfl, hcs'⟩ := hsound hfound
    have hprefix : s.toList <+: cs := ⟨rest, hcs.symm⟩
    have hprefix' : s'.toList <+: cs := ⟨rest', hcs'.symm⟩
    -- of two spellings that stand at the front one begins with the other, and no spelling begins another
    have hsame : (s, token) = (s', token') := by
      rcases List.prefix_or_prefix_of_prefix hprefix hprefix' with hle | hle
      · exact spellings_prefix_free _ hmem _ hmem' hle
      · exact (spellings_prefix_free _ hmem' _ hmem hle).symm
    obtain ⟨rfl, rfl⟩ := Prod.mk.inj hsame
    rw [hcs] at hcs'
    rw [List.append_cancel_left hcs']

/-- A text that starts with a name character is not spelled only because something follows it that
is no name character. -/
theorem spelled?_append_eq_none {c : Char} {front cs : List Char}
    (h : ∀ d ∈ cs.head?, ¬ Text.isNameChar d) (hc : Text.isNameChar c)
    (hnone : spelled? (c :: front) = none) : spelled? (c :: front ++ cs) = none := by
  rw [Option.eq_none_iff_forall_not_mem]
  rintro ⟨token, written, rest⟩ hsome
  obtain ⟨s, hmem, rfl, happ⟩ := spelled?_eq_some_iff.1 (Option.mem_def.1 hsome)
  rcases List.append_eq_append_iff.1 happ with ⟨more, hs, hcs⟩ | ⟨more, hfront, hrest⟩
  · -- the spelling goes on in what follows, with a name character
    cases more with
    | nil =>
      have hspelled : spelled? (c :: front) = some (token, s.toList, []) :=
        spelled?_eq_some_iff.2 ⟨s, hmem, rfl, by simpa using hs.symm⟩
      rw [hnone] at hspelled
      cases hspelled
    | cons d more =>
      have hall := spellings_names (s, token) hmem (by rw [hs]; exact hc)
      have hd : Text.isNameChar d := by
        refine List.all_eq_true.1 hall d ?_
        rw [hs]
        simp
      rw [hcs] at h
      exact h d rfl hd
  · have hspelled : spelled? (c :: front) = some (token, s.toList, more) :=
      spelled?_eq_some_iff.2 ⟨s, hmem, rfl, hfront⟩
    rw [hnone] at hspelled
    cases hspelled

end Token

/-! ### The front of a text before a seam -/

namespace Abbreviation

variable {limit : Int}

theorem expand_eq_absent {c : Char} (hc : c ≠ '\\') (cs : List Char) :
    expand limit (c :: cs) = .absent := by
  have hfrac : Text.behind? "\\frac".toList (c :: cs) = none := by
    simp [Text.behind?, hc.symm]
  have hsqrt : Text.behind? "\\sqrt".toList (c :: cs) = none := by
    simp [Text.behind?, hc.symm]
  rw [expand, fraction, hfrac]
  dsimp only
  rw [root, hsqrt]

theorem exists_backslash {cs text : List Char} (h : expand limit cs = .found text) :
    ∃ rest, cs = '\\' :: rest := by
  cases cs with
  | nil => cases h
  | cons c rest =>
    by_cases hc : c = '\\'
    · exact ⟨rest, by rw [hc]⟩
    · rw [expand_eq_absent hc] at h
      cases h

/-- What is written behind an abbreviation stays behind its expansion. -/
theorem expand_append {cs text : List Char} (h : expand limit cs = .found text)
    (behind : List Char) : expand limit (cs ++ behind) = .found (text ++ behind) := by
  rw [expand_eq_found_iff] at h ⊢
  rcases h with h | h
  · left
    rw [fraction_eq_found_iff] at h ⊢
    obtain ⟨u, num, v, den, rest, hu, hv, hnum, hden, rfl, rfl⟩ := h
    exact ⟨u, num, v, den, rest ++ behind, hu, hv, hnum, hden, by simp, by simp⟩
  · right
    rw [root_eq_found_iff] at h ⊢
    obtain ⟨deg, radicand, rest, hrad, rfl, ⟨u, hu, hdeg, rfl⟩ | ⟨u, v, hu, hv, hdeg, rfl⟩⟩ := h
    · exact ⟨deg, radicand, rest ++ behind, hrad, by simp, .inl ⟨u, hu, hdeg, by simp⟩⟩
    · exact ⟨deg, radicand, rest ++ behind, hrad, by simp, .inr ⟨u, v, hu, hv, hdeg, by simp⟩⟩

theorem spelled?_of_expand {cs text : List Char} (h : expand limit cs = .found text) :
    Token.spelled? cs = none := by
  rcases expand_eq_found_iff.1 h with h | h
  · obtain ⟨_, _, _, _, _, _, _, _, _, rfl, _⟩ := fraction_eq_found_iff.1 h
    simp [Token.spelled?, Token.spellings, Text.behind?]
  · obtain ⟨_, _, _, _, _, ⟨_, _, _, rfl⟩ | ⟨_, _, _, _, _, rfl⟩⟩ := root_eq_found_iff.1 h <;>
      simp [Token.spelled?, Token.spellings, Text.behind?]

end Abbreviation

namespace Front

variable {limit : Int} {cs : List Char}

/-- A text is expanded exactly where an abbreviation stands at its front. -/
theorem expanded_iff {front text : List Char} :
    ofText limit front = .expanded text ↔ Abbreviation.expand limit front = .found text := by
  constructor
  · intro h
    rw [ofText] at h
    split at h
    · cases h
    · split at h
      · next hexpand =>
        obtain rfl := Front.expanded.inj h
        exact hexpand
      · cases h
      · exact absurd h ((ofOperand_ne front).1 text)
  · intro h
    rw [ofText, Abbreviation.spelled?_of_expand h]
    dsimp only
    rw [h]

/-- Only the groups of an abbreviation can nest too deep. -/
theorem expand_of_tooDeep {front site : List Char} (h : ofText limit front = .tooDeep site) :
    Abbreviation.expand limit front = .tooDeep site := by
  rw [ofText] at h
  split at h
  · cases h
  · split at h
    · cases h
    · next hexpand =>
      obtain rfl := Front.tooDeep.inj h
      exact hexpand
    · exact absurd h ((ofOperand_ne front).2 site)

/-- An operand starts with a name character. -/
theorem isNameChar_of_ofOperand {front written rest : List Char} {token : Token}
    (h : ofOperand front = .lexeme token written rest) :
    ∃ c front', front = c :: front' ∧ Text.isNameChar c := by
  cases front with
  | nil => cases h
  | cons c front =>
    refine ⟨c, front, rfl, ?_⟩
    by_contra hc
    have hname : spanName (c :: front) = ([], c :: front) := by simp [spanName, hc]
    have hdigit : ¬ c.isDigit := fun hd => hc (Text.isNameChar_of_isDigit hd)
    have hdigits : Numeral.spanDigits (c :: front) = ([], c :: front) := by
      simp [Numeral.spanDigits, hdigit]
    rw [ofOperand, Numeral.scan?, hdigits] at h
    dsimp only at h
    rw [scanName?, hname] at h
    cases h

theorem ofOperand_append_seam (h : Seam cs) {front written rest : List Char} {token : Token}
    (hfront : ofOperand front = .lexeme token written rest) :
    ofOperand (front ++ cs) = .lexeme token written (rest ++ cs) := by
  rw [ofOperand] at hfront ⊢
  rw [Numeral.scan?_append_seam h]
  cases hscan : Numeral.scan? front with
  | some found =>
    obtain ⟨numeral, rest'⟩ := found
    rw [hscan] at hfront
    dsimp only [Option.map_some] at hfront ⊢
    cases hvalue : numeral.value with
    | error digits =>
      rw [hvalue] at hfront
      cases hfront
    | ok n =>
      rw [hvalue] at hfront
      obtain ⟨rfl, rfl, rfl⟩ := Front.lexeme.inj hfront
      rfl
  | none =>
    rw [hscan] at hfront
    dsimp only [Option.map_none] at hfront ⊢
    rw [scanName?_append_seam h]
    cases hname : scanName? front with
    | none =>
      rw [hname] at hfront
      cases hfront
    | some found =>
      obtain ⟨name, rest'⟩ := found
      rw [hname] at hfront
      obtain ⟨rfl, rfl, rfl⟩ := Front.lexeme.inj hfront
      rfl

/-- A token at the front is read off in the same way before a seam. -/
theorem lexeme_append_seam (h : Seam cs) {front written rest : List Char} {token : Token}
    (hfront : ofText limit front = .lexeme token written rest) :
    ofText limit (front ++ cs) = .lexeme token written (rest ++ cs) := by
  rw [ofText] at hfront
  cases hspelled : Token.spelled? front with
  | some found =>
    obtain ⟨token', written', rest'⟩ := found
    rw [hspelled] at hfront
    obtain ⟨rfl, rfl, rfl⟩ := Front.lexeme.inj hfront
    obtain ⟨s, hmem, hwritten, happ⟩ := Token.spelled?_eq_some_iff.1 hspelled
    have hspelled' : Token.spelled? (front ++ cs) = some (token', written', rest' ++ cs) :=
      Token.spelled?_eq_some_iff.2 ⟨s, hmem, hwritten, by rw [happ, List.append_assoc]⟩
    rw [ofText, hspelled']
  | none =>
    rw [hspelled] at hfront
    dsimp only at hfront
    split at hfront
    · cases hfront
    · cases hfront
    · obtain ⟨c, front', rfl, hc⟩ := isNameChar_of_ofOperand hfront
      have hslash : c ≠ '\\' := by
        rintro rfl
        exact absurd hc (by decide)
      rw [ofText, Token.spelled?_append_eq_none h.not_isNameChar hc hspelled]
      dsimp only
      rw [List.cons_append, Abbreviation.expand_eq_absent hslash]
      exact ofOperand_append_seam h hfront

theorem expanded_append {front text : List Char} (hfront : ofText limit front = .expanded text)
    (behind : List Char) : ofText limit (front ++ behind) = .expanded (text ++ behind) := by
  rw [expanded_iff] at hfront ⊢
  exact Abbreviation.expand_append hfront behind

end Front

end Reckon
