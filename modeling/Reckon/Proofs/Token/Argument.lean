import Reckon.Proofs.Token.Balance
import Reckon.Proofs.Token.Cut

/-!
An argument before the parenthesis that closes it.

An expansion writes a parenthesis behind each argument, and two things may carry the reading of the
argument across it: a group that the argument leaves open, and a lone `\right`, which makes one token
with the parenthesis. Where neither is there, the argument is read as if it stood alone, and what
follows is read from the parenthesis on; so an argument that has no tokens of its own makes the whole
text unreadable.

    ( \frac{1}{2} x ) …        ──▶  tokens of \frac{1}{2} x, then ) …
    ( \sqrt[3 ) / ( 2]{x} )    ──▶  the degree of the root is  3 ) / ( 2
    ( 2\right) …               ──▶  \right) is one token
-/

namespace Reckon

variable {limit m : Int} {cs x rest text : List Char} {ts us : List Token}

theorem exists_of_append_parenthesis {w z : List Char} (hw : ')' ∉ w)
    (h : cs ++ ')' :: x = w ++ z) : ∃ cs', cs = w ++ cs' ∧ cs' ++ ')' :: x = z := by
  rcases List.append_eq_append_iff.1 h with ⟨more, rfl, hmore⟩ | ⟨more, rfl, hmore⟩
  · cases more with
    | nil => exact ⟨[], by simp, hmore⟩
    | cons c more =>
      obtain ⟨rfl, _⟩ := List.cons.inj hmore
      exact absurd (List.mem_append_right _ (List.mem_cons_self ..)) hw
  · exact ⟨more, rfl, hmore.symm⟩

/-! ### Abbreviations before a parenthesis -/

/-- A group behind a word and blanks that starts in a text ends in it, if the text closes all its
groups. -/
theorem Group.exists_cut {opening closing : Char} (hne : opening ≠ closing)
    (ho : Text.isBlank opening = false) (hc : Text.isBlank closing = false)
    (hparenthesis : opening ≠ ')')
    {w u content : List Char} (hw : Plain opening closing w) (hword : ')' ∉ w)
    (hu : ∀ c ∈ u, Text.isBlank c) (hcs : Closes opening closing m cs)
    (hcontent : Balanced opening closing content)
    (h : cs ++ ')' :: x = w ++ u ++ opening :: (content ++ closing :: rest)) :
    ∃ r, cs = w ++ u ++ opening :: (content ++ closing :: r) ∧ r ++ ')' :: x = rest ∧
      Closes opening closing m r := by
  have hfree : ')' ∉ w ++ u := by
    intro hmem
    rcases List.mem_append.1 hmem with hmem | hmem
    · exact hword hmem
    · exact absurd (hu _ hmem) (by decide)
  have hplain : Balanced opening closing (w ++ u) :=
    .of_plain (hw.append (.of_class ho hc hu))
  obtain ⟨front, rfl, hfront⟩ := exists_of_append_parenthesis hfree h
  have hopen : ')' ∉ [opening] := fun hmem => hparenthesis (List.mem_singleton.1 hmem).symm
  obtain ⟨tail, rfl, htail⟩ := exists_of_append_parenthesis hopen hfront
  obtain ⟨hm, hclose⟩ := Closes.cons_iff.1 (hplain.append_iff.1 hcs)
  rw [level_opening hne] at hclose
  obtain ⟨content', r, rfl, hcontent', hr⟩ := hclose.exists_group hne hm
  rw [List.append_assoc, List.cons_append] at htail
  obtain ⟨rfl, hrest⟩ := hcontent'.unique hne hcontent htail
  exact ⟨r, rfl, hrest, hr⟩

namespace Abbreviation

/-- A fraction that starts in a text that closes its braces ends in it. -/
theorem fraction_cut (hbraces : Group.Balanced '\x7b' '\x7d' cs)
    (h : fraction limit (cs ++ ')' :: x) = .found text) :
    ∃ text', fraction limit cs = .found text' ∧ text = text' ++ ')' :: x := by
  obtain ⟨u, num, v, den, rest, hu, hv, hnum, hden, hcs, rfl⟩ := fraction_eq_found_iff.1 h
  have hnum' := (Group.nested_iff.1 hnum).1
  have hden' := (Group.nested_iff.1 hden).1
  have hcs' : cs ++ ')' :: x = "\\frac".toList ++ u ++
      '\x7b' :: (num ++ '\x7d' :: ([] ++ v ++ '\x7b' :: (den ++ '\x7d' :: rest))) := by
    rw [hcs]
    simp
  obtain ⟨r, rfl, hr, hclose⟩ :=
    Group.exists_cut (by decide) rfl rfl (by decide) (by decide) (by decide) hu hbraces hnum' hcs'
  obtain ⟨r', rfl, rfl, _⟩ :=
    Group.exists_cut (w := []) (by decide) rfl rfl (by decide) (by decide) nofun hv hclose hden' hr
  refine ⟨fractionText num den ++ r', ?_, by rw [List.append_assoc]⟩
  exact fraction_eq_found_iff.2 ⟨u, num, v, den, r', hu, hv, hnum, hden, by simp, rfl⟩

/-- A root that starts in a text that closes its groups ends in it. -/
theorem root_cut (hbraces : Group.Balanced '\x7b' '\x7d' cs) (hbrackets : Group.Balanced '[' ']' cs)
    (h : root limit (cs ++ ')' :: x) = .found text) :
    ∃ text', root limit cs = .found text' ∧ text = text' ++ ')' :: x := by
  obtain ⟨deg, radicand, rest, hrad, rfl, hcases⟩ := root_eq_found_iff.1 h
  have hrad' := (Group.nested_iff.1 hrad).1
  rcases hcases with ⟨u, hu, rfl, hcs⟩ | ⟨u, v, hu, hv, hdeg, hcs⟩
  · have hcs' : cs ++ ')' :: x =
        "\\sqrt".toList ++ u ++ '\x7b' :: (radicand ++ '\x7d' :: rest) := by
      rw [hcs]
      simp
    obtain ⟨r, rfl, rfl, _⟩ :=
      Group.exists_cut (by decide) rfl rfl (by decide) (by decide) (by decide) hu hbraces hrad' hcs'
    refine ⟨rootText ['2'] radicand ++ r, ?_, by rw [List.append_assoc]⟩
    exact root_eq_found_iff.2 ⟨['2'], radicand, r, hrad, rfl, .inl ⟨u, hu, rfl, by simp⟩⟩
  · have hdeg' := (Group.nested_iff.1 hdeg).1
    have hcs' : cs ++ ')' :: x = "\\sqrt".toList ++ u ++
        '[' :: (deg ++ ']' :: ([] ++ v ++ '\x7b' :: (radicand ++ '\x7d' :: rest))) := by
      rw [hcs]
      simp
    obtain ⟨r, rfl, hr, _⟩ :=
      Group.exists_cut (by decide) rfl rfl (by decide) (by decide) (by decide) hu hbrackets hdeg' hcs'
    -- the degree may leave braces open, which are closed behind it
    have hsplit : "\\sqrt".toList ++ u ++ '[' :: (deg ++ ']' :: r) =
        ("\\sqrt".toList ++ u ++ '[' :: (deg ++ [']'])) ++ r := by simp
    rw [hsplit] at hbraces
    obtain ⟨_, hclose⟩ := Group.Closes.append_iff.1 hbraces
    obtain ⟨r', rfl, rfl, _⟩ :=
      Group.exists_cut (w := []) (by decide) rfl rfl (by decide) (by decide) nofun hv hclose hrad' hr
    refine ⟨rootText deg radicand ++ r', ?_, by rw [List.append_assoc]⟩
    exact root_eq_found_iff.2
      ⟨deg, radicand, r', hrad, rfl, .inr ⟨u, v, hu, hv, hdeg, by simp⟩⟩

/-- An abbreviation that starts in a text that closes its groups ends in it. -/
theorem expand_cut (hbraces : Group.Balanced '\x7b' '\x7d' cs)
    (hbrackets : Group.Balanced '[' ']' cs) (h : expand limit (cs ++ ')' :: x) = .found text) :
    ∃ text', expand limit cs = .found text' ∧ text = text' ++ ')' :: x := by
  rcases expand_eq_found_iff.1 h with h | h
  · obtain ⟨text', hfraction, htext⟩ := fraction_cut hbraces h
    exact ⟨text', expand_eq_found_iff.2 (.inl hfraction), htext⟩
  · obtain ⟨text', hroot, htext⟩ := root_cut hbraces hbrackets h
    exact ⟨text', expand_eq_found_iff.2 (.inr hroot), htext⟩

/-- How an expansion ends is how the text ends, if that holds no blank. -/
theorem suffix_of_expand {s : List Char} (hs : ' ' ∉ s) (h : expand limit cs = .found text)
    (hsuffix : s <:+ text) : s <:+ cs := by
  -- a plain text has a blank before what stands behind the abbreviation
  have hbehind {front rest : List Char} (hsuffix : s <:+ front ++ ' ' :: rest) : s <:+ rest := by
    rcases List.suffix_or_suffix_of_suffix hsuffix (List.suffix_append front (' ' :: rest)) with
      hle | ⟨more, hmore⟩
    · rcases List.suffix_cons_iff.1 hle with rfl | hle
      · exact absurd (List.mem_cons_self ..) hs
      · exact hle
    · rw [← hmore] at hs
      exact absurd (List.mem_append_right more (List.mem_cons_self ..)) hs
  rcases expand_eq_found_iff.1 h with h | h
  · obtain ⟨u, num, v, den, rest, _, _, _, _, rfl, rfl⟩ := fraction_eq_found_iff.1 h
    have htext : fractionText num den ++ rest =
        ('(' :: num ++ [')', ' ', '/', ' ', '('] ++ den ++ [')']) ++ ' ' :: rest := by
      simp [fractionText]
    rw [htext] at hsuffix
    exact (hbehind hsuffix).trans ((List.suffix_cons _ _).trans (List.suffix_append _ _))
  · obtain ⟨deg, radicand, rest, _, rfl, hcases⟩ := root_eq_found_iff.1 h
    have htext : rootText deg radicand ++ rest =
        ('(' :: radicand ++ [')', ' ', 's', 'q', 'r', 't', ' ', '('] ++ deg ++ [')']) ++
          ' ' :: rest := by
      simp [rootText]
    rw [htext] at hsuffix
    rcases hcases with ⟨u, _, _, rfl⟩ | ⟨u, v, _, _, _, rfl⟩
    · exact (hbehind hsuffix).trans ((List.suffix_cons _ _).trans (List.suffix_append _ _))
    · exact (hbehind hsuffix).trans ((List.suffix_cons _ _).trans (List.suffix_append _ _))

end Abbreviation

/-! ### Tokens before a parenthesis -/

theorem Token.spellings_parenthesis : ∀ a ∈ spellings, ')' ∈ a.1.toList →
    a.1.toList = [')'] ∨ a.1.toList = "\\right".toList ++ [')'] := by
  decide +kernel

/-- A token that starts in a text ends in it, if the text is not the beginning of a parenthesis. -/
theorem Front.lexeme_inside {written : List Char} {token : Token} (hne : cs ≠ [])
    (hright : cs ≠ "\\right".toList)
    (h : ofText limit (cs ++ ')' :: x) = .lexeme token written rest) :
    ∃ r, cs = written ++ r ∧ r ++ ')' :: x = rest := by
  obtain ⟨happ, _⟩ := lexeme_append h
  rcases List.append_eq_append_iff.1 happ with ⟨r, hcs, hrest⟩ | ⟨more, hwritten, hmore⟩
  · exact ⟨r, hcs, hrest.symm⟩
  cases more with
  | nil => exact ⟨[], by simpa using hwritten.symm, hmore⟩
  | cons c more =>
    -- what is written goes on with the parenthesis
    obtain ⟨rfl, _⟩ := List.cons.inj hmore
    have hmem : ')' ∈ written := by
      rw [hwritten]
      exact List.mem_append_right _ (List.mem_cons_self ..)
    rcases written_cases h with ⟨s, hs, rfl⟩ | hchars
    · rcases Token.spellings_parenthesis _ hs hmem with hshort | hlong
      · rw [hwritten] at hshort
        exact absurd (List.append_eq_singleton_iff.1 hshort) (by simp [hne])
      · rw [hwritten] at hlong
        obtain ⟨cs', rfl, hcs'⟩ := exists_of_append_parenthesis (by decide) hlong
        have hnil : cs' = [] := by
          rcases List.append_eq_singleton_iff.1 hcs' with ⟨hnil, _⟩ | ⟨_, hcons⟩
          · exact hnil
          · cases hcons
        rw [hnil, List.append_nil] at hright
        exact absurd rfl hright
    · exact absurd (hchars _ hmem) (by decide)

theorem Text.skipBlanks_append_parenthesis :
    skipBlanks (cs ++ ')' :: x) = skipBlanks cs ++ ')' :: x := by
  have hparenthesis : skipBlanks (')' :: x) = ')' :: x := skipBlanks_cons_of_not x (by decide)
  simp only [skipBlanks] at hparenthesis ⊢
  rw [List.dropWhile_append, hparenthesis]
  split
  · next hempty => rw [List.isEmpty_iff.1 hempty, List.nil_append]
  · rfl

namespace Reads

theorem congr {ds : List Char} (hskip : Text.skipBlanks cs = Text.skipBlanks ds)
    (h : Reads limit cs ts) : Reads limit ds ts := by
  cases h with
  | done hnil => exact .done (by rw [← hskip, hnil])
  | token hfront hrest => exact .token (by rw [← hskip]; exact hfront) hrest
  | expanded hfront htext => exact .expanded (by rw [← hskip]; exact hfront) htext

theorem split_blanks (hcs : Text.skipBlanks cs = []) (h : Reads limit (cs ++ ')' :: x) us) :
    Reads limit cs [] ∧ Reads limit (')' :: x) us := by
  obtain ⟨u, hu, hblanks⟩ := Text.exists_blanks cs
  rw [hcs, List.append_nil] at hblanks
  subst hblanks
  exact ⟨.done hcs, h.congr (Text.skipBlanks_append hu)⟩

/-- A text that closes its groups and does not end in the beginning of a parenthesis is read before a
parenthesis as if it stood alone. -/
theorem split (h : Reads limit (cs ++ ')' :: x) us) (hbraces : Group.Balanced '\x7b' '\x7d' cs)
    (hbrackets : Group.Balanced '[' ']' cs) (hright : ¬ "\\right".toList <:+ cs) :
    ∃ ts vs, us = ts ++ vs ∧ Reads limit cs ts ∧ Reads limit (')' :: x) vs := by
  generalize hall : cs ++ ')' :: x = all at h
  induction h generalizing cs with
  | done hnil =>
    rw [← hall, Text.skipBlanks_append_parenthesis] at hnil
    simp at hnil
  | @token _ written rest token ts hfront hrest ih =>
    subst hall
    by_cases hblank : Text.skipBlanks cs = []
    · obtain ⟨hcs, hx⟩ := split_blanks hblank (.token hfront hrest)
      exact ⟨[], _, rfl, hcs, hx⟩
    have hright' : Text.skipBlanks cs ≠ "\\right".toList := fun heq =>
      hright (heq ▸ Text.skipBlanks_suffix cs)
    rw [Text.skipBlanks_append_parenthesis] at hfront
    -- the token ends before the parenthesis: only `\right` would take it along
    obtain ⟨r, hr, rfl⟩ := Front.lexeme_inside hblank hright' hfront
    have hcut : Front.ofText limit (Text.skipBlanks cs) = .lexeme token written r :=
      Front.lexeme_cut hfront
    rw [← Group.balanced_skipBlanks rfl rfl, Group.balanced_lexeme rfl rfl hcut]
      at hbraces hbrackets
    have hsuffix : r <:+ cs := .trans ⟨written, hr.symm⟩ (Text.skipBlanks_suffix cs)
    obtain ⟨ts, vs, rfl, hts, hvs⟩ :=
      ih hbraces hbrackets (fun hend => hright (hend.trans hsuffix)) rfl
    exact ⟨token :: ts, vs, rfl, .token hcut hts, hvs⟩
  | @expanded _ text ts hfront hrest ih =>
    subst hall
    rw [Text.skipBlanks_append_parenthesis, Front.expanded_iff] at hfront
    rw [← Group.balanced_skipBlanks rfl rfl] at hbraces hbrackets
    -- the groups of an abbreviation are closed before the parenthesis
    obtain ⟨text', hexpand, rfl⟩ := Abbreviation.expand_cut hbraces hbrackets hfront
    obtain ⟨hbraces', hbrackets'⟩ := @Abbreviation.expand_closes_iff limit 0 _ _ hexpand
    have hright' : ¬ "\\right".toList <:+ text' := fun hend =>
      hright ((Abbreviation.suffix_of_expand (by decide) hexpand hend).trans
        (Text.skipBlanks_suffix cs))
    obtain ⟨ts, vs, rfl, hts, hvs⟩ :=
      ih (hbraces'.1 hbraces) (hbrackets'.1 hbrackets) hright' rfl
    exact ⟨ts, vs, rfl, .expanded (Front.expanded_iff.2 hexpand) hts, hvs⟩

end Reads

end Reckon
