import Reckon.Text.Blank
import Reckon.Text.Spelling
import Reckon.Token.Group

/-!
Abbreviations: the two TeX forms that stand for plain text.

A fraction and a root are written with groups and read as the plain text they abbreviate. The text
takes the place of the abbreviation and is read on from its first character, so abbreviations inside
the groups need no care of their own.

    \frac{A}{B}     ──▶  (A) / (B)
    \sqrt[D]{A}     ──▶  (A) sqrt (D)
    \sqrt{A}        ──▶  (A) sqrt (2)

Blanks may stand before each group. Every expansion removes one backslash, and a text weighs less
after it than before; that is why reading ends.
-/

namespace Reckon

/-- Goes on with what was found. -/
def Search.bind {α β : Type} (s : Search α) (f : α → Search β) : Search β :=
  match s with
  | .absent => .absent
  | .tooDeep site => .tooDeep site
  | .found a => f a

@[simp] theorem Search.bind_eq_found {α β : Type} {f : α → Search β} {s : Search α} {b : β} :
    s.bind f = .found b ↔ ∃ a, s = .found a ∧ f a = .found b := by
  cases s <;> simp [Search.bind]

namespace Abbreviation

/-- The plain text of a fraction. -/
def fractionText (num den : List Char) : List Char :=
  '(' :: num ++ [')', ' ', '/', ' ', '('] ++ den ++ [')', ' ']

/-- The plain text of a root. -/
def rootText (degree radicand : List Char) : List Char :=
  '(' :: radicand ++ [')', ' ', 's', 'q', 'r', 't', ' ', '('] ++ degree ++ [')', ' ']

/-- The group in braces at the front of a text, blanks before it skipped, and the rest. -/
def argument (limit : Int) (cs : List Char) : Search (List Char × List Char) :=
  Group.scan '\x7b' '\x7d' limit (Text.skipBlanks cs)

/-- The degree of a root, in brackets, and the rest; the degree is two where none is written. -/
def degree (limit : Int) (cs : List Char) : Search (List Char × List Char) :=
  match Group.scan '[' ']' limit (Text.skipBlanks cs) with
  | .absent => .found (['2'], cs)
  | found => found

/-- A fraction at the front of a text, replaced by its plain text. -/
def fraction (limit : Int) (cs : List Char) : Search (List Char) :=
  match Text.behind? "\\frac".toList cs with
  | none => .absent
  | some rest =>
    (argument limit rest).bind fun (num, rest) =>
      (argument limit rest).map fun (den, rest) => fractionText num den ++ rest

/-- A root at the front of a text, replaced by its plain text. -/
def root (limit : Int) (cs : List Char) : Search (List Char) :=
  match Text.behind? "\\sqrt".toList cs with
  | none => .absent
  | some rest =>
    (degree limit rest).bind fun (degree, rest) =>
      (argument limit rest).map fun (radicand, rest) => rootText degree radicand ++ rest

/-- The text with the abbreviation at its front replaced by what it stands for. -/
def expand (limit : Int) (cs : List Char) : Search (List Char) :=
  match fraction limit cs with
  | .absent => root limit cs
  | found => found

/-! ### What an expansion does to the text -/

/-- How often a text can still be expanded at most. -/
def backslashes (cs : List Char) : Nat := cs.count '\\'

/-- How much reading a text still takes: each backslash outweighs what its expansion adds. -/
def weight (cs : List Char) : Nat := cs.length + 6 * backslashes cs

theorem argument_eq_found {limit : Int} {cs content rest : List Char}
    (h : argument limit cs = .found (content, rest)) :
    ∃ blanks, cs = blanks ++ '\x7b' :: content ++ '\x7d' :: rest := by
  obtain ⟨blanks, hblanks⟩ := Text.skipBlanks_suffix cs
  refine ⟨blanks, ?_⟩
  rw [argument] at h
  rw [← hblanks, Group.scan_eq_found h, List.append_assoc]

theorem degree_eq_found {limit : Int} {cs content rest : List Char}
    (h : degree limit cs = .found (content, rest)) :
    (content = ['2'] ∧ rest = cs) ∨ ∃ blanks, cs = blanks ++ '[' :: content ++ ']' :: rest := by
  simp only [degree] at h
  split at h
  · simp only [Search.found.injEq, Prod.mk.injEq] at h
    exact .inl ⟨h.1.symm, h.2.symm⟩
  · obtain ⟨blanks, hblanks⟩ := Text.skipBlanks_suffix cs
    refine .inr ⟨blanks, ?_⟩
    rw [← hblanks, Group.scan_eq_found h, List.append_assoc]

/-- A fraction that is expanded stands there in full. -/
theorem fraction_eq_found {limit : Int} {cs text : List Char}
    (h : fraction limit cs = .found text) :
    ∃ u num v den rest,
      cs = "\\frac".toList ++ u ++ '\x7b' :: num ++ '\x7d' :: v ++ '\x7b' :: den ++ '\x7d' :: rest ∧
      text = fractionText num den ++ rest := by
  simp only [fraction] at h
  split at h
  · simp at h
  · next rest₁ hfrac =>
    obtain ⟨⟨num, rest₂⟩, hnum, h⟩ := Search.bind_eq_found.1 h
    obtain ⟨⟨den, rest⟩, hden, h⟩ := Search.map_eq_found.1 h
    obtain ⟨u, hu⟩ := argument_eq_found hnum
    obtain ⟨v, hv⟩ := argument_eq_found hden
    refine ⟨u, num, v, den, rest, ?_, h.symm⟩
    dsimp only at hv
    rw [Text.behind?_eq_some.1 hfrac, hu, hv]
    simp

/-- A root that is expanded stands there in full, with or without a degree. -/
theorem root_eq_found {limit : Int} {cs text : List Char} (h : root limit cs = .found text) :
    ∃ degree radicand rest, text = rootText degree radicand ++ rest ∧
      ((∃ u, degree = ['2'] ∧
          cs = "\\sqrt".toList ++ u ++ '\x7b' :: radicand ++ '\x7d' :: rest) ∨
        ∃ u v, cs = "\\sqrt".toList ++ u ++ '[' :: degree ++ ']' :: v ++
          '\x7b' :: radicand ++ '\x7d' :: rest) := by
  simp only [root] at h
  split at h
  · simp at h
  · next rest₁ hroot =>
    obtain ⟨⟨deg, rest₂⟩, hdeg, h⟩ := Search.bind_eq_found.1 h
    obtain ⟨⟨radicand, rest⟩, hrad, h⟩ := Search.map_eq_found.1 h
    obtain ⟨v, hv⟩ := argument_eq_found hrad
    dsimp only at hv
    refine ⟨deg, radicand, rest, h.symm, ?_⟩
    rcases degree_eq_found hdeg with ⟨rfl, rfl⟩ | ⟨u, hu⟩
    · refine .inl ⟨v, rfl, ?_⟩
      rw [Text.behind?_eq_some.1 hroot, hv]
      simp
    · refine .inr ⟨u, v, ?_⟩
      rw [Text.behind?_eq_some.1 hroot, hu, hv]
      simp

theorem weight_expand_lt {limit : Int} {cs text : List Char}
    (h : expand limit cs = .found text) : weight text < weight cs := by
  simp only [expand] at h
  split at h
  · obtain ⟨degree, radicand, rest, rfl, ⟨u, rfl, rfl⟩ | ⟨u, v, rfl⟩⟩ := root_eq_found h <;>
      simp [weight, backslashes, rootText] <;> omega
  · obtain ⟨u, num, v, den, rest, rfl, rfl⟩ := fraction_eq_found h
    simp [weight, backslashes, fractionText]
    omega

theorem weight_le_of_suffix {cs ds : List Char} (h : cs <:+ ds) : weight cs ≤ weight ds := by
  have hlen := h.length_le
  have hcount : backslashes cs ≤ backslashes ds := h.sublist.count_le _
  simp only [weight]
  omega

theorem weight_lt_of_suffix {cs ds : List Char} (h : cs <:+ ds) (hlt : cs.length < ds.length) :
    weight cs < weight ds := by
  have hcount : backslashes cs ≤ backslashes ds := h.sublist.count_le _
  simp only [weight]
  omega

end Abbreviation

end Reckon
