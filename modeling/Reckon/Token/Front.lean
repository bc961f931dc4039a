import Reckon.Number.Numeral
import Reckon.Text.Word
import Reckon.Token.Abbreviation
import Reckon.Token.Basic

/-!
What stands at the front of a text.

A fixed spelling, an abbreviation, a numeral, a name, in this order, or nothing that belongs to an
expression. The order matters in two places only: `sqrt` is an operator and not the beginning of a
name, and a name never starts with an ASCII digit, because a numeral takes it.

    front  ──▶  token and rest │ numeral too long │ expanded text │ group too deep │ foreign

What is written at the front and the text behind it make up the text.
-/

namespace Reckon

/-- The name characters at the front of a text, and the rest. -/
def spanName (cs : List Char) : List Char × List Char :=
  (cs.takeWhile Text.isNameChar, cs.dropWhile Text.isNameChar)

/-- An underscore and the name characters behind it; nothing where none follow it. -/
def scanSubscript : List Char → List Char × List Char
  | '_' :: cs =>
    match spanName cs with
    | ([], _) => ([], '_' :: cs)
    | (subscript, rest) => ('_' :: subscript, rest)
  | cs => ([], cs)

/-- A name at the front of a text, with at most one subscript, and the rest. -/
def scanName? (cs : List Char) : Option (List Char × List Char) :=
  match spanName cs with
  | ([], _) => none
  | (stem, rest) => some (stem ++ (scanSubscript rest).1, (scanSubscript rest).2)

/-- What stands at the front of a text. -/
inductive Front where
  /-- A token as it is written, and the text behind it. -/
  | lexeme (token : Token) (written rest : List Char)
  /-- An integer with too many digits: their count, the numeral as it is written, and the text behind
  it. -/
  | longNumeral (digits : Nat) (written rest : List Char)
  /-- An abbreviation: the text with its expansion in place. -/
  | expanded (text : List Char)
  /-- An abbreviation with groups nested too deep, from the opening delimiter that is one too many. -/
  | tooDeep (site : List Char)
  /-- Nothing that belongs to an expression. -/
  | foreign
  deriving Repr

namespace Front

/-- A numeral or a name at the front of a text. -/
def ofOperand (cs : List Char) : Front :=
  match Numeral.scan? cs with
  | some (numeral, rest) =>
    match numeral.value with
    | .ok n => .lexeme (.operand (.number n)) numeral.text rest
    | .error digits => .longNumeral digits numeral.text rest
  | none =>
    match scanName? cs with
    | some (name, rest) => .lexeme (.operand (.name (String.ofList name))) name rest
    | none => .foreign

/-- What stands at the front of a text, its groups held against the nesting limit. -/
def ofText (limit : Int) (cs : List Char) : Front :=
  match Token.spelled? cs with
  | some (token, written, rest) => .lexeme token written rest
  | none =>
    match Abbreviation.expand limit cs with
    | .found text => .expanded text
    | .tooDeep site => .tooDeep site
    | .absent => ofOperand cs

end Front

/-! ### A lexeme and the text behind it make up the text -/

theorem Token.spelled?_append {cs written rest : List Char} {token : Token}
    (h : spelled? cs = some (token, written, rest)) : written ++ rest = cs ∧ written ≠ [] := by
  obtain ⟨⟨spelling, token'⟩, hmem, h⟩ := List.exists_of_findSome?_eq_some h
  obtain ⟨rest', hrest, heq⟩ := Option.map_eq_some_iff.1 h
  simp only [Prod.mk.injEq] at heq
  obtain ⟨rfl, rfl, rfl⟩ := heq
  refine ⟨(Text.behind?_eq_some.1 hrest).symm, ?_⟩
  simp only [spellings, List.mem_cons, Prod.mk.injEq, List.not_mem_nil, or_false] at hmem
  rcases hmem with ⟨rfl, _⟩ | ⟨rfl, _⟩ | ⟨rfl, _⟩ | ⟨rfl, _⟩ | ⟨rfl, _⟩ | ⟨rfl, _⟩ | ⟨rfl, _⟩ |
    ⟨rfl, _⟩ | ⟨rfl, _⟩ | ⟨rfl, _⟩ | ⟨rfl, _⟩ | ⟨rfl, _⟩ | ⟨rfl, _⟩ <;> decide

theorem spanName_append (cs : List Char) : (spanName cs).1 ++ (spanName cs).2 = cs :=
  List.takeWhile_append_dropWhile

theorem scanSubscript_append (cs : List Char) :
    (scanSubscript cs).1 ++ (scanSubscript cs).2 = cs := by
  unfold scanSubscript
  split
  · next cs =>
    have happ := spanName_append cs
    split
    · rfl
    · next subscript rest _ hspan =>
      rw [hspan] at happ
      rw [List.cons_append, happ]
  · rfl

/-- A name and the text behind it make up the text. -/
theorem scanName?_append {cs name rest : List Char} (h : scanName? cs = some (name, rest)) :
    name ++ rest = cs ∧ name ≠ [] := by
  have happ := spanName_append cs
  unfold scanName? at h
  split at h
  · simp at h
  · next stem rest' hne hspan =>
    rw [hspan] at happ
    simp only [Option.some.injEq, Prod.mk.injEq] at h
    obtain ⟨rfl, rfl⟩ := h
    refine ⟨by rw [List.append_assoc, scanSubscript_append, happ], ?_⟩
    intro hnil
    exact hne (List.append_eq_nil_iff.1 hnil).1

/-- What is written at the front is part of the text, and not empty. -/
theorem Front.lexeme_append {limit : Int} {cs written rest : List Char} {token : Token}
    (h : ofText limit cs = .lexeme token written rest) : written ++ rest = cs ∧ written ≠ [] := by
  simp only [ofText] at h
  split at h
  · next hspelled =>
    simp only [Front.lexeme.injEq] at h
    obtain ⟨rfl, rfl, rfl⟩ := h
    exact Token.spelled?_append hspelled
  · split at h
    · simp at h
    · simp at h
    · simp only [ofOperand] at h
      split at h
      · next hnum =>
        split at h
        · simp only [Front.lexeme.injEq] at h
          obtain ⟨rfl, rfl, rfl⟩ := h
          obtain ⟨happ, hne⟩ := Numeral.scan?_append hnum
          exact ⟨happ, Numeral.text_ne_nil hne⟩
        · simp at h
      · split at h
        · next hname =>
          simp only [Front.lexeme.injEq] at h
          obtain ⟨rfl, rfl, rfl⟩ := h
          exact scanName?_append hname
        · simp at h

theorem Front.lexeme_weight {limit : Int} {cs written rest : List Char} {token : Token}
    (h : ofText limit cs = .lexeme token written rest) :
    Abbreviation.weight rest < Abbreviation.weight cs := by
  obtain ⟨happ, hne⟩ := lexeme_append h
  refine Abbreviation.weight_lt_of_suffix ⟨written, happ⟩ ?_
  have hpos := List.length_pos_iff.2 hne
  rw [← happ, List.length_append]
  omega

theorem Front.ofOperand_ne (cs : List Char) :
    (∀ text, ofOperand cs ≠ .expanded text) ∧ ∀ site, ofOperand cs ≠ .tooDeep site := by
  rw [ofOperand]
  split
  · split <;> exact ⟨nofun, nofun⟩
  · split <;> exact ⟨nofun, nofun⟩

/-- An expansion makes the text lighter. -/
theorem Front.expanded_weight {limit : Int} {cs text : List Char}
    (h : ofText limit cs = .expanded text) : Abbreviation.weight text < Abbreviation.weight cs := by
  simp only [ofText] at h
  split at h
  · simp at h
  · split at h
    · next hexpand =>
      simp only [Front.expanded.injEq] at h
      obtain rfl := h
      exact Abbreviation.weight_expand_lt hexpand
    · simp at h
    · exact absurd h ((ofOperand_ne cs).1 text)

end Reckon
