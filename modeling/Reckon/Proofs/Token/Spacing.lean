import Reckon.Proofs.Program.Printing

/-!
Tokens that are written with blanks between them are read back.

An operator or a parenthesis is written in one of its forms, a natural number by its digits with any
zeros in front, a name as it is. Where a blank or the end stands behind each of them, no token is cut
short and none takes in what follows, so the text is read as the very tokens that were written.

    ␣007│␣\times│␣␣\left(│␣x_1│␣)│␣      ──▶      7  *  (  x_1  )

Every name that is read is one of those that can be written like this, even where the text goes wrong
further on.
-/

namespace Reckon

/-! ### How tokens are written -/

namespace Token

/-- The forms of a token that is no operand, plain and as in TeX. -/
def forms : Token → List String
  | .operand _ => []
  | .operator .equal => ["="]
  | .operator .multiply => ["*", "\\times", "\\cdot"]
  | .operator .divide => ["/"]
  | .operator .add => ["+"]
  | .operator .power => ["^"]
  | .operator .subtract => ["-"]
  | .operator .root => ["sqrt"]
  | .opening => ["(", "\\left("]
  | .closing => [")", "\\right)"]

theorem mem_spellings_iff {s : String} {token : Token} :
    (s, token) ∈ spellings ↔ s ∈ token.forms := by
  cases token with
  | operand a => simp [spellings, forms]
  | operator op => cases op <;> simp [spellings, forms]
  | opening => simp [spellings, forms]
  | closing => simp [spellings, forms]

/-- What may be written for a token: one of its forms, the digits of a natural number behind any zeros
that the digit limit has room for, or the name. -/
inductive Written : Token → List Char → Prop
  | form {token : Token} {s : String} : s ∈ token.forms → Written token s.toList
  | number (n zeros : Nat) : zeros + (Nat.toDigits 10 n).length ≤ Number.digitLimit →
      Written (.operand (.number (.int n))) (List.replicate zeros '0' ++ Nat.toDigits 10 n)
  | name {s : String} : (Operand.name s).IsPlain → Written (.operand (.name s)) s.toList

namespace Written

variable {token : Token} {w : List Char}

/-- Zeros in front of a number do not change it. -/
theorem spelled (h : token.Written w) : token.Spelled w := by
  cases h with
  | form hform => exact .fixed (mem_spellings_iff.2 hform)
  | number n zeros hlength =>
    have hroom : (List.replicate zeros '0' ++ Nat.toDigits 10 n).length ≤ Number.digitLimit := by
      simpa using hlength
    have hne : List.replicate zeros '0' ++ Nat.toDigits 10 n ≠ [] := by simp [Nat.toDigits_ne_nil]
    have hdigits : ∀ c ∈ List.replicate zeros '0' ++ Nat.toDigits 10 n, c.isDigit :=
      Layout.isDigit_append (Layout.isDigit_zeros zeros) (isDigit_toDigits n)
    have hvalue := Numeral.value_ofDigits hroom
    rw [Text.digitsValue_append, Text.digitsValue_zeros, Nat.zero_mul, Nat.zero_add,
      Text.digitsValue_toDigits] at hvalue
    have hspelled := Spelled.numeral (Numeral.plain_ofDigits hne hdigits) hvalue
    rw [Numeral.text_ofDigits] at hspelled
    exact hspelled
  | name hname => exact hname.spelled

theorem isPlain {a : Operand} (h : (Token.operand a).Written w) : a.IsPlain := by
  cases h with
  | form hform => cases hform
  | number n zeros hlength => exact ⟨Int.natCast_nonneg _, Nat.le_trans (Nat.le_add_left ..) hlength⟩
  | name hname => exact hname

end Written

/-- A token is written plainly in one of these ways, if an operand can be printed. -/
theorem written_plain {token : Token} (h : ∀ a, token = .operand a → a.IsPlain) :
    token.Written token.plain.toList := by
  cases token with
  | opening => exact .form (by simp [forms, plain])
  | closing => exact .form (by simp [forms, plain])
  | operator op => exact .form (by cases op <;> simp [forms, plain, Binary.sign])
  | operand a =>
    have ha := h a rfl
    cases a with
    | name s => exact .name ha
    | number n =>
      cases n with
      | float x => exact ha.elim
      | int n =>
        obtain ⟨hnonneg, hlength⟩ := ha
        obtain ⟨n, rfl⟩ := Int.eq_ofNat_of_zero_le hnonneg
        rw [Int.natAbs_natCast] at hlength
        have hwritten := Written.number n 0 ((Nat.zero_add _).symm ▸ hlength)
        rw [List.replicate_zero, List.nil_append, ← Number.toList_intText] at hwritten
        exact hwritten

end Token

/-! ### Blanks between tokens -/

/-- The text has the tokens with blanks around them: any before each token and at the end, and at least
one between two tokens. -/
inductive Spaced : List Token → List Char → Prop
  | blank {u : List Char} : (∀ c ∈ u, Text.isBlank c) → Spaced [] u
  | token {u w rest : List Char} {token : Token} {ts : List Token} :
      (∀ c ∈ u, Text.isBlank c) → token.Written w → Spaced ts rest →
      (∀ c ∈ rest.head?, Text.isBlank c) → Spaced (token :: ts) (u ++ w ++ rest)

namespace Spaced

variable {limit : Int} {ts : List Token} {text : List Char}

theorem reads (h : Spaced ts text) : Reads limit text ts := by
  induction h with
  | blank hu => exact .done (List.dropWhile_eq_nil_iff.2 hu)
  | token hu hwritten _ hhead ih =>
    rw [List.append_assoc]
    exact .blanks hu (.of_spelled hwritten.spelled hhead ih)

theorem isPlain (h : Spaced ts text) : ∀ a, .operand a ∈ ts → a.IsPlain := by
  induction h with
  | blank _ => exact nofun
  | token _ hwritten _ _ ih =>
    intro a ha
    rcases List.mem_cons.1 ha with rfl | ha
    · exact hwritten.isPlain
    · exact ih a ha

/-- Each token is written plainly behind a space. -/
theorem of_isPlain (h : ∀ a, .operand a ∈ ts → a.IsPlain) :
    Spaced ts (ts.flatMap fun token => ' ' :: token.plain.toList) := by
  have hspace : ∀ c ∈ [' '], Text.isBlank c := List.forall_mem_singleton.2 rfl
  induction ts with
  | nil => exact .blank nofun
  | cons token ts ih =>
    have hwritten : token.Written token.plain.toList :=
      Token.written_plain fun a ha => h a (ha ▸ List.mem_cons_self ..)
    have hrest := ih fun a ha => h a (List.mem_cons_of_mem _ ha)
    have hhead : ∀ c ∈ (ts.flatMap fun token => ' ' :: token.plain.toList).head?,
        Text.isBlank c := by
      cases ts with
      | nil => exact nofun
      | cons next ts => simpa using hspace
    exact .token hspace hwritten hrest hhead

end Spaced

/-! ### Names that are read -/

/-- All names before the end of a text, or before its first error, have the shape of names. -/
theorem Lexing.isPlain_of_mem {limit : Int} {c : Cursor} {s : String}
    (h : .operand (.name s) ∈ (ofCursor limit c).tokens) : (Operand.name s).IsPlain := by
  induction c using ofCursor_induction limit with
  | done c hnil =>
    rw [ofCursor_done hnil] at h
    cases h
  | token c token written rest hfront ih =>
    rw [ofCursor_token hfront] at h
    rcases List.mem_cons.1 h with rfl | h
    · exact isName_iff.1 (Front.isName_of_name hfront)
    · exact ih h
  | expanded c text hfront ih =>
    rw [ofCursor_expanded hfront] at h
    exact ih h
  | longNumeral c digits written rest hne hfront =>
    rw [ofCursor_longNumeral hne hfront] at h
    cases h
  | tooDeep c site hne hfront =>
    rw [ofCursor_tooDeep hne hfront] at h
    cases h
  | foreign c hne hfront =>
    rw [ofCursor_foreign hne hfront] at h
    cases h

/-! ### Writing and reading back -/

/-- The token lists that can be written with blanks between are those whose operands can be printed,
and each of them is read back from every such text. Every name that is read can be printed. -/
theorem tokenize_spaced (limit : Int) :
    (∀ ts : List Token,
      (∀ a, .operand a ∈ ts → a.IsPlain) ↔ ∃ text : String, Spaced ts text.toList) ∧
    (∀ (ts : List Token) (text : String), Spaced ts text.toList → tokenize limit text = .ok ts) ∧
    ∀ source s : String, .operand (.name s) ∈ (Lexing.ofText limit source.toList).tokens →
      (Operand.name s).IsPlain := by
  refine ⟨fun ts => ⟨fun h => ?_, fun ⟨_, h⟩ => h.isPlain⟩, fun ts text h => ?_, fun source s h => ?_⟩
  · refine ⟨String.ofList (ts.flatMap fun token => ' ' :: token.plain.toList), ?_⟩
    rw [String.toList_ofList]
    exact .of_isPlain h
  · exact tokenize_eq_ok_iff_reads.2 h.reads
  · exact Lexing.isPlain_of_mem h

/-- A product with zeros in front of the number, at a limit that no group keeps to. -/
theorem tokenize_spaced_product :
    let ts : List Token := [.operand (.number (.int 7)), .operator .multiply, .operand (.name "x_1")]
    let text := " 007 \\times\tx_1 "
    (∀ a, .operand a ∈ ts → a.IsPlain) ∧ Spaced ts text.toList ∧
      (∃ text : String, Spaced ts text.toList) ∧ tokenize (-1) text = .ok ts ∧
      .operand (.name "x_1") ∈ (Lexing.ofText (-1) text.toList).tokens ∧
      (Operand.name "x_1").IsPlain := by
  intro ts text
  have hspace : ∀ c ∈ [' '], Text.isBlank c := List.forall_mem_singleton.2 rfl
  have htab : ∀ c ∈ ['\t'], Text.isBlank c := List.forall_mem_singleton.2 rfl
  have hseven : (Token.operand (.number (.int 7))).Written ['0', '0', '7'] :=
    .number 7 2 (by decide)
  have htimes : (Token.operator .multiply).Written "\\times".toList := .form (by simp [Token.forms])
  have hname : (Operand.name "x_1").IsPlain :=
    ⟨⟨['x'], ['_', '1'], rfl, by decide, List.forall_mem_singleton.2 rfl,
      .inr ⟨['1'], rfl, by decide, List.forall_mem_singleton.2 rfl⟩⟩, by simp, by decide⟩
  have hspaced : Spaced ts ([' '] ++ ['0', '0', '7'] ++
      ([' '] ++ "\\times".toList ++ (['\t'] ++ "x_1".toList ++ [' ']))) :=
    .token hspace hseven (.token hspace htimes (.token htab (.name hname) (.blank hspace)
      (by simpa using hspace)) (by simpa using htab)) (by simpa using hspace)
  have htext : text.toList = [' '] ++ ['0', '0', '7'] ++
      ([' '] ++ "\\times".toList ++ (['\t'] ++ "x_1".toList ++ [' '])) := by simp [text]
  rw [← htext] at hspaced
  obtain ⟨hwritable, hread, hnames⟩ := tokenize_spaced (-1)
  have hplain := (hwritable ts).2 ⟨text, hspaced⟩
  have hok := hread ts text hspaced
  have hmem : .operand (.name "x_1") ∈ (Lexing.ofText (-1) text.toList).tokens := by
    rw [tokenize_eq_ok.1 hok]
    simp [ts]
  exact ⟨hplain, hspaced, (hwritable ts).1 hplain, hok, hmem, hnames text "x_1" hmem⟩

end Reckon
