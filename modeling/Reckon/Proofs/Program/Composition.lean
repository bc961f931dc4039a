import Reckon.Proofs.Program.Frame
import Reckon.Proofs.Token.Balance

/-!
Parsing is compositional.

A text that is parsed with nothing ignored is read as the tokens of a draft without gaps, and the other
way round. Parentheses make such a draft the tightest of operands, whatever stands around it; so the
programs of the parts follow one another in the program of the whole. A text that has tokens is balanced
in braces and in brackets, so an abbreviation takes exactly the arguments that were written.

    ( A )          a              \frac{A}{B}      a b div
    - ( A )        a uminus       \sqrt[D]{A}      a d sqrt
    ( A ) + ( B )  a b plus       \sqrt{A}         a 2 sqrt
-/

namespace Reckon

theorem parse_eq {limit : Int} {source : String} {p : Program}
    (hresult : (parse limit source).result = .ok p) (hignored : (parse limit source).ignored = 0) :
    parse limit source = ⟨.ok p, 0⟩ := by
  rw [← hresult, ← hignored]

/-- A text is parsed with nothing ignored where its tokens have a draft that lists one value, or
nothing, and at most one equals sign. -/
theorem parse_eq_iff_draft {limit : Int} {source : String} {p : Program} :
    parse limit source = ⟨.ok p, 0⟩ ↔ ∃ ts b g, Reads limit source.toList ts ∧ Draft b 0 g p ts ∧
      p.count .equals ≤ 1 ∧ checkOperands p = .ok () := by
  constructor
  · intro h
    obtain ⟨ts, _, hreads, _, _, _⟩ := parse_eq_iff.1 h
    rw [parse, tokenize_eq_ok.1 (tokenize_eq_ok_iff_reads.2 hreads)] at h
    have hresult : (Parsing.ofLexing ⟨ts, none⟩).result = .ok p := by rw [h]
    have hunmatched := Parsing.ignored_eq_of_ok hresult
    rw [h] at hunmatched
    obtain ⟨⟨b, g, hdraft⟩, hequals, hcheck⟩ :=
      (Parsing.ofLexing_eq_ok (Token.matched_iff.2 hunmatched.symm)).1 hresult
    exact ⟨ts, b, g, hreads, hdraft, hequals, hcheck⟩
  · rintro ⟨ts, b, g, hreads, hdraft, hequals, hcheck⟩
    rw [parse, tokenize_eq_ok.1 (tokenize_eq_ok_iff_reads.2 hreads)]
    exact Parsing.ofLexing_draft hdraft hequals hcheck

theorem Reads.append_seam {limit : Int} {cs ds : List Char} {ts us : List Token}
    (h : Reads limit cs ts) (hseam : Seam ds) (h' : Reads limit ds us) :
    Reads limit (cs ++ ds) (ts ++ us) := by
  obtain ⟨behind, hrest⟩ := Lexing.ofCursor_append_seam h []
  have hds : Lexing.ofCursor limit ⟨behind, ds⟩ = ⟨us, none⟩ := Lexing.ofCursor_eq_iff_reads.2 h'
  have hall : Lexing.ofCursor limit ⟨[], cs ++ ds⟩ = ⟨ts ++ us, none⟩ := by
    rw [hrest ds hseam, hds]
    rfl
  exact Lexing.ofCursor_eq_iff_reads.1 hall

theorem Reads.two (limit : Int) : Reads limit ['2'] [.operand (.number (.int 2))] := by
  have hfront : Front.ofText limit ['2'] = .lexeme (.operand (.number (.int 2))) ['2'] [] := rfl
  exact of_front hfront (.done rfl)

theorem Token.seam_closing {c : String} (hc : (c, Token.closing) ∈ spellings) : Seam c.toList := by
  simp only [spellings, List.mem_cons, Prod.mk.injEq, reduceCtorEq, and_true, and_false, false_or,
    List.not_mem_nil, or_false] at hc
  rcases hc with rfl | rfl <;> exact Seam.cons (by decide)

/-! ### Texts that list a program -/

/-- The text is read as the tokens of a draft of that rank, which has no gap and lists the program. -/
def Lists (limit : Int) (k : Nat) (cs : List Char) (p : Program) : Prop :=
  ∃ ts, Reads limit cs ts ∧ Draft true k 0 p ts

namespace Lists

variable {limit : Int} {k : Nat} {cs ds text : List Char} {p q : Program}

theorem of_draft {b : Bool} {ts : List Token} (hreads : Reads limit cs ts)
    (hdraft : Draft b k 0 p ts) : Lists limit k cs p := by
  cases b with
  | true => exact ⟨ts, hreads, hdraft⟩
  | false => exact absurd (hdraft.gaps_pos rfl) (Nat.lt_irrefl 0)

/-- A text that is parsed with nothing ignored lists its program, if that is not empty. -/
theorem of_parse {source : String} (h : parse limit source = ⟨.ok p, 0⟩) (hne : p ≠ []) :
    Lists limit 0 source.toList p := by
  obtain ⟨ts, b, g, hreads, hdraft, _, hcheck⟩ := parse_eq_iff_draft.1 h
  obtain rfl := hdraft.gaps_eq_zero hne hcheck
  exact of_draft hreads hdraft

theorem parse {source : String} (h : Lists limit 0 source.toList p) (hequals : p.count .equals ≤ 1) :
    Reckon.parse limit source = ⟨.ok p, 0⟩ := by
  obtain ⟨ts, hreads, hdraft⟩ := h
  refine parse_eq_iff_draft.2 ⟨ts, true, 0, hreads, hdraft, hequals, ?_⟩
  obtain ⟨t, _, rfl⟩ := hdraft.exists_phrase rfl (by rw [← hdraft.count_equals]; exact hequals)
  exact checkOperands_eq_ok.2 (.inr (depthAfter_postorder 0 t))

theorem loosen {k' : Nat} (h : Lists limit k cs p) (hk : k' ≤ k) : Lists limit k' cs p := by
  obtain ⟨ts, hreads, hdraft⟩ := h
  exact ⟨ts, hreads, hdraft.antitone hk⟩

theorem append_blank (h : Lists limit k cs p) : Lists limit k (cs ++ [' ']) p := by
  obtain ⟨ts, hreads, hdraft⟩ := h
  have hblank : Reads limit [' '] [] := .done rfl
  have hall := hreads.append_seam (Seam.cons (by decide)) hblank
  rw [List.append_nil] at hall
  exact ⟨ts, hall, hdraft⟩

theorem group {o c : String} (ho : (o, Token.opening) ∈ Token.spellings)
    (hc : (c, Token.closing) ∈ Token.spellings) (h : Lists limit 0 cs p) :
    Lists limit 4 (o.toList ++ (cs ++ c.toList)) p := by
  obtain ⟨ts, hreads, hdraft⟩ := h
  have hend : Reads limit c.toList [.closing] := by
    have hclose : Reads limit (c.toList ++ []) [.closing] := .of_spelling hc (.done rfl)
    rwa [List.append_nil] at hclose
  exact ⟨_, .of_spelling ho (hreads.append_seam (Token.seam_closing hc) hend), hdraft.group⟩

theorem negate (h : Lists limit 4 cs p) : Lists limit 4 ('-' :: cs) (p ++ [.operator .negate]) := by
  obtain ⟨ts, hreads, hdraft⟩ := h
  have hminus : ("-", Token.operator .subtract) ∈ Token.spellings := by simp [Token.spellings]
  exact ⟨_, .of_spelling hminus hreads, hdraft.negate⟩

/-- An operator between two operands. -/
theorem chain {s : String} {op : Binary} (hs : (s, Token.operator op) ∈ Token.spellings)
    (h : Lists limit 4 cs p) (h' : Lists limit 4 ds q) :
    Lists limit 0 (cs ++ ' ' :: (s.toList ++ ' ' :: ds)) (p ++ q ++ [.operator (.binary op)]) := by
  obtain ⟨ts, hreads, hdraft⟩ := h
  obtain ⟨us, hreads', hdraft'⟩ := h'
  have hblank : ∀ c ∈ [' '], Text.isBlank c := List.forall_mem_singleton.2 rfl
  have hright : Reads limit (' ' :: ds) us := .blanks hblank hreads'
  have hoperator : Reads limit (' ' :: (s.toList ++ ' ' :: ds)) (.operator op :: us) :=
    .blanks hblank (.of_spelling hs hright)
  have hrank := op.rank_le
  have hchain : Draft true op.rank (0 + 0) _ _ :=
    .chain rfl (hdraft.antitone (by omega)) (hdraft'.antitone (by omega))
  exact ⟨_, hreads.append_seam (Seam.cons (by decide)) hoperator, hchain.antitone (Nat.zero_le _)⟩

theorem expand (hexpand : Abbreviation.expand limit cs = .found text) (h : Lists limit k text p) :
    Lists limit k cs p := by
  obtain ⟨ts, hreads, hdraft⟩ := h
  exact ⟨ts, .of_expand hexpand hreads, hdraft⟩

theorem two (limit : Int) : Lists limit 0 ['2'] [.operand (.number (.int 2))] :=
  ⟨_, .two limit, (Draft.operand _).antitone (Nat.zero_le _)⟩

theorem nested (h : Lists limit k cs p) :
    (Group.Shallow '\x7b' '\x7d' limit cs → Group.Nested '\x7b' '\x7d' limit cs) ∧
    (Group.Shallow '[' ']' limit cs → Group.Nested '[' ']' limit cs) := by
  obtain ⟨ts, hreads, _⟩ := h
  obtain ⟨hbraces, hbrackets⟩ := hreads.balanced
  exact ⟨fun hshallow => Group.nested_iff.2 ⟨hbraces, hshallow⟩,
    fun hshallow => Group.nested_iff.2 ⟨hbrackets, hshallow⟩⟩

theorem operands {s : String} {op : Binary} (hs : (s, Token.operator op) ∈ Token.spellings)
    (h : Lists limit 0 cs p) (h' : Lists limit 0 ds q) :
    Lists limit 0 ('(' :: (cs ++ ')' :: ' ' :: (s.toList ++ ' ' :: '(' :: (ds ++ [')']))))
      (p ++ q ++ [.operator (.binary op)]) := by
  have hgroup := group Token.opening_mem Token.closing_mem h
  have hgroup' := group Token.opening_mem Token.closing_mem h'
  simpa using chain hs hgroup hgroup'

theorem fraction {text : List Char}
    (hfraction : Abbreviation.fraction limit text = .found (Abbreviation.fractionText cs ds))
    (h : Lists limit 0 cs p) (h' : Lists limit 0 ds q) :
    Lists limit 0 text (p ++ q ++ [.operator (.binary .divide)]) := by
  have htext := (operands Token.divide_mem h h').append_blank
  refine expand (Abbreviation.expand_eq_found_iff.2 (.inl hfraction)) ?_
  simpa [Abbreviation.fractionText] using htext

/-- A root lists its radicand before its degree. -/
theorem root {text : List Char}
    (hroot : Abbreviation.root limit text = .found (Abbreviation.rootText ds cs))
    (h : Lists limit 0 cs p) (h' : Lists limit 0 ds q) :
    Lists limit 0 text (p ++ q ++ [.operator (.binary .root)]) := by
  have htext := (operands Token.root_mem h h').append_blank
  refine expand (Abbreviation.expand_eq_found_iff.2 (.inr hroot)) ?_
  simpa [Abbreviation.rootText] using htext

end Lists

/-- What is parsed with nothing ignored is an operand in parentheses, and an argument of an
abbreviation as long as its groups are not nested too deep: the programs of the parts follow one
another, and nothing is ignored. -/
theorem parse_composition {limit : Int} {A B D : String} {a b d : Program}
    (hA : parse limit A = ⟨.ok a, 0⟩) (hB : parse limit B = ⟨.ok b, 0⟩)
    (hD : parse limit D = ⟨.ok d, 0⟩) (ha : a ≠ []) (hb : b ≠ []) (hd : d ≠ []) :
    parse limit ("(" ++ A ++ ")") = ⟨.ok a, 0⟩ ∧
    parse limit ("\\left(" ++ A ++ "\\right)") = ⟨.ok a, 0⟩ ∧
    parse limit ("-(" ++ A ++ ")") = ⟨.ok (a ++ [.operator .negate]), 0⟩ ∧
    (∀ (s : String) (op : Binary), (s, Token.operator op) ∈ Token.spellings →
      let p := a ++ b ++ [.operator (.binary op)]
      p.count .equals ≤ 1 → parse limit ("(" ++ A ++ ") " ++ s ++ " (" ++ B ++ ")") = ⟨.ok p, 0⟩) ∧
    (Group.Shallow '\x7b' '\x7d' limit A.toList → Group.Shallow '\x7b' '\x7d' limit B.toList →
      (a ++ b).count .equals ≤ 1 →
      parse limit ("\\frac\x7b" ++ A ++ "\x7d\x7b" ++ B ++ "\x7d") =
        ⟨.ok (a ++ b ++ [.operator (.binary .divide)]), 0⟩) ∧
    (Group.Shallow '\x7b' '\x7d' limit A.toList → Group.Shallow '[' ']' limit D.toList →
      (a ++ d).count .equals ≤ 1 →
      parse limit ("\\sqrt[" ++ D ++ "]\x7b" ++ A ++ "\x7d") =
        ⟨.ok (a ++ d ++ [.operator (.binary .root)]), 0⟩) ∧
    (Group.Shallow '\x7b' '\x7d' limit A.toList →
      parse limit ("\\sqrt\x7b" ++ A ++ "\x7d") =
        ⟨.ok (a ++ [.operand (.number (.int 2)), .operator (.binary .root)]), 0⟩) := by
  have hlists := Lists.of_parse hA ha
  have hlists' := Lists.of_parse hB hb
  have hdegree := Lists.of_parse hD hd
  obtain ⟨_, _, _, _, _, hequals, _⟩ := parse_eq_iff_draft.1 hA
  have hnone : ∀ c ∈ ([] : List Char), Text.isBlank c := by simp
  -- each construct has a list of tokens made of those of its parts; the equals signs are counted last
  have hgroup := hlists.group Token.opening_mem Token.closing_mem
  refine ⟨?_, ?_, ?_, fun s op hs hp => ?_, fun hbraces hbraces' hp => ?_,
    fun hbraces hbrackets hp => ?_, fun hbraces => ?_⟩
  · refine Lists.parse ?_ hequals
    simpa using hgroup.loosen (Nat.zero_le 4)
  · have hleft : ("\\left(", Token.opening) ∈ Token.spellings := by simp [Token.spellings]
    have hright : ("\\right)", Token.closing) ∈ Token.spellings := by simp [Token.spellings]
    refine Lists.parse ?_ hequals
    simpa using (hlists.group hleft hright).loosen (Nat.zero_le 4)
  · refine Lists.parse ?_ (by simpa [List.count_singleton] using hequals)
    simpa using hgroup.negate.loosen (Nat.zero_le 4)
  · refine Lists.parse ?_ hp
    simpa using hlists.operands hs hlists'
  · have hfraction := Abbreviation.fraction_eq_found_iff.2 ⟨[], A.toList, [], B.toList, [], hnone,
      hnone, hlists.nested.1 hbraces, hlists'.nested.1 hbraces', rfl, (List.append_nil _).symm⟩
    refine Lists.parse ?_ (by simpa [List.count_singleton] using hp)
    simpa using Lists.fraction hfraction hlists hlists'
  · have hroot := Abbreviation.root_eq_found_iff.2 ⟨D.toList, A.toList, [],
      hlists.nested.1 hbraces, (List.append_nil _).symm,
      .inr ⟨[], [], hnone, hnone, hdegree.nested.2 hbrackets, rfl⟩⟩
    refine Lists.parse ?_ (by simpa [List.count_singleton] using hp)
    simpa using Lists.root hroot hlists hdegree
  · have hroot := Abbreviation.root_eq_found_iff.2 ⟨['2'], A.toList, [],
      hlists.nested.1 hbraces, (List.append_nil _).symm, .inl ⟨[], hnone, rfl, rfl⟩⟩
    refine Lists.parse ?_ ?_
    · simpa using Lists.root hroot hlists (.two limit)
    · simpa [List.count_cons] using hequals

set_option maxRecDepth 100000 in
/-- A fraction and a root inside a quotient and a root, and an equation with a side in parentheses. -/
theorem parse_composition_nested :
    let a : Program := [.operand (.name "x"), .operand (.number (.int 2)), .operator (.binary .divide)]
    let b : Program := [.operand (.name "y"), .operand (.number (.int 3)), .operator (.binary .root)]
    let d : Program := [.operand (.name "n"), .operator .negate]
    parse 64 "\\frac\x7bx\x7d\x7b2\x7d" = ⟨.ok a, 0⟩ ∧ parse 64 "\\sqrt[3]\x7by\x7d" = ⟨.ok b, 0⟩ ∧
      parse 64 "-n" = ⟨.ok d, 0⟩ ∧ a ≠ [] ∧ b ≠ [] ∧ d ≠ [] ∧
      ("=", Token.operator .equal) ∈ Token.spellings ∧
      parse 64 "(\\frac\x7bx\x7d\x7b2\x7d) = (\\sqrt[3]\x7by\x7d)" = ⟨.ok (a ++ b ++ [.equals]), 0⟩ ∧
      Group.Shallow '\x7b' '\x7d' 64 "\\frac\x7bx\x7d\x7b2\x7d".toList ∧
      Group.Shallow '\x7b' '\x7d' 64 "\\sqrt[3]\x7by\x7d".toList ∧
      Group.Shallow '[' ']' 64 "-n".toList ∧
      parse 64 "\\frac\x7b\\frac\x7bx\x7d\x7b2\x7d\x7d\x7b\\sqrt[3]\x7by\x7d\x7d" =
        ⟨.ok (a ++ b ++ [.operator (.binary .divide)]), 0⟩ ∧
      parse 64 "\\sqrt[-n]\x7b\\frac\x7bx\x7d\x7b2\x7d\x7d" =
        ⟨.ok (a ++ d ++ [.operator (.binary .root)]), 0⟩ := by
  intro a b d
  have hA : parse 64 "\\frac\x7bx\x7d\x7b2\x7d" = ⟨.ok a, 0⟩ :=
    parse_eq (by decide +kernel) (by decide +kernel)
  have hB : parse 64 "\\sqrt[3]\x7by\x7d" = ⟨.ok b, 0⟩ :=
    parse_eq (by decide +kernel) (by decide +kernel)
  have hD : parse 64 "-n" = ⟨.ok d, 0⟩ := parse_eq (by decide +kernel) (by decide +kernel)
  have ha : a ≠ [] := List.cons_ne_nil _ _
  have hb : b ≠ [] := List.cons_ne_nil _ _
  have hd : d ≠ [] := List.cons_ne_nil _ _
  have hequal : ("=", Token.operator .equal) ∈ Token.spellings := by decide
  have hbraces : Group.Shallow '\x7b' '\x7d' 64 "\\frac\x7bx\x7d\x7b2\x7d".toList := by
    decide +kernel
  have hbraces' : Group.Shallow '\x7b' '\x7d' 64 "\\sqrt[3]\x7by\x7d".toList := by decide +kernel
  have hbrackets : Group.Shallow '[' ']' 64 "-n".toList := by decide +kernel
  obtain ⟨_, _, _, hbinary, hfraction, hroot, _⟩ := parse_composition hA hB hD ha hb hd
  have hequation := hbinary "=" .equal hequal (by decide)
  have hquotient := hfraction hbraces hbraces' (by decide)
  have hroot := hroot hbraces hbrackets (by decide)
  simp only [String.reduceAppend] at hequation hquotient hroot
  exact ⟨hA, hB, hD, ha, hb, hd, hequal, hequation, hbraces, hbraces', hbrackets, hquotient, hroot⟩

end Reckon
