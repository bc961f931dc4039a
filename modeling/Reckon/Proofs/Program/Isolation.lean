import Reckon.Proofs.Program.Composition
import Reckon.Proofs.Token.Argument

/-!
An argument that keeps to itself.

An abbreviation is replaced by plain text, and an argument is set apart there by nothing but the
parentheses around it. It may break out of them in three ways: by parentheses of its own, the other way
round; by a `\right` at its end, which makes one token with the parenthesis behind it; by a bracket that
it leaves open. An argument that does none of these is parsed as if it stood alone, and the programs of
the arguments follow one another; so a text is never regrouped across it.

    \frac{2) + (3}{4}              ──▶  (2) + (3) / (4)              3 / 4 alone is a quotient
    \frac{2\right}{3}              ──▶  (2\right) / (3)              \right) is one token
    \frac{\sqrt[3}{2]{x}}          ──▶  (\sqrt[3) / (2]{x})          3) / (2 is the degree of a root
-/

namespace Reckon

/-! ### Reading an expansion -/

namespace Reads

variable {limit : Int} {cs ds rest : List Char} {ts us : List Token}

theorem unique (h : Reads limit cs ts) (h' : Reads limit cs us) : ts = us := by
  have hts := (Lexing.ofCursor_eq_iff_reads (c := ⟨[], cs⟩)).2 h
  rw [Lexing.ofCursor_eq_iff_reads.2 h'] at hts
  exact (Lexing.mk.inj hts).1.symm

/-- A backslash that begins no token begins an abbreviation. -/
theorem exists_expand (hspelled : Token.spelled? ('\\' :: cs) = none)
    (h : Reads limit ('\\' :: cs) us) :
    ∃ text, Abbreviation.expand limit ('\\' :: cs) = .found text ∧ Reads limit text us := by
  have hskip : Text.skipBlanks ('\\' :: cs) = '\\' :: cs :=
    Text.skipBlanks_cons_of_not cs (by decide)
  cases h with
  | done hnil =>
    rw [hskip] at hnil
    cases hnil
  | token hfront _ =>
    rw [hskip, Front.ofText, hspelled] at hfront
    dsimp only at hfront
    split at hfront
    · cases hfront
    · cases hfront
    · obtain ⟨c, _, heq, hc⟩ := Front.isNameChar_of_ofOperand hfront
      obtain ⟨rfl, _⟩ := List.cons.inj heq
      exact absurd hc (by decide)
  | expanded hfront htext =>
    rw [hskip, Front.expanded_iff] at hfront
    exact ⟨_, hfront, htext⟩

end Reads

namespace Abbreviation

variable {limit : Int} {A B num text : List Char}

/-- The first argument is the balanced text in the group. -/
theorem argument_unique {u rest rest' : List Char} (hu : ∀ c ∈ u, Text.isBlank c)
    (hA : Group.Balanced '\x7b' '\x7d' A) (hnum : Group.Balanced '\x7b' '\x7d' num)
    (h : '\x7b' :: (A ++ '\x7d' :: rest) = u ++ '\x7b' :: (num ++ '\x7d' :: rest')) :
    u = [] ∧ num = A ∧ rest' = rest := by
  cases u with
  | nil =>
    obtain ⟨rfl, rfl⟩ := hnum.unique (by decide) hA (List.cons.inj h).2.symm
    exact ⟨rfl, rfl, rfl⟩
  | cons c u =>
    obtain ⟨rfl, _⟩ := List.cons.inj h
    exact absurd (hu _ (List.mem_cons_self ..)) (by decide)

/-- A fraction stands for the plain text of its arguments. -/
theorem fraction_text (hA : Group.Balanced '\x7b' '\x7d' A) (hB : Group.Balanced '\x7b' '\x7d' B)
    (h : expand limit ("\\frac".toList ++ '\x7b' :: (A ++ '\x7d' :: '\x7b' :: (B ++ ['\x7d']))) =
      .found text) : text = fractionText A B := by
  rcases expand_eq_found_iff.1 h with h | h
  · obtain ⟨u, num, v, den, rest, hu, hv, hnum, hden, hcs, rfl⟩ := fraction_eq_found_iff.1 h
    have hfront : "\\frac".toList ++ '\x7b' :: (A ++ '\x7d' :: '\x7b' :: (B ++ ['\x7d'])) =
        "\\frac".toList ++
          (u ++ '\x7b' :: (num ++ '\x7d' :: (v ++ '\x7b' :: (den ++ '\x7d' :: rest)))) := by
      rw [hcs]
      simp
    obtain ⟨rfl, rfl, hbehind⟩ :=
      argument_unique hu hA (Group.nested_iff.1 hnum).1 (List.append_cancel_left hfront)
    obtain ⟨rfl, rfl, rfl⟩ := argument_unique hv hB (Group.nested_iff.1 hden).1 hbehind.symm
    exact List.append_nil _
  · obtain ⟨_, _, _, _, _, ⟨_, _, _, hcs⟩ | ⟨_, _, _, _, _, hcs⟩⟩ := root_eq_found_iff.1 h <;>
      simp at hcs

/-- A root without a degree stands for the plain text of the square root. -/
theorem root_text (hA : Group.Balanced '\x7b' '\x7d' A)
    (h : expand limit ("\\sqrt".toList ++ '\x7b' :: (A ++ ['\x7d'])) = .found text) :
    text = rootText ['2'] A := by
  rcases expand_eq_found_iff.1 h with h | h
  · obtain ⟨_, _, _, _, _, _, _, _, _, hcs, _⟩ := fraction_eq_found_iff.1 h
    simp at hcs
  · obtain ⟨deg, radicand, rest, hrad, rfl, ⟨u, hu, rfl, hcs⟩ | ⟨u, v, hu, _, _, hcs⟩⟩ :=
      root_eq_found_iff.1 h
    · have hfront : "\\sqrt".toList ++ '\x7b' :: (A ++ ['\x7d']) =
          "\\sqrt".toList ++ (u ++ '\x7b' :: (radicand ++ '\x7d' :: rest)) := by
        rw [hcs]
        simp
      obtain ⟨rfl, rfl, rfl⟩ :=
        argument_unique hu hA (Group.nested_iff.1 hrad).1 (List.append_cancel_left hfront)
      exact List.append_nil _
    · -- a brace stands where the bracket would
      have hfront : "\\sqrt".toList ++ '\x7b' :: (A ++ ['\x7d']) =
          "\\sqrt".toList ++ (u ++ '[' :: (deg ++ ']' :: v ++ '\x7b' :: radicand ++
            '\x7d' :: rest)) := by
        rw [hcs]
        simp
      have hbrace := List.append_cancel_left hfront
      cases u with
      | nil => exact absurd (List.cons.inj hbrace).1 (by decide)
      | cons c u =>
        obtain ⟨rfl, _⟩ := List.cons.inj hbrace
        exact absurd (hu _ (List.mem_cons_self ..)) (by decide)

end Abbreviation

/-- A text that breaks out of no parentheses: it closes its braces, does not end in the beginning of a
parenthesis, and its tokens close only what they open. -/
structure Contained (limit : Int) (cs : List Char) : Prop where
  braces : Group.Balanced '\x7b' '\x7d' cs
  right : ¬ "\\right".toList <:+ cs
  matched : ∀ ts, Reads limit cs ts → Token.Matched ts

theorem Contained.of_tokenize {limit : Int} {A : String} {ts : List Token}
    (hbraces : Group.Balanced '\x7b' '\x7d' A.toList) (hright : ¬ "\\right".toList <:+ A.toList)
    (htokens : tokenize limit A = .ok ts) (hts : Token.Matched ts) : Contained limit A.toList where
  braces := hbraces
  right := hright
  matched us h := by
    rw [h.unique (tokenize_eq_ok_iff_reads.1 htokens)]
    exact hts

namespace Reads

variable {limit : Int} {cs ds : List Char} {us : List Token}

/-- Two arguments in their parentheses, with an operator between them, are read on their own. -/
theorem exists_operands {s : String} {op : Binary} (hs : (s, Token.operator op) ∈ Token.spellings)
    (hplain : Group.Plain '[' ']' s.toList) (hcs : Contained limit cs)
    (hbrackets : Group.Balanced '[' ']' cs) (hds : Contained limit ds)
    (h : Reads limit
      ('(' :: (cs ++ ')' :: ' ' :: (s.toList ++ ' ' :: '(' :: (ds ++ [')', ' '])))) us) :
    ∃ ts vs, us = .opening :: (ts ++ .closing :: .operator op :: .opening :: (vs ++ [.closing])) ∧
      Reads limit cs ts ∧ Reads limit ds vs := by
  -- what stands around the second argument holds no bracket, so that closes its own
  have hbrackets' : Group.Balanced '[' ']' ds := by
    have hover : Group.Plain '[' ']' ([')', ' '] ++ (s.toList ++ [' ', '('])) :=
      .append (by decide) (hplain.append (by decide))
    have hall : Group.Balanced '[' ']' (['('] ++ (cs ++
        (([')', ' '] ++ (s.toList ++ [' ', '('])) ++ (ds ++ ([')', ' '] ++ []))))) := by
      simpa using h.balanced.2
    rw [Group.Balanced, Group.Balanced.operands_iff (by decide) hover (by decide),
      hbrackets.append_iff, List.append_nil] at hall
    exact hall
  obtain ⟨_, rfl, hfirst⟩ := exists_of_spelling Token.opening_mem h
  obtain ⟨ts, _, rfl, hts, hbehind⟩ := hfirst.split hcs.braces hbrackets hcs.right
  obtain ⟨_, rfl, hover⟩ := exists_of_spelling Token.closing_mem hbehind
  have hblank {rest : List Char} : Text.skipBlanks (' ' :: rest) = Text.skipBlanks rest := rfl
  obtain ⟨_, rfl, hright⟩ := exists_of_spelling hs (hover.congr hblank)
  obtain ⟨_, rfl, hsecond⟩ := exists_of_spelling Token.opening_mem (hright.congr hblank)
  obtain ⟨vs, _, rfl, hvs, hlast⟩ := hsecond.split hds.braces hbrackets' hds.right
  obtain ⟨_, rfl, hend⟩ := exists_of_spelling Token.closing_mem hlast
  obtain rfl := hend.unique (.done rfl)
  exact ⟨ts, vs, rfl, hts, hvs⟩

end Reads

/-! ### Running through parentheses -/

namespace Yard

variable {y y' : Yard} {ts us : List Token}

/-- What a yard takes behind an opening parenthesis it takes alone. -/
theorem exists_run_of_opening (hts : Token.Matched ts)
    (h : y.run (.opening :: (ts ++ us)) = (y', none)) :
    ∃ y₁ y₂ : Yard, empty.run ts = (y₁, none) ∧ y₂.run us = (y', none) := by
  obtain ⟨y₀, hstep, hrest⟩ := exists_step_of_run h
  obtain ⟨y₂, hrun, hus⟩ := exists_run_of_append hrest
  obtain ⟨hbase, hsame⟩ : Pending.Below 0 y₀.pending ∧ y₀ = empty.above y₀ := by
    cases takes_of_step hstep with
    | opening hafter => exact ⟨trivial, by simp [above, empty, hafter]⟩
  have hunmatched : Token.unmatched (empty.pending.count .group) ts = 0 := Token.matched_iff.1 hts
  rw [hsame, run_above hbase hunmatched] at hrun
  obtain ⟨_, hend⟩ := Prod.mk.inj hrun
  exact ⟨(empty.run ts).1, y₂, Prod.ext rfl hend, hus⟩

theorem exists_draft_of_run (hts : Token.Matched ts) (hcount : ts.count .closing = ts.count .opening)
    (h : empty.run ts = (y, none)) : ∃ b g p, Draft b 0 g p ts := by
  have hempty : empty.Holds [] := .before .bottom
  have hholds : y.Holds ts := hempty.run hts h
  have hgroups := hholds.count_group
  obtain ⟨b, g, hdraft⟩ := hholds.exists_draft (by omega)
  exact ⟨b, g, _, hdraft⟩

end Yard

namespace Draft

variable {b b' : Bool} {g g' : Nat} {p p' : Program} {ts vs : List Token}

theorem unique (h : Draft b 0 g p ts) (h' : Draft b' 0 g' p' ts) : p = p' := by
  obtain ⟨y, hrun, rfl, _⟩ := h.exists_run
  obtain ⟨y', hrun', rfl, _⟩ := h'.exists_run
  rw [hrun] at hrun'
  rw [(Prod.mk.inj hrun').1]

/-- Operands in parentheses are drafts, if their tokens close only what they open. -/
theorem exists_operands {op : Binary} (hts : Token.Matched ts) (hvs : Token.Matched vs)
    (h : Draft b 0 g p
      (.opening :: (ts ++ .closing :: .operator op :: .opening :: (vs ++ [.closing])))) :
    ∃ b₁ g₁ p₁ b₂ g₂ p₂, Draft b₁ 0 g₁ p₁ ts ∧ Draft b₂ 0 g₂ p₂ vs := by
  obtain ⟨_, hrun, _⟩ := h.exists_run
  obtain ⟨_, _, hrunts, hrest⟩ := Yard.exists_run_of_opening hts hrun
  obtain ⟨_, _, hrest⟩ := Yard.exists_step_of_run hrest
  obtain ⟨_, _, hrest⟩ := Yard.exists_step_of_run hrest
  obtain ⟨_, _, hrunvs, _⟩ := Yard.exists_run_of_opening hvs hrest
  -- neither closes more than it opens, and together they close all
  have hall := h.count_closing
  have hle := hts ts (List.prefix_refl ts)
  have hle' := hvs vs (List.prefix_refl vs)
  simp at hall
  obtain ⟨b₁, g₁, p₁, hdraft⟩ := Yard.exists_draft_of_run hts (by omega) hrunts
  obtain ⟨b₂, g₂, p₂, hdraft'⟩ := Yard.exists_draft_of_run hvs (by omega) hrunvs
  exact ⟨b₁, g₁, p₁, b₂, g₂, p₂, hdraft, hdraft'⟩

end Draft

/-! ### Arguments -/

namespace Lists

variable {limit : Int} {cs ds text : List Char} {p q : Program}

theorem unique (h : Lists limit 0 cs p) (h' : Lists limit 0 cs q) : p = q := by
  obtain ⟨ts, hreads, hdraft⟩ := h
  obtain ⟨us, hreads', hdraft'⟩ := h'
  obtain rfl := hreads.unique hreads'
  exact hdraft.unique hdraft'

/-- Operands in parentheses list their own programs, one after the other. -/
theorem exists_operands {s : String} {op : Binary} (hs : (s, Token.operator op) ∈ Token.spellings)
    (hplain : Group.Plain '[' ']' s.toList) (hcs : Contained limit cs)
    (hbrackets : Group.Balanced '[' ']' cs) (hds : Contained limit ds) {us : List Token} {b : Bool}
    {g : Nat} (h : Draft b 0 g p us) (hcheck : checkOperands p = .ok ())
    (hreads : Reads limit
      ('(' :: (cs ++ ')' :: ' ' :: (s.toList ++ ' ' :: '(' :: (ds ++ [')', ' '])))) us) :
    ∃ p₁ p₂, Lists limit 0 cs p₁ ∧ Lists limit 0 ds p₂ ∧ p = p₁ ++ p₂ ++ [.operator (.binary op)] := by
  obtain ⟨ts, vs, rfl, hts, hvs⟩ := hreads.exists_operands hs hplain hcs hbrackets hds
  obtain ⟨b₁, g₁, p₁, b₂, g₂, p₂, hdraft, hdraft'⟩ :=
    h.exists_operands (hcs.matched ts hts) (hds.matched vs hvs)
  have hrank := op.rank_le
  have hall : Draft true op.rank (g₁ + g₂) (p₁ ++ p₂ ++ [.operator (.binary op)]) _ :=
    .chain rfl (hdraft.group.antitone (by omega)) (hdraft'.group.antitone (by omega))
  simp only [List.cons_append, List.append_assoc, List.nil_append] at hall
  obtain rfl := h.unique (hall.antitone (Nat.zero_le _))
  have hgaps := hall.gaps_eq_zero (by simp) hcheck
  obtain ⟨rfl, rfl⟩ : g₁ = 0 ∧ g₂ = 0 := by omega
  exact ⟨p₁, p₂, .of_draft hts hdraft, .of_draft hvs hdraft', by simp⟩

end Lists

theorem Contained.two (limit : Int) : Contained limit ['2'] where
  braces := by decide
  right := by decide
  matched ts h := by
    rw [h.unique (.two limit)]
    decide

/-- An argument that breaks out of no parentheses is parsed as if it stood alone: where an abbreviation
is parsed with nothing ignored, so is each argument, and their programs follow one another. -/
theorem parse_arguments {limit : Int} {A B : String} (hA : Contained limit A.toList)
    (hB : Contained limit B.toList) :
    (∀ p, Group.Balanced '[' ']' A.toList →
      parse limit ("\\frac\x7b" ++ A ++ "\x7d\x7b" ++ B ++ "\x7d") = ⟨.ok p, 0⟩ →
      ∃ a b, parse limit A = ⟨.ok a, 0⟩ ∧ parse limit B = ⟨.ok b, 0⟩ ∧
        p = a ++ b ++ [.operator (.binary .divide)]) ∧
    ∀ p, parse limit ("\\sqrt\x7b" ++ A ++ "\x7d") = ⟨.ok p, 0⟩ →
      ∃ a, parse limit A = ⟨.ok a, 0⟩ ∧
        p = a ++ [.operand (.number (.int 2)), .operator (.binary .root)] := by
  constructor
  · intro p hbrackets h
    obtain ⟨us, b, g, hreads, hdraft, hequals, hcheck⟩ := parse_eq_iff_draft.1 h
    have hsource : ("\\frac\x7b" ++ A ++ "\x7d\x7b" ++ B ++ "\x7d").toList =
        '\\' :: ("frac\x7b".toList ++ (A.toList ++ '\x7d' :: '\x7b' :: (B.toList ++ ['\x7d']))) := by
      simp
    rw [hsource] at hreads
    obtain ⟨text, hexpand, htext⟩ := hreads.exists_expand
      (by simp [Token.spelled?, Token.spellings, Text.behind?])
    obtain rfl := Abbreviation.fraction_text hA.braces hB.braces hexpand
    obtain ⟨p₁, p₂, hlists, hlists', rfl⟩ := Lists.exists_operands Token.divide_mem (by decide)
      hA hbrackets hB hdraft hcheck (by simpa [Abbreviation.fractionText] using htext)
    rw [List.count_append, List.count_append] at hequals
    exact ⟨p₁, p₂, hlists.parse (by omega), hlists'.parse (by omega), rfl⟩
  · intro p h
    obtain ⟨us, b, g, hreads, hdraft, hequals, hcheck⟩ := parse_eq_iff_draft.1 h
    have hsource : ("\\sqrt\x7b" ++ A ++ "\x7d").toList =
        '\\' :: ("sqrt\x7b".toList ++ (A.toList ++ ['\x7d'])) := by
      simp
    rw [hsource] at hreads
    obtain ⟨text, hexpand, htext⟩ := hreads.exists_expand
      (by simp [Token.spelled?, Token.spellings, Text.behind?])
    obtain rfl := Abbreviation.root_text hA.braces hexpand
    -- nothing around the radicand holds a bracket, so that closes its own
    have hbrackets : Group.Balanced '[' ']' A.toList := by
      have htwo : Group.Balanced '[' ']' ['2'] := .of_plain (by decide)
      have hall := htext.balanced.2
      rw [← List.append_nil (Abbreviation.rootText _ _), Group.Balanced,
        Abbreviation.rootText_closes_iff (by decide) (by decide) (by decide),
        htwo.insert_iff, List.append_nil] at hall
      exact hall
    obtain ⟨p₁, p₂, hlists, hlists', rfl⟩ := Lists.exists_operands Token.root_mem (by decide)
      hA hbrackets (.two limit) hdraft hcheck (by simpa [Abbreviation.rootText] using htext)
    obtain rfl := hlists'.unique (.two limit)
    rw [List.count_append, List.count_append] at hequals
    exact ⟨p₁, hlists.parse (by omega), by simp⟩

set_option maxRecDepth 100000 in
/-- A difference over a root, and the root of the difference. -/
theorem parse_arguments_difference :
    let a : Program :=
      [.operand (.name "x"), .operand (.number (.int 1)), .operator (.binary .subtract)]
    let b : Program := [.operand (.name "y"), .operand (.number (.int 3)), .operator (.binary .root)]
    Contained 64 "(x - 1)".toList ∧ Contained 64 "\\sqrt[3]\x7by\x7d".toList ∧
      Group.Balanced '[' ']' "(x - 1)".toList ∧
      parse 64 "\\frac\x7b(x - 1)\x7d\x7b\\sqrt[3]\x7by\x7d\x7d" =
        ⟨.ok (a ++ b ++ [.operator (.binary .divide)]), 0⟩ ∧
      parse 64 "\\sqrt\x7b(x - 1)\x7d" =
        ⟨.ok (a ++ [.operand (.number (.int 2)), .operator (.binary .root)]), 0⟩ ∧
      (∃ a' b', parse 64 "(x - 1)" = ⟨.ok a', 0⟩ ∧ parse 64 "\\sqrt[3]\x7by\x7d" = ⟨.ok b', 0⟩ ∧
        a ++ b ++ [.operator (.binary .divide)] = a' ++ b' ++ [.operator (.binary .divide)]) ∧
      ∃ a', parse 64 "(x - 1)" = ⟨.ok a', 0⟩ ∧
        a ++ [.operand (.number (.int 2)), .operator (.binary .root)] =
          a' ++ [.operand (.number (.int 2)), .operator (.binary .root)] := by
  intro a b
  have hA : Contained 64 "(x - 1)".toList := by
    have htokens : tokenize 64 "(x - 1)" = .ok [.opening, .operand (.name "x"), .operator .subtract,
        .operand (.number (.int 1)), .closing] := by decide +kernel
    exact .of_tokenize (by decide +kernel) (by decide) htokens (by decide)
  have hB : Contained 64 "\\sqrt[3]\x7by\x7d".toList := by
    have htokens : tokenize 64 "\\sqrt[3]\x7by\x7d" = .ok [.opening, .operand (.name "y"), .closing,
        .operator .root, .opening, .operand (.number (.int 3)), .closing] := by decide +kernel
    exact .of_tokenize (by decide +kernel) (by decide) htokens (by decide)
  have hbrackets : Group.Balanced '[' ']' "(x - 1)".toList := by decide +kernel
  have hfraction : parse 64 "\\frac\x7b(x - 1)\x7d\x7b\\sqrt[3]\x7by\x7d\x7d" =
      ⟨.ok (a ++ b ++ [.operator (.binary .divide)]), 0⟩ :=
    parse_eq (by decide +kernel) (by decide +kernel)
  have hroot : parse 64 "\\sqrt\x7b(x - 1)\x7d" =
      ⟨.ok (a ++ [.operand (.number (.int 2)), .operator (.binary .root)]), 0⟩ :=
    parse_eq (by decide +kernel) (by decide +kernel)
  obtain ⟨hsplit, hsplit'⟩ := parse_arguments hA hB
  exact ⟨hA, hB, hbrackets, hfraction, hroot, hsplit _ hbrackets hfraction, hsplit' _ hroot⟩

set_option maxRecDepth 100000 in
/-- The three ways to break out of the parentheses: the text with the argument is parsed, nothing is
ignored, and the argument alone is no expression. -/
theorem arguments_regrouped :
    (Group.Balanced '\x7b' '\x7d' "2) + (3".toList ∧ Group.Balanced '\x7b' '\x7d' "4".toList ∧
      parse 64 "\\frac\x7b2) + (3\x7d\x7b4\x7d" = ⟨.ok [.operand (.number (.int 2)),
        .operand (.number (.int 3)), .operand (.number (.int 4)), .operator (.binary .divide),
        .operator (.binary .add)], 0⟩ ∧
      ∀ a, parse 64 "2) + (3" ≠ ⟨.ok a, 0⟩) ∧
    (Group.Balanced '\x7b' '\x7d' "2\\right".toList ∧ Group.Balanced '\x7b' '\x7d' "3".toList ∧
      parse 64 "\\frac\x7b2\\right\x7d\x7b3\x7d" = ⟨.ok [.operand (.number (.int 2)),
        .operand (.number (.int 3)), .operator (.binary .divide)], 0⟩ ∧
      ∀ a, parse 64 "2\\right" ≠ ⟨.ok a, 0⟩) ∧
    (Group.Balanced '\x7b' '\x7d' "\\sqrt[3".toList ∧
      Group.Balanced '\x7b' '\x7d' "2]\x7bx\x7d".toList ∧
      parse 64 "\\frac\x7b\\sqrt[3\x7d\x7b2]\x7bx\x7d\x7d" = ⟨.ok [.operand (.name "x"),
        .operand (.number (.int 3)), .operator (.binary .root), .operand (.number (.int 2)),
        .operator (.binary .divide)], 0⟩ ∧
      ∀ a, parse 64 "\\sqrt[3" ≠ ⟨.ok a, 0⟩) := by
  have hfails {s : String} {e : ParseError} (hresult : (parse 64 s).result = .error e) (a : Program) :
      parse 64 s ≠ ⟨.ok a, 0⟩ := by
    intro h
    rw [h] at hresult
    cases hresult
  have hunclosed : (parse 64 "2) + (3").result = .error (.unclosed 1) := by decide +kernel
  have hright : (parse 64 "2\\right").result = .error (.lexical (.foreign 1 "\\right")) := by
    decide +kernel
  have hroot : (parse 64 "\\sqrt[3").result = .error (.lexical (.foreign 0 "\\sqrt[3")) := by
    decide +kernel
  refine ⟨⟨by decide, by decide, parse_eq ?_ ?_, hfails hunclosed⟩,
    ⟨by decide, by decide, parse_eq ?_ ?_, hfails hright⟩,
    by decide, by decide, parse_eq ?_ ?_, hfails hroot⟩ <;> decide +kernel

end Reckon
