import Reckon.Proofs.Token.Spelling

/-!
Every text that can be read is balanced, in braces and in brackets.

An expansion takes away the delimiters of groups that nest, and may swap two of them; a token holds no
delimiter. So each rule of reading keeps the balance, in both directions: what nests may be put in or
left out anywhere. Read from the end, a text that has tokens closes exactly the groups it opens, and
a group of it ends where the scan for it ends, whatever is written behind the text.

    \sqrt[ D ]{ R } rest         braces     D rest        brackets   R rest
    ( R ) sqrt ( D )  rest                  D rest                   R rest
-/

namespace Reckon

namespace Group

variable {opening closing : Char} {inner : Int} {b cs xs ys : List Char}

/-- A text inside `inner` open groups that closes them all, and opens no group that it does not
close. -/
structure Closes (opening closing : Char) (inner : Int) (cs : List Char) : Prop where
  nonneg : ∀ front, front <+: cs → 0 ≤ inner + level opening closing front
  balanced : inner + level opening closing cs = 0

/-- A text that closes exactly the groups it opens. -/
abbrev Balanced (opening closing : Char) (cs : List Char) : Prop := Closes opening closing 0 cs

/-- A text in which groups nest less deep than the limit. -/
def Shallow (opening closing : Char) (limit : Int) (cs : List Char) : Prop :=
  ∀ front, front <+: cs → level opening closing front < limit

/-- A text without delimiters. -/
def Plain (opening closing : Char) (cs : List Char) : Prop := ∀ c ∈ cs, c ≠ opening ∧ c ≠ closing

instance : Decidable (Plain opening closing cs) :=
  List.decidableBAll (fun c => c ≠ opening ∧ c ≠ closing) cs

instance : Decidable (Closes opening closing inner cs) :=
  decidable_of_iff ((∀ front ∈ cs.inits, 0 ≤ inner + level opening closing front) ∧
      inner + level opening closing cs = 0) <| by
    constructor
    · rintro ⟨hnonneg, hbalanced⟩
      exact ⟨fun front h => hnonneg front ((List.mem_inits _ _).2 h), hbalanced⟩
    · rintro ⟨hnonneg, hbalanced⟩
      exact ⟨fun front h => hnonneg front ((List.mem_inits _ _).1 h), hbalanced⟩

instance {limit : Int} : Decidable (Shallow opening closing limit cs) :=
  decidable_of_iff (∀ front ∈ cs.inits, level opening closing front < limit) <| by
    simp [Shallow, List.mem_inits]

/-- A text nests exactly where it is balanced and shallow. -/
theorem nested_iff {limit : Int} : Nested opening closing limit cs ↔
    Balanced opening closing cs ∧ Shallow opening closing limit cs := by
  constructor
  · rintro ⟨hnonneg, hbelow, hbalanced⟩
    exact ⟨⟨hnonneg, hbalanced⟩, fun front hfront => by simpa using hbelow front hfront⟩
  · rintro ⟨⟨hnonneg, hbalanced⟩, hshallow⟩
    exact ⟨hnonneg, fun front hfront => by simpa using hshallow front hfront, hbalanced⟩

theorem Plain.append (hxs : Plain opening closing xs) (hys : Plain opening closing ys) :
    Plain opening closing (xs ++ ys) :=
  List.forall_mem_append.2 ⟨hxs, hys⟩

theorem Plain.of_class {p : Char → Bool} (ho : p opening = false) (hc : p closing = false)
    (h : ∀ c ∈ cs, p c) : Plain opening closing cs := by
  refine fun c hmem => ⟨?_, ?_⟩ <;> rintro rfl
  · exact absurd (h _ hmem) (by rw [ho]; nofun)
  · exact absurd (h _ hmem) (by rw [hc]; nofun)

namespace Closes

/-- The groups that the first part leaves open are closed by the second. -/
theorem append_iff : Closes opening closing inner (xs ++ ys) ↔
    (∀ front, front <+: xs → 0 ≤ inner + level opening closing front) ∧
      Closes opening closing (inner + level opening closing xs) ys := by
  constructor
  · rintro ⟨hnonneg, hbalanced⟩
    rw [forall_prefix_append] at hnonneg
    simp only [level_append, ← Int.add_assoc] at hnonneg hbalanced
    exact ⟨hnonneg.1, hnonneg.2, hbalanced⟩
  · rintro ⟨hxs, hys, hbalanced⟩
    refine ⟨forall_prefix_append.2 ⟨hxs, ?_⟩, ?_⟩
    · simpa only [level_append, ← Int.add_assoc] using hys
    · simpa only [level_append, ← Int.add_assoc] using hbalanced

theorem nil_iff : Closes opening closing inner [] ↔ inner = 0 := by
  constructor
  · intro h
    simpa using h.balanced
  · rintro rfl
    exact ⟨fun front hfront => by rw [List.prefix_nil.1 hfront, level_nil]; decide, rfl⟩

theorem nonneg_inner (h : Closes opening closing inner cs) : 0 ≤ inner := by
  simpa using h.nonneg [] List.nil_prefix

theorem cons_iff {c : Char} : Closes opening closing inner (c :: cs) ↔
    0 ≤ inner ∧ Closes opening closing (inner + level opening closing [c]) cs := by
  rw [← List.singleton_append, append_iff]
  constructor
  · rintro ⟨hfront, hclose⟩
    exact ⟨by simpa using hfront [] List.nil_prefix, hclose⟩
  · rintro ⟨hinner, hclose⟩
    refine ⟨forall_prefix_cons.2 ⟨by simpa using hinner, fun front hfront => ?_⟩, hclose⟩
    rw [List.prefix_nil.1 hfront]
    exact hclose.nonneg_inner

end Closes

namespace Balanced

theorem of_plain (h : Plain opening closing cs) : Balanced opening closing cs := by
  have hlevel : ∀ front, front <+: cs → level opening closing front = 0 := by
    intro front hfront
    have ho : front.count opening = 0 :=
      List.count_eq_zero.2 fun hmem => (h _ (hfront.subset hmem)).1 rfl
    have hc : front.count closing = 0 :=
      List.count_eq_zero.2 fun hmem => (h _ (hfront.subset hmem)).2 rfl
    rw [level, ho, hc]
    rfl
  exact ⟨fun front hfront => by rw [hlevel front hfront]; decide,
    by rw [hlevel cs (List.prefix_refl cs)]; rfl⟩

theorem insert_iff (hb : Balanced opening closing b) :
    Closes opening closing inner (xs ++ (b ++ ys)) ↔ Closes opening closing inner (xs ++ ys) := by
  have hlevel : level opening closing b = 0 := by simpa using hb.balanced
  have hxs := @Closes.append_iff opening closing inner xs ys
  rw [Closes.append_iff, hxs, Closes.append_iff, hlevel, Int.add_zero]
  refine and_congr_right fun _ => and_iff_right_of_imp fun hys front hfront => ?_
  have hinner := hys.nonneg_inner
  have hfront := hb.nonneg front hfront
  omega

theorem append_iff (hb : Balanced opening closing b) :
    Closes opening closing inner (b ++ ys) ↔ Closes opening closing inner ys :=
  @insert_iff _ _ _ _ [] _ hb

theorem operands_iff {s zs : List Char} (hopen : Plain opening closing ['('])
    (hover : Plain opening closing s) (hclose : Plain opening closing [')', ' ']) :
    Closes opening closing inner (['('] ++ (xs ++ (s ++ (ys ++ ([')', ' '] ++ zs))))) ↔
      Closes opening closing inner (xs ++ (ys ++ zs)) := by
  rw [(of_plain hopen).append_iff, (of_plain hover).insert_iff, ← List.append_assoc xs ys,
    (of_plain hclose).insert_iff, List.append_assoc]

theorem group (hne : opening ≠ closing) (hb : Balanced opening closing b) :
    Balanced opening closing (opening :: (b ++ [closing])) := by
  refine Closes.cons_iff.2 ⟨Int.le_refl 0, hb.append_iff.2 (Closes.cons_iff.2 ?_)⟩
  rw [level_opening hne, level_closing hne, Closes.nil_iff]
  decide

theorem not_append_closing (hne : opening ≠ closing) (hb : Balanced opening closing b) :
    ¬ Balanced opening closing (b ++ closing :: ys) := by
  intro h
  have hclose := (Closes.cons_iff.1 (hb.append_iff.1 h)).2.nonneg_inner
  rw [level_closing hne] at hclose
  omega

/-- Where a group ends is determined by the text. -/
theorem unique (hne : opening ≠ closing) {a r s : List Char} (ha : Balanced opening closing a)
    (hb : Balanced opening closing b) (h : a ++ closing :: r = b ++ closing :: s) :
    a = b ∧ r = s := by
  rcases List.append_eq_append_iff.1 h with ⟨more, rfl, hmore⟩ | ⟨more, rfl, hmore⟩
  · cases more with
    | nil => simpa using hmore
    | cons c more =>
      obtain ⟨rfl, _⟩ := List.cons.inj hmore
      exact absurd hb (not_append_closing hne ha)
  · cases more with
    | nil => simpa using hmore.symm
    | cons c more =>
      obtain ⟨rfl, _⟩ := List.cons.inj hmore
      exact absurd ha (not_append_closing hne hb)

end Balanced

/-- The innermost of the open groups ends at a closing delimiter, the others behind it. -/
theorem Closes.exists_group (hne : opening ≠ closing) {m : Int} (hm : 0 ≤ m)
    (h : Closes opening closing (m + 1) cs) :
    ∃ content rest, cs = content ++ closing :: rest ∧ Balanced opening closing content ∧
      Closes opening closing m rest := by
  -- the induction is inside `i` groups more, which the content closes
  suffices hmore : ∀ i : Int, 0 ≤ i → Closes opening closing (m + 1 + i) cs →
      ∃ content rest, cs = content ++ closing :: rest ∧ Closes opening closing i content ∧
        Closes opening closing m rest from
    hmore 0 (Int.le_refl 0) (by rwa [Int.add_zero])
  clear h
  induction cs with
  | nil =>
    intro i hi h
    have hzero := h.balanced
    rw [level_nil] at hzero
    omega
  | cons c cs ih =>
    intro i hi h
    obtain ⟨_, hcs⟩ := Closes.cons_iff.1 h
    by_cases ho : c = opening
    · rw [ho, level_opening hne, Int.add_assoc] at hcs
      obtain ⟨content, rest, rfl, hcontent, hrest⟩ := ih (i + 1) (by omega) hcs
      refine ⟨c :: content, rest, rfl, Closes.cons_iff.2 ⟨hi, ?_⟩, hrest⟩
      rwa [ho, level_opening hne]
    by_cases hc : c = closing
    · rw [hc, level_closing hne] at hcs
      by_cases hzero : i = 0
      · have hlevel : m + 1 + i + -1 = m := by omega
        rw [hlevel] at hcs
        exact ⟨[], cs, by rw [hc]; rfl, Closes.nil_iff.2 hzero, hcs⟩
      · have hlevel : m + 1 + i + -1 = m + 1 + (i - 1) := by omega
        rw [hlevel] at hcs
        obtain ⟨content, rest, rfl, hcontent, hrest⟩ := ih (i - 1) (by omega) hcs
        refine ⟨c :: content, rest, rfl, Closes.cons_iff.2 ⟨hi, ?_⟩, hrest⟩
        rwa [hc, level_closing hne]
    · rw [level_other ho hc, Int.add_zero] at hcs
      obtain ⟨content, rest, rfl, hcontent, hrest⟩ := ih i hi hcs
      refine ⟨c :: content, rest, rfl, Closes.cons_iff.2 ⟨hi, ?_⟩, hrest⟩
      rwa [level_other ho hc, Int.add_zero]

end Group

/-! ### Expansions -/

namespace Abbreviation

open Reckon.Group

variable {limit inner : Int} {cs text u w w' : List Char} {opening closing : Char}

theorem balanced_blanks (ho : Text.isBlank opening = false) (hc : Text.isBlank closing = false)
    (hu : ∀ c ∈ u, Text.isBlank c) (hw : Plain opening closing w) (hw' : Plain opening closing w') :
    Balanced opening closing (w ++ (u ++ w')) :=
  .of_plain (hw.append ((Plain.of_class ho hc hu).append hw'))

theorem fractionText_closes_iff {num den rest : List Char} (hopen : Plain opening closing ['('])
    (hover : Plain opening closing [')', ' ', '/', ' ', '('])
    (hclose : Plain opening closing [')', ' ']) :
    Closes opening closing inner (fractionText num den ++ rest) ↔
      Closes opening closing inner (num ++ (den ++ rest)) := by
  have htext : fractionText num den ++ rest =
      ['('] ++ (num ++ ([')', ' ', '/', ' ', '('] ++ (den ++ ([')', ' '] ++ rest)))) := by
    simp [fractionText]
  rw [htext, Balanced.operands_iff hopen hover hclose]

/-- The plain text of a root closes what the radicand and then the degree close. -/
theorem rootText_closes_iff {deg radicand rest : List Char} (hopen : Plain opening closing ['('])
    (hover : Plain opening closing [')', ' ', 's', 'q', 'r', 't', ' ', '('])
    (hclose : Plain opening closing [')', ' ']) :
    Closes opening closing inner (rootText deg radicand ++ rest) ↔
      Closes opening closing inner (radicand ++ (deg ++ rest)) := by
  have htext : rootText deg radicand ++ rest =
      ['('] ++ (radicand ++ ([')', ' ', 's', 'q', 'r', 't', ' ', '('] ++
        (deg ++ ([')', ' '] ++ rest)))) := by
    simp [rootText]
  rw [htext, Balanced.operands_iff hopen hover hclose]

/-- A fraction and its plain text close the same braces, and the same brackets. -/
theorem fraction_closes_iff (h : fraction limit cs = .found text) :
    (Closes '\x7b' '\x7d' inner cs ↔ Closes '\x7b' '\x7d' inner text) ∧
    (Closes '[' ']' inner cs ↔ Closes '[' ']' inner text) := by
  obtain ⟨u, num, v, den, rest, hu, hv, hnum, hden, rfl, rfl⟩ := fraction_eq_found_iff.1 h
  rw [fractionText_closes_iff (by decide) (by decide) (by decide),
    fractionText_closes_iff (by decide) (by decide) (by decide)]
  constructor
  · -- both arguments nest, so only what stands behind them counts
    have hcs : "\\frac".toList ++ u ++ '\x7b' :: num ++ '\x7d' :: v ++ '\x7b' :: den ++
          '\x7d' :: rest =
        ("\\frac".toList ++ (u ++ [])) ++ ('\x7b' :: (num ++ ['\x7d']) ++
          (([] ++ (v ++ [])) ++ ('\x7b' :: (den ++ ['\x7d']) ++ rest))) := by simp
    have hnum := (nested_iff.1 hnum).1
    have hden := (nested_iff.1 hden).1
    have hname : Balanced '\x7b' '\x7d' ("\\frac".toList ++ (u ++ [])) :=
      balanced_blanks rfl rfl hu (by decide) (by decide)
    have hblanks : Balanced '\x7b' '\x7d' ([] ++ (v ++ [])) :=
      balanced_blanks rfl rfl hv (by decide) (by decide)
    rw [hcs, hname.append_iff, (hnum.group (by decide)).append_iff, hblanks.append_iff,
      (hden.group (by decide)).append_iff, hnum.append_iff, hden.append_iff]
  · -- the arguments stand in the same order
    have hcs : "\\frac".toList ++ u ++ '\x7b' :: num ++ '\x7d' :: v ++ '\x7b' :: den ++
          '\x7d' :: rest =
        ("\\frac".toList ++ (u ++ ['\x7b'])) ++ (num ++
          ((['\x7d'] ++ (v ++ ['\x7b'])) ++ (den ++ (['\x7d'] ++ rest)))) := by simp
    have hname : Balanced '[' ']' ("\\frac".toList ++ (u ++ ['\x7b'])) :=
      balanced_blanks rfl rfl hu (by decide) (by decide)
    have hbraces : Balanced '[' ']' (['\x7d'] ++ (v ++ ['\x7b'])) :=
      balanced_blanks rfl rfl hv (by decide) (by decide)
    have hbrace : Balanced '[' ']' ['\x7d'] := .of_plain (by decide)
    rw [hcs, hname.append_iff, hbraces.insert_iff, ← List.append_assoc num den, hbrace.insert_iff,
      List.append_assoc]

/-- A root and its plain text close the same braces, and the same brackets. -/
theorem root_closes_iff (h : root limit cs = .found text) :
    (Closes '\x7b' '\x7d' inner cs ↔ Closes '\x7b' '\x7d' inner text) ∧
    (Closes '[' ']' inner cs ↔ Closes '[' ']' inner text) := by
  obtain ⟨deg, radicand, rest, hrad, rfl, hcases⟩ := root_eq_found_iff.1 h
  have hrad := (nested_iff.1 hrad).1
  rw [rootText_closes_iff (by decide) (by decide) (by decide),
    rootText_closes_iff (by decide) (by decide) (by decide)]
  constructor
  · -- the radicand nests, so what counts is the degree and what stands behind the root
    rw [hrad.append_iff]
    rcases hcases with ⟨u, hu, rfl, rfl⟩ | ⟨u, v, hu, hv, -, rfl⟩
    · have hcs : "\\sqrt".toList ++ u ++ '\x7b' :: radicand ++ '\x7d' :: rest =
          ("\\sqrt".toList ++ (u ++ [])) ++ ('\x7b' :: (radicand ++ ['\x7d']) ++ rest) := by simp
      have hname : Balanced '\x7b' '\x7d' ("\\sqrt".toList ++ (u ++ [])) :=
        balanced_blanks rfl rfl hu (by decide) (by decide)
      have htwo : Balanced '\x7b' '\x7d' ['2'] := .of_plain (by decide)
      rw [hcs, hname.append_iff, (hrad.group (by decide)).append_iff, htwo.append_iff]
    · have hcs : "\\sqrt".toList ++ u ++ '[' :: deg ++ ']' :: v ++ '\x7b' :: radicand ++
            '\x7d' :: rest =
          ("\\sqrt".toList ++ (u ++ ['['])) ++ (deg ++
            (([']'] ++ (v ++ [])) ++ ('\x7b' :: (radicand ++ ['\x7d']) ++ rest))) := by simp
      have hname : Balanced '\x7b' '\x7d' ("\\sqrt".toList ++ (u ++ ['['])) :=
        balanced_blanks rfl rfl hu (by decide) (by decide)
      have hbracket : Balanced '\x7b' '\x7d' ([']'] ++ (v ++ [])) :=
        balanced_blanks rfl rfl hv (by decide) (by decide)
      rw [hcs, hname.append_iff, hbracket.insert_iff, (hrad.group (by decide)).insert_iff]
  · -- the degree nests, so what counts is the radicand and what stands behind the root
    have hbrace : Balanced '[' ']' ['\x7d'] := .of_plain (by decide)
    rcases hcases with ⟨u, hu, rfl, rfl⟩ | ⟨u, v, hu, hv, hdeg, rfl⟩
    · have hcs : "\\sqrt".toList ++ u ++ '\x7b' :: radicand ++ '\x7d' :: rest =
          ("\\sqrt".toList ++ (u ++ ['\x7b'])) ++ (radicand ++ (['\x7d'] ++ rest)) := by simp
      have hname : Balanced '[' ']' ("\\sqrt".toList ++ (u ++ ['\x7b'])) :=
        balanced_blanks rfl rfl hu (by decide) (by decide)
      have htwo : Balanced '[' ']' ['2'] := .of_plain (by decide)
      rw [hcs, hname.append_iff, hbrace.insert_iff, htwo.insert_iff]
    · have hdeg := (nested_iff.1 hdeg).1
      have hcs : "\\sqrt".toList ++ u ++ '[' :: deg ++ ']' :: v ++ '\x7b' :: radicand ++
            '\x7d' :: rest =
          ("\\sqrt".toList ++ (u ++ [])) ++ ('[' :: (deg ++ [']']) ++
            (([] ++ (v ++ ['\x7b'])) ++ (radicand ++ (['\x7d'] ++ rest)))) := by simp
      have hname : Balanced '[' ']' ("\\sqrt".toList ++ (u ++ [])) :=
        balanced_blanks rfl rfl hu (by decide) (by decide)
      have hblanks : Balanced '[' ']' ([] ++ (v ++ ['\x7b'])) :=
        balanced_blanks rfl rfl hv (by decide) (by decide)
      rw [hcs, hname.append_iff, (hdeg.group (by decide)).append_iff, hblanks.append_iff,
        hbrace.insert_iff, hdeg.insert_iff]

/-- An expansion closes the same groups. -/
theorem expand_closes_iff (h : expand limit cs = .found text) :
    (Closes '\x7b' '\x7d' inner cs ↔ Closes '\x7b' '\x7d' inner text) ∧
    (Closes '[' ']' inner cs ↔ Closes '[' ']' inner text) := by
  rcases expand_eq_found_iff.1 h with h | h
  · exact fraction_closes_iff h
  · exact root_closes_iff h

end Abbreviation

/-! ### Texts that can be read -/

/-- A character that groups of an abbreviation stand between. -/
def Text.isDelimiter (c : Char) : Bool := c = '\x7b' || c = '\x7d' || c = '[' || c = ']'

theorem Text.isDelimiter_cases {c : Char} (h : isDelimiter c) :
    c = '\x7b' ∨ c = '\x7d' ∨ c = '[' ∨ c = ']' := by
  simpa [isDelimiter, or_assoc] using h

theorem Text.not_isWordChar_of_isDelimiter {c : Char} (h : isDelimiter c) : ¬ isWordChar c := by
  rcases isDelimiter_cases h with rfl | rfl | rfl | rfl <;> decide

theorem Front.not_isDelimiter {limit : Int} {cs written rest : List Char} {token : Token}
    (h : ofText limit cs = .lexeme token written rest) : ∀ c ∈ written, !Text.isDelimiter c :=
  written_not (by decide +kernel) (fun _ => Text.not_isWordChar_of_isDelimiter) (by decide) h

namespace Group

variable {opening closing : Char}

theorem balanced_skipBlanks (ho : Text.isBlank opening = false) (hc : Text.isBlank closing = false)
    (cs : List Char) :
    Balanced opening closing (Text.skipBlanks cs) ↔ Balanced opening closing cs := by
  obtain ⟨u, hu, hcs⟩ := Text.exists_blanks cs
  have hblanks : Balanced opening closing u := .of_plain (.of_class ho hc hu)
  conv => rhs; rw [hcs]
  exact hblanks.append_iff.symm

theorem balanced_lexeme (ho : Text.isDelimiter opening) (hc : Text.isDelimiter closing) {limit : Int}
    {cs written rest : List Char} {token : Token}
    (h : Front.ofText limit cs = .lexeme token written rest) :
    Balanced opening closing cs ↔ Balanced opening closing rest := by
  obtain ⟨rfl, _⟩ := Front.lexeme_append h
  have hwritten : Balanced opening closing written :=
    .of_plain (.of_class (by rw [ho]; rfl) (by rw [hc]; rfl) (Front.not_isDelimiter h))
  exact hwritten.append_iff

end Group

/-- A text that can be read is balanced, in braces and in brackets. -/
theorem Reads.balanced {limit : Int} {cs : List Char} {ts : List Token} (h : Reads limit cs ts) :
    Group.Balanced '\x7b' '\x7d' cs ∧ Group.Balanced '[' ']' cs := by
  induction h with
  | @done cs hnil =>
    rw [← Group.balanced_skipBlanks rfl rfl cs, ← Group.balanced_skipBlanks rfl rfl cs, hnil]
    exact ⟨.of_plain (by decide), .of_plain (by decide)⟩
  | @token cs written rest token ts hfront _ ih =>
    rw [← Group.balanced_skipBlanks rfl rfl cs, ← Group.balanced_skipBlanks rfl rfl cs,
      Group.balanced_lexeme rfl rfl hfront, Group.balanced_lexeme rfl rfl hfront]
    exact ih
  | @expanded cs text ts hfront _ ih =>
    obtain ⟨hbraces, hbrackets⟩ :=
      @Abbreviation.expand_closes_iff limit 0 _ _ (Front.expanded_iff.1 hfront)
    rw [← Group.balanced_skipBlanks rfl rfl cs, ← Group.balanced_skipBlanks rfl rfl cs]
    exact ⟨hbraces.2 ih.1, hbrackets.2 ih.2⟩

/-- A text that has tokens is balanced as it was given, in braces and in brackets, however its
expansions moved them. -/
theorem tokenize_balanced {limit : Int} {source : String} {ts : List Token}
    (h : tokenize limit source = .ok ts) :
    Group.Balanced '\x7b' '\x7d' source.toList ∧ Group.Balanced '[' ']' source.toList :=
  (tokenize_eq_ok_iff_reads.1 h).balanced

set_option maxRecDepth 100000 in
/-- A degree whose braces are not balanced in themselves: the arguments behind it close them. -/
theorem tokenize_balanced_degree :
    let source := "\\sqrt[\\frac\x7ba]\x7bb\x7d\x7d\x7bc\x7d"
    let ts : List Token := [.opening, .operand (.name "b"), .closing, .operator .root, .opening,
      .opening, .operand (.name "a"), .closing, .closing, .operator .divide, .opening,
      .operand (.name "c"), .closing]
    tokenize 64 source = .ok ts ∧ Group.Balanced '\x7b' '\x7d' source.toList ∧
      Group.Balanced '[' ']' source.toList := by
  intro source ts
  have htokens : tokenize 64 source = .ok ts := by decide +kernel
  exact ⟨htokens, tokenize_balanced htokens⟩

end Reckon
