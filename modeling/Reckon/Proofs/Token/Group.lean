import Mathlib.Data.List.Infix
import Mathlib.Data.List.TakeWhile
import Reckon.Token.Abbreviation

/-!
Which groups, arguments and abbreviations are found.

The level of a text is how many groups it opens more than it closes. A text nests when its level is
zero and that of none of its beginnings is negative or reaches the limit. Where a group stands at the
front of a text, it is found exactly if what it holds nests; then the text between the delimiters is
what is found, and whatever stands behind the group does not matter. Reading on inside groups goes on
through every text that stays within them, so it ends at the first delimiter that leaves them, or at
the end of the text.

    front     {  a  {  b  }  c  }  rest          level of what it holds   0  1  1  0  0
              └─── found ───────┘
-/

namespace Reckon

namespace Group

variable {opening closing : Char} {limit : Int}

/-- How many groups a text opens more than it closes. -/
def level (opening closing : Char) (cs : List Char) : Int :=
  (cs.count opening : Int) - cs.count closing

/-- A text inside `inner` open groups that closes them all, and opens no group that it does not close
or that reaches the limit. -/
structure Inside (opening closing : Char) (limit inner : Int) (cs : List Char) : Prop where
  nonneg : ∀ front, front <+: cs → 0 ≤ inner + level opening closing front
  below : ∀ front, front <+: cs → inner + level opening closing front < limit
  balanced : inner + level opening closing cs = 0

/-- A text in which the delimiters are balanced and nested less deep than the limit. -/
abbrev Nested (opening closing : Char) (limit : Int) (cs : List Char) : Prop :=
  Inside opening closing limit 0 cs

@[simp] theorem level_nil : level opening closing [] = 0 := rfl

theorem level_cons (c : Char) (cs : List Char) :
    level opening closing (c :: cs) = level opening closing [c] + level opening closing cs := by
  simp only [level, List.count_cons, List.count_nil]
  omega

theorem level_append (xs ys : List Char) :
    level opening closing (xs ++ ys) = level opening closing xs + level opening closing ys := by
  simp only [level, List.count_append]
  omega

theorem level_opening (hne : opening ≠ closing) : level opening closing [opening] = 1 := by
  simp [level, hne]

theorem level_closing (hne : opening ≠ closing) : level opening closing [closing] = -1 := by
  simp [level, hne.symm]

theorem level_other {c : Char} (ho : c ≠ opening) (hc : c ≠ closing) :
    level opening closing [c] = 0 := by
  simp [level, ho, hc]

theorem forall_prefix_cons {α : Type} {p : List α → Prop} {c : α} {cs : List α} :
    (∀ front, front <+: c :: cs → p front) ↔ p [] ∧ ∀ front, front <+: cs → p (c :: front) := by
  constructor
  · intro h
    exact ⟨h [] List.nil_prefix, fun front hfront => h _ (List.cons_prefix_cons.2 ⟨rfl, hfront⟩)⟩
  · rintro ⟨hnil, hcons⟩ front hfront
    cases front with
    | nil => exact hnil
    | cons d front =>
      obtain ⟨rfl, htail⟩ := List.cons_prefix_cons.1 hfront
      exact hcons front htail

theorem forall_prefix_append {α : Type} {p : List α → Prop} {xs ys : List α} :
    (∀ front, front <+: xs ++ ys → p front) ↔
      (∀ front, front <+: xs → p front) ∧ ∀ front, front <+: ys → p (xs ++ front) := by
  constructor
  · intro h
    exact ⟨fun front hfront => h _ (hfront.trans (List.prefix_append ..)),
      fun front hfront => h _ ((List.prefix_append_right_inj xs).2 hfront)⟩
  · rintro ⟨hxs, hys⟩ front hfront
    rcases List.prefix_or_prefix_of_prefix hfront (List.prefix_append xs ys) with hle | ⟨more, rfl⟩
    · exact hxs front hle
    · exact hys more ((List.prefix_append_right_inj xs).1 hfront)

/-- A text inside `inner` open groups that does not close the outermost one and opens none that
reaches the limit. -/
def Within (opening closing : Char) (limit inner : Int) (cs : List Char) : Prop :=
  ∀ front, front <+: cs →
    0 ≤ inner + level opening closing front ∧ inner + level opening closing front < limit

theorem inside_iff {inner : Int} {cs : List Char} : Inside opening closing limit inner cs ↔
    Within opening closing limit inner cs ∧ inner + level opening closing cs = 0 := by
  constructor
  · rintro ⟨hnonneg, hbelow, hbalanced⟩
    exact ⟨fun front hfront => ⟨hnonneg front hfront, hbelow front hfront⟩, hbalanced⟩
  · rintro ⟨hwithin, hbalanced⟩
    exact ⟨fun front hfront => (hwithin front hfront).1, fun front hfront => (hwithin front hfront).2,
      hbalanced⟩

namespace Within

variable {inner : Int} {c : Char} {cs : List Char}

theorem nil_iff : Within opening closing limit inner [] ↔ 0 ≤ inner ∧ inner < limit := by
  simp only [Within, List.prefix_nil, forall_eq, level_nil, Int.add_zero]

theorem cons_iff : Within opening closing limit inner (c :: cs) ↔
    (0 ≤ inner ∧ inner < limit) ∧
      Within opening closing limit (inner + level opening closing [c]) cs := by
  rw [Within, forall_prefix_cons, level_nil, Int.add_zero]
  refine and_congr_right fun _ => forall₂_congr fun front _ => ?_
  rw [level_cons c front, Int.add_assoc]

theorem bounds (h : Within opening closing limit inner cs) : 0 ≤ inner ∧ inner < limit := by
  simpa only [level_nil, Int.add_zero] using h [] List.nil_prefix

theorem concat (h : Within opening closing limit inner cs)
    (hnonneg : 0 ≤ inner + level opening closing (cs ++ [c]))
    (hlt : inner + level opening closing (cs ++ [c]) < limit) :
    Within opening closing limit inner (cs ++ [c]) := by
  intro front hfront
  rcases List.prefix_concat_iff.1 hfront with rfl | hfront
  · exact ⟨hnonneg, hlt⟩
  · exact h front hfront

end Within

namespace Inside

variable {inner : Int} {c : Char} {cs : List Char}

theorem bounds (h : Inside opening closing limit inner cs) : 0 ≤ inner ∧ inner < limit :=
  (inside_iff.1 h).1.bounds

theorem cons_iff : Inside opening closing limit inner (c :: cs) ↔
    0 ≤ inner ∧ inner < limit ∧
      Inside opening closing limit (inner + level opening closing [c]) cs := by
  rw [inside_iff, inside_iff, Within.cons_iff, level_cons c cs, Int.add_assoc, and_assoc, and_assoc]

theorem append_iff {t : List Char} (ht : ∀ c ∈ t, c ≠ opening ∧ c ≠ closing) :
    Inside opening closing limit inner (t ++ cs) ↔ Inside opening closing limit inner cs := by
  induction t with
  | nil => exact Iff.rfl
  | cons c t ih =>
    obtain ⟨⟨ho, hc⟩, ht⟩ := List.forall_mem_cons.1 ht
    rw [List.cons_append, cons_iff, level_other ho hc, Int.add_zero, ih ht]
    exact ⟨fun h => h.2.2, fun h => ⟨h.bounds.1, h.bounds.2, h⟩⟩

instance : Decidable (Inside opening closing limit inner cs) :=
  decidable_of_iff ((∀ front ∈ cs.inits, 0 ≤ inner + level opening closing front ∧
      inner + level opening closing front < limit) ∧ inner + level opening closing cs = 0) <| by
    constructor
    · rintro ⟨hfront, hbalanced⟩
      exact ⟨fun front h => (hfront front ((List.mem_inits _ _).2 h)).1,
        fun front h => (hfront front ((List.mem_inits _ _).2 h)).2, hbalanced⟩
    · rintro ⟨hnonneg, hbelow, hbalanced⟩
      refine ⟨fun front h => ?_, hbalanced⟩
      rw [List.mem_inits] at h
      exact ⟨hnonneg front h, hbelow front h⟩

end Inside

/-- A text stays within its groups to its end, or up to a delimiter that opens one too many or closes
the outermost one. -/
theorem within_or_leaves (hne : opening ≠ closing) {inner : Int} (hnonneg : 0 ≤ inner)
    (hlt : inner < limit) (cs : List Char) :
    Within opening closing limit inner cs ∨
      ∃ front rest, Within opening closing limit inner front ∧
        (cs = front ++ opening :: rest ∧ inner + level opening closing front + 1 = limit ∨
          cs = front ++ closing :: rest ∧ inner + level opening closing front = 0) := by
  induction cs using List.reverseRecOn with
  | nil => exact .inl (Within.nil_iff.2 ⟨hnonneg, hlt⟩)
  | append_singleton cs c ih =>
    -- only the last character can leave a text that stayed within its groups before
    rcases ih with hcs | ⟨front, rest, hfront, ⟨rfl, hdeep⟩ | ⟨rfl, hzero⟩⟩
    · obtain ⟨hnonneg, hlt⟩ := hcs cs (List.prefix_refl cs)
      have hlevel := @level_append opening closing cs [c]
      by_cases ho : c = opening
      · subst ho
        rw [level_opening hne] at hlevel
        by_cases hdeep : inner + level c closing cs + 1 = limit
        · exact .inr ⟨cs, [], hcs, .inl ⟨rfl, hdeep⟩⟩
        · exact .inl (hcs.concat (by omega) (by omega))
      by_cases hc : c = closing
      · subst hc
        rw [level_closing hne] at hlevel
        by_cases hzero : inner + level opening c cs = 0
        · exact .inr ⟨cs, [], hcs, .inr ⟨rfl, hzero⟩⟩
        · exact .inl (hcs.concat (by omega) (by omega))
      · rw [level_other ho hc] at hlevel
        exact .inl (hcs.concat (by omega) (by omega))
    · exact .inr ⟨front, rest ++ [c], hfront, .inl ⟨by simp, hdeep⟩⟩
    · exact .inr ⟨front, rest ++ [c], hfront, .inr ⟨by simp, hzero⟩⟩

/-! ### Groups -/

/-- A character that stays within the groups is read as a part of the content. -/
theorem close_cons (hne : opening ≠ closing) {inner : Nat} {c : Char}
    (hnonneg : 0 ≤ (inner : Int) + level opening closing [c])
    (hlt : (inner : Int) + level opening closing [c] < limit) (cs : List Char) :
    close opening closing limit inner (c :: cs) =
      (close opening closing limit ((inner : Int) + level opening closing [c]).toNat cs).map
        fun (content, rest) => (c :: content, rest) := by
  rw [close.eq_def]
  dsimp only
  by_cases ho : c = opening
  · rw [ho, level_opening hne] at hlt ⊢
    have hdeep : ¬ limit < (inner : Int) + 2 := by omega
    rw [if_pos rfl, if_neg hdeep]
    rfl
  by_cases hc : c = closing
  · rw [hc, level_closing hne] at hnonneg ⊢
    obtain ⟨j, rfl⟩ : ∃ j, inner = j + 1 := ⟨inner - 1, by omega⟩
    rw [if_neg hne.symm, if_pos rfl, Int.natCast_succ, Int.add_neg_cancel_right, Int.toNat_natCast]
  · rw [if_neg ho, if_neg hc, level_other ho hc, Int.add_zero, Int.toNat_natCast]

/-- A text that stays within the groups is read as a part of the content. -/
theorem close_append (hne : opening ≠ closing) {inner : Nat} {front : List Char}
    (h : Within opening closing limit inner front) (cs : List Char) :
    close opening closing limit inner (front ++ cs) =
      (close opening closing limit ((inner : Int) + level opening closing front).toNat cs).map
        fun (content, rest) => (front ++ content, rest) := by
  induction front generalizing inner with
  | nil =>
    rw [level_nil, Int.add_zero, Int.toNat_natCast, List.nil_append]
    cases close opening closing limit inner cs <;> rfl
  | cons c front ih =>
    obtain ⟨_, hfront⟩ := Within.cons_iff.1 h
    obtain ⟨hnonneg, hlt⟩ := hfront.bounds
    rw [← Int.toNat_of_nonneg hnonneg] at hfront
    rw [List.cons_append, close_cons hne hnonneg hlt, ih hfront, Int.toNat_of_nonneg hnonneg,
      Int.add_assoc, ← level_cons c front]
    cases close opening closing limit _ cs <;> rfl

theorem close_of_inside (hne : opening ≠ closing) {inner : Nat} {content : List Char}
    (h : Inside opening closing limit inner content) (rest : List Char) :
    close opening closing limit inner (content ++ closing :: rest) = .found (content, rest) := by
  obtain ⟨hwithin, hzero⟩ := inside_iff.1 h
  rw [close_append hne hwithin, hzero]
  simp [close, hne.symm, Search.map]

/-- Reading on inside a group comes to the end of the text, to a delimiter that opens a group too many,
or to the one that closes the outermost group, whichever is first. -/
theorem close_cases (hne : opening ≠ closing) {inner : Nat} (hinner : (inner : Int) < limit)
    (cs : List Char) :
    (Within opening closing limit inner cs ∧ close opening closing limit inner cs = .absent) ∨
    (∃ front rest, cs = front ++ opening :: rest ∧ Within opening closing limit inner front ∧
      inner + level opening closing front + 1 = limit ∧
      close opening closing limit inner cs = .tooDeep (opening :: rest)) ∨
    ∃ content rest, cs = content ++ closing :: rest ∧ Inside opening closing limit inner content ∧
      close opening closing limit inner cs = .found (content, rest) := by
  rcases within_or_leaves hne (Int.natCast_nonneg inner) hinner cs with
    hcs | ⟨front, rest, hfront, ⟨rfl, hdeep⟩ | ⟨rfl, hzero⟩⟩
  · refine .inl ⟨hcs, ?_⟩
    rw [← List.append_nil cs, close_append hne hcs]
    rfl
  · refine .inr (.inl ⟨front, rest, rfl, hfront, hdeep, ?_⟩)
    obtain ⟨hnonneg, _⟩ := hfront front (List.prefix_refl front)
    obtain ⟨n, hn⟩ := Int.eq_ofNat_of_zero_le hnonneg
    have hlimit : limit < (n : Int) + 2 := by omega
    rw [close_append hne hfront, hn]
    simp [close, hlimit, Search.map]
  · have hinside := inside_iff.2 ⟨hfront, hzero⟩
    exact .inr (.inr ⟨front, rest, rfl, hinside, close_of_inside hne hinside rest⟩)

/-- What is found inside `inner` open groups closes them all. -/
theorem inside_of_close (hne : opening ≠ closing) {inner : Nat} (hinner : (inner : Int) < limit)
    {cs content rest : List Char}
    (h : close opening closing limit inner cs = .found (content, rest)) :
    Inside opening closing limit inner content := by
  rcases close_cases hne hinner cs with ⟨_, hclose⟩ | ⟨_, _, _, _, _, hclose⟩ |
    ⟨_, _, _, hinside, hclose⟩
  · rw [hclose] at h
    cases h
  · rw [hclose] at h
    cases h
  · rw [hclose] at h
    cases h
    exact hinside

/-- A group is found exactly where it stands at the front and what it holds nests. -/
theorem scan_eq_found_iff (hne : opening ≠ closing) {cs content rest : List Char} :
    scan opening closing limit cs = .found (content, rest) ↔
      cs = opening :: content ++ closing :: rest ∧ Nested opening closing limit content := by
  constructor
  · intro h
    refine ⟨scan_eq_found h, ?_⟩
    cases cs with
    | nil => simp [scan] at h
    | cons c cs =>
      rw [scan] at h
      split at h
      · split at h
        · cases h
        · next hlimit =>
          have hinner : ((0 : Nat) : Int) < limit := by omega
          exact inside_of_close hne hinner h
      · cases h
  · rintro ⟨rfl, hin⟩
    have hlimit : ¬ limit < 1 := by
      have := hin.bounds
      omega
    have hin : Inside opening closing limit (0 : Nat) content := hin
    rw [List.cons_append, scan, if_pos rfl, if_neg hlimit]
    exact close_of_inside hne hin rest

end Group

/-! ### Blanks -/

namespace Text

theorem skipBlanks_append {u cs : List Char} (hu : ∀ c ∈ u, isBlank c) :
    skipBlanks (u ++ cs) = skipBlanks cs :=
  List.dropWhile_append_of_pos hu

theorem exists_blanks (cs : List Char) : ∃ u, (∀ c ∈ u, isBlank c) ∧ cs = u ++ skipBlanks cs :=
  ⟨cs.takeWhile isBlank, fun _ hc => List.mem_takeWhile_imp hc,
    List.takeWhile_append_dropWhile.symm⟩

end Text

/-! ### Abbreviations -/

namespace Abbreviation

variable {limit : Int}

/-- An argument is found exactly where a nesting text in braces stands behind blanks. -/
theorem argument_eq_found_iff {cs content rest : List Char} :
    argument limit cs = .found (content, rest) ↔
      ∃ u, (∀ c ∈ u, Text.isBlank c) ∧ cs = u ++ '\x7b' :: content ++ '\x7d' :: rest ∧
        Group.Nested '\x7b' '\x7d' limit content := by
  rw [argument, Group.scan_eq_found_iff (by decide)]
  constructor
  · rintro ⟨hskip, hin⟩
    obtain ⟨u, hu, hcs⟩ := Text.exists_blanks cs
    rw [hskip] at hcs
    exact ⟨u, hu, by simpa using hcs, hin⟩
  · rintro ⟨u, hu, rfl, hin⟩
    rw [List.append_assoc, Text.skipBlanks_append hu]
    exact ⟨Text.skipBlanks_cons_of_not _ (by decide), hin⟩

/-- A fraction is expanded exactly where it stands in full and its arguments nest. -/
theorem fraction_eq_found_iff {cs text : List Char} :
    fraction limit cs = .found text ↔
      ∃ u num v den rest, (∀ c ∈ u, Text.isBlank c) ∧ (∀ c ∈ v, Text.isBlank c) ∧
        Group.Nested '\x7b' '\x7d' limit num ∧ Group.Nested '\x7b' '\x7d' limit den ∧
        cs = "\\frac".toList ++ u ++ '\x7b' :: num ++ '\x7d' :: v ++ '\x7b' :: den ++
          '\x7d' :: rest ∧
        text = fractionText num den ++ rest := by
  constructor
  · intro h
    rw [fraction] at h
    split at h
    · cases h
    · next rest₁ hfrac =>
      obtain ⟨⟨num, rest₂⟩, hnum, hbind⟩ := Search.bind_eq_found.1 h
      obtain ⟨⟨den, rest⟩, hden, htext⟩ := Search.map_eq_found.1 hbind
      obtain ⟨u, hu, hrest₁, hnum'⟩ := argument_eq_found_iff.1 hnum
      obtain ⟨v, hv, hrest₂, hden'⟩ := argument_eq_found_iff.1 hden
      refine ⟨u, num, v, den, rest, hu, hv, hnum', hden', ?_, htext.symm⟩
      rw [Text.behind?_eq_some.1 hfrac, hrest₁, hrest₂]
      simp
  · rintro ⟨u, num, v, den, rest, hu, hv, hnum, hden, rfl, rfl⟩
    have hfrac : Text.behind? "\\frac".toList
        ("\\frac".toList ++ u ++ '\x7b' :: num ++ '\x7d' :: v ++ '\x7b' :: den ++ '\x7d' :: rest) =
        some (u ++ '\x7b' :: num ++ '\x7d' :: (v ++ '\x7b' :: den ++ '\x7d' :: rest)) := by
      rw [Text.behind?_eq_some]
      simp
    rw [fraction, hfrac]
    refine Search.bind_eq_found.2 ⟨_, argument_eq_found_iff.2 ⟨u, hu, rfl, hnum⟩, ?_⟩
    exact Search.map_eq_found.2 ⟨_, argument_eq_found_iff.2 ⟨v, hv, rfl, hden⟩, rfl⟩

/-- The degree is what nests in brackets behind blanks, or two. -/
theorem degree_cases {cs deg rest : List Char} (h : degree limit cs = .found (deg, rest)) :
    (deg = ['2'] ∧ rest = cs) ∨
      ∃ u, (∀ c ∈ u, Text.isBlank c) ∧ Group.Nested '[' ']' limit deg ∧
        cs = u ++ '[' :: deg ++ ']' :: rest := by
  simp only [degree] at h
  split at h
  · simp only [Search.found.injEq, Prod.mk.injEq] at h
    exact .inl ⟨h.1.symm, h.2.symm⟩
  · obtain ⟨hskip, hin⟩ := (Group.scan_eq_found_iff (by decide)).1 h
    obtain ⟨u, hu, hcs⟩ := Text.exists_blanks cs
    rw [hskip] at hcs
    exact .inr ⟨u, hu, hin, by simpa using hcs⟩

theorem degree_bracket {u deg rest : List Char} (hu : ∀ c ∈ u, Text.isBlank c)
    (hdeg : Group.Nested '[' ']' limit deg) :
    degree limit (u ++ '[' :: deg ++ ']' :: rest) = .found (deg, rest) := by
  have hscan : Group.scan '[' ']' limit ('[' :: deg ++ ']' :: rest) = .found (deg, rest) :=
    (Group.scan_eq_found_iff (by decide)).2 ⟨rfl, hdeg⟩
  have hskip : Text.skipBlanks ('[' :: deg ++ ']' :: rest) = '[' :: deg ++ ']' :: rest :=
    Text.skipBlanks_cons_of_not _ (by decide)
  rw [degree, List.append_assoc, Text.skipBlanks_append hu, hskip, hscan]

theorem degree_brace {u cs : List Char} (hu : ∀ c ∈ u, Text.isBlank c) :
    degree limit (u ++ '\x7b' :: cs) = .found (['2'], u ++ '\x7b' :: cs) := by
  have hscan : Group.scan '[' ']' limit ('\x7b' :: cs) = .absent := by
    simp [Group.scan]
  rw [degree, Text.skipBlanks_append hu, Text.skipBlanks_cons_of_not _ (by decide), hscan]

/-- A root is expanded exactly where it stands in full, with or without a degree, and what it holds
nests. -/
theorem root_eq_found_iff {cs text : List Char} :
    root limit cs = .found text ↔
      ∃ deg radicand rest, Group.Nested '\x7b' '\x7d' limit radicand ∧
        text = rootText deg radicand ++ rest ∧
        ((∃ u, (∀ c ∈ u, Text.isBlank c) ∧ deg = ['2'] ∧
            cs = "\\sqrt".toList ++ u ++ '\x7b' :: radicand ++ '\x7d' :: rest) ∨
          ∃ u v, (∀ c ∈ u, Text.isBlank c) ∧ (∀ c ∈ v, Text.isBlank c) ∧
            Group.Nested '[' ']' limit deg ∧
            cs = "\\sqrt".toList ++ u ++ '[' :: deg ++ ']' :: v ++ '\x7b' :: radicand ++
              '\x7d' :: rest) := by
  constructor
  · intro h
    rw [root] at h
    split at h
    · cases h
    · next rest₁ hroot =>
      obtain ⟨⟨deg, rest₂⟩, hdeg, hbind⟩ := Search.bind_eq_found.1 h
      obtain ⟨⟨radicand, rest⟩, hrad, htext⟩ := Search.map_eq_found.1 hbind
      obtain ⟨v, hv, hrest₂, hrad'⟩ := argument_eq_found_iff.1 hrad
      refine ⟨deg, radicand, rest, hrad', htext.symm, ?_⟩
      rw [Text.behind?_eq_some.1 hroot]
      rcases degree_cases hdeg with ⟨htwo, hsame⟩ | ⟨u, hu, hdeg', hrest₁⟩
      · refine .inl ⟨v, hv, htwo, ?_⟩
        rw [← hsame, hrest₂]
        simp
      · refine .inr ⟨u, v, hu, hv, hdeg', ?_⟩
        rw [hrest₁, hrest₂]
        simp
  · rintro ⟨deg, radicand, rest, hrad, rfl, ⟨u, hu, rfl, rfl⟩ | ⟨u, v, hu, hv, hdeg, rfl⟩⟩
    · have hroot : Text.behind? "\\sqrt".toList
          ("\\sqrt".toList ++ u ++ '\x7b' :: radicand ++ '\x7d' :: rest) =
          some (u ++ '\x7b' :: (radicand ++ '\x7d' :: rest)) := by
        rw [Text.behind?_eq_some]
        simp
      rw [root, hroot]
      refine Search.bind_eq_found.2 ⟨_, degree_brace hu, ?_⟩
      exact Search.map_eq_found.2
        ⟨_, argument_eq_found_iff.2 ⟨u, hu, by simp, hrad⟩, rfl⟩
    · have hroot : Text.behind? "\\sqrt".toList
          ("\\sqrt".toList ++ u ++ '[' :: deg ++ ']' :: v ++ '\x7b' :: radicand ++ '\x7d' :: rest) =
          some (u ++ '[' :: deg ++ ']' :: (v ++ '\x7b' :: radicand ++ '\x7d' :: rest)) := by
        rw [Text.behind?_eq_some]
        simp
      rw [root, hroot]
      refine Search.bind_eq_found.2 ⟨_, degree_bracket hu hdeg, ?_⟩
      exact Search.map_eq_found.2 ⟨_, argument_eq_found_iff.2 ⟨v, hv, rfl, hrad⟩, rfl⟩

/-- What is expanded is a fraction or a root. -/
theorem expand_eq_found_iff {cs text : List Char} :
    expand limit cs = .found text ↔ fraction limit cs = .found text ∨ root limit cs = .found text := by
  rw [expand]
  constructor
  · intro h
    split at h
    · exact .inr h
    · exact .inl h
  · rintro (h | h)
    · rw [h]
    · have hfrac : fraction limit cs = .absent := by
        obtain ⟨_, _, _, _, _, ⟨_, _, _, rfl⟩ | ⟨_, _, _, _, _, rfl⟩⟩ := root_eq_found_iff.1 h <;> rfl
      rw [hfrac]
      exact h

end Abbreviation

/-! ### Where groups nest too deep -/

/-- Groups nest too deep at a delimiter that stands at the level of the limit. -/
theorem Group.exists_of_scan_tooDeep {opening closing : Char} (hne : opening ≠ closing) {limit : Int}
    {cs site : List Char} (h : scan opening closing limit cs = .tooDeep site) :
    ∃ front rest, cs = front ++ site ∧ site = opening :: rest ∧
      limit ≤ level opening closing front := by
  cases cs with
  | nil => cases h
  | cons c cs =>
    rw [scan] at h
    split at h
    · next hopening =>
      subst hopening
      split at h
      · next hlimit =>
        obtain rfl := Search.tooDeep.inj h
        exact ⟨[], cs, rfl, rfl, by rw [level_nil]; omega⟩
      · next hlimit =>
        have hinner : ((0 : Nat) : Int) < limit := by omega
        rcases close_cases hne hinner cs with ⟨_, hclose⟩ | ⟨front, rest, rfl, _, hlevel, hclose⟩ |
          ⟨_, _, _, _, hclose⟩ <;> rw [hclose] at h
        · cases h
        · obtain rfl := Search.tooDeep.inj h
          refine ⟨c :: front, rest, rfl, rfl, ?_⟩
          rw [level_cons, level_opening hne]
          omega
        · cases h
    · cases h

theorem Group.scan_eq_tooDeep {opening closing : Char} (hne : opening ≠ closing) {limit : Int}
    {cs site : List Char} (h : scan opening closing limit cs = .tooDeep site) :
    site <:+ cs ∧ site ≠ [] := by
  obtain ⟨front, rest, rfl, rfl, _⟩ := exists_of_scan_tooDeep hne h
  exact ⟨List.suffix_append .., List.cons_ne_nil _ _⟩

theorem Search.bind_eq_tooDeep {α β : Type} {f : α → Search β} {s : Search α} {site : List Char} :
    s.bind f = .tooDeep site ↔ s = .tooDeep site ∨ ∃ a, s = .found a ∧ f a = .tooDeep site := by
  cases s <;> simp [Search.bind]

namespace Abbreviation

variable {limit : Int} {cs site : List Char}

theorem argument_eq_tooDeep (h : argument limit cs = .tooDeep site) : site <:+ cs ∧ site ≠ [] := by
  obtain ⟨hsuffix, hne⟩ := Group.scan_eq_tooDeep (by decide) h
  exact ⟨hsuffix.trans (Text.skipBlanks_suffix cs), hne⟩

theorem degree_eq_tooDeep (h : degree limit cs = .tooDeep site) : site <:+ cs ∧ site ≠ [] := by
  simp only [degree] at h
  split at h
  · cases h
  · obtain ⟨hsuffix, hne⟩ := Group.scan_eq_tooDeep (by decide) h
    exact ⟨hsuffix.trans (Text.skipBlanks_suffix cs), hne⟩

theorem argument_suffix {content rest : List Char} (h : argument limit cs = .found (content, rest)) :
    rest <:+ cs := by
  obtain ⟨u, rfl⟩ := argument_eq_found h
  exact ⟨u ++ '\x7b' :: content ++ ['\x7d'], by simp⟩

theorem degree_suffix {deg rest : List Char} (h : degree limit cs = .found (deg, rest)) :
    rest <:+ cs := by
  rcases degree_eq_found h with ⟨_, rfl⟩ | ⟨u, rfl⟩
  · exact List.suffix_refl _
  · exact ⟨u ++ '[' :: deg ++ [']'], by simp⟩

/-- Where an abbreviation nests too deep, a part of the text is named that is not empty. -/
theorem expand_eq_tooDeep (h : expand limit cs = .tooDeep site) : site <:+ cs ∧ site ≠ [] := by
  have hbehind {spelling rest : List Char} (hspelling : Text.behind? spelling cs = some rest)
      (hsite : site <:+ rest ∧ site ≠ []) : site <:+ cs ∧ site ≠ [] := by
    rw [Text.behind?_eq_some.1 hspelling]
    exact ⟨hsite.1.trans (List.suffix_append ..), hsite.2⟩
  rw [expand] at h
  split at h
  · rw [root] at h
    split at h
    · cases h
    · next rest hroot =>
      refine hbehind hroot ?_
      rcases Search.bind_eq_tooDeep.1 h with hdeg | ⟨_, hdeg, hrad⟩
      · exact degree_eq_tooDeep hdeg
      · obtain ⟨hsuffix, hne⟩ := argument_eq_tooDeep (Search.map_eq_tooDeep.1 hrad)
        exact ⟨hsuffix.trans (degree_suffix hdeg), hne⟩
  · rw [fraction] at h
    split at h
    · cases h
    · next rest hfrac =>
      refine hbehind hfrac ?_
      rcases Search.bind_eq_tooDeep.1 h with hnum | ⟨_, hnum, hden⟩
      · exact argument_eq_tooDeep hnum
      · obtain ⟨hsuffix, hne⟩ := argument_eq_tooDeep (Search.map_eq_tooDeep.1 hden)
        exact ⟨hsuffix.trans (argument_suffix hnum), hne⟩

end Abbreviation

end Reckon
