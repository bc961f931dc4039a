import Mathlib.Data.Bool.AllAny
import Reckon.Number.Reading
import Reckon.Proofs.Number.Written

/-!
A numeral of an expression read by the generous reader.

None of what the reader puts up with occurs in a numeral: no blanks, no underscores, no digits of
other scripts, no capitals, no sign in front. So trimming and plain form leave its text as it is, and
what is left for the reader are the parts of the numeral.

    1.50e-3  ──trim──▶ 1.50e-3  ──plain──▶ 1.50e-3  ──sign──▶ none  ──parts──▶ 1, 50, e-3

The reader tells integers from binary64 values by trying the former first: an integer with too many
digits is no integer to it, and becomes a binary64 value.
-/

namespace Reckon

/-! ### The characters of a numeral -/

namespace Numeral

/-- The characters that plain numerals are written with. -/
def figures : List Char := "0123456789.e+-".toList

theorem mem_figures_of_isDigit {c : Char} (h : c.isDigit) : c ∈ figures := by
  have hall : ∀ k < 58, 48 ≤ k → Char.ofNat k ∈ figures := by decide
  obtain ⟨hlow, hhigh⟩ : 48 ≤ c.toNat ∧ c.toNat ≤ 57 := Char.isDigit_iff_toNat.1 h
  have hmem := hall c.toNat (by omega) hlow
  rwa [Char.ofNat_toNat] at hmem

theorem Plain.mem_figures {n : Numeral} (h : n.Plain) : ∀ c ∈ n.text, c ∈ figures := by
  intro c hc
  have hothers : ∀ c ∈ ['.', 'e', '+', '-'], c ∈ figures := List.all_iff_forall_prop.1 (by decide)
  exact (h.mem_text c hc).elim mem_figures_of_isDigit (hothers c)

theorem isBlank_figures : ∀ c ∈ figures, Text.isBlank c = false :=
  List.all_iff_forall_prop.1 (by decide)

theorem ne_underscore_figures : ∀ c ∈ figures, c ≠ '_' := List.all_iff_forall_prop.1 (by decide)

theorem plainDigit_figures : ∀ c ∈ figures, Text.plainDigit c = c :=
  List.all_iff_forall_prop.1 (by decide)

theorem toLower_figures : ∀ c ∈ figures, c.toLower = c := List.all_iff_forall_prop.1 (by decide)

variable {n : Numeral}

theorem text_of_isInteger (h : n.isInteger) : n.text = n.whole := by
  obtain ⟨whole, decimals, exponent⟩ := n
  obtain ⟨hdecimals, hexponent⟩ : decimals = [] ∧ exponent = none := by simpa [isInteger] using h
  rw [hdecimals, hexponent]
  exact text_ofDigits whole

/-- The numerals of integers have nothing but digits. -/
theorem Plain.isInteger_iff (h : n.Plain) : n.isInteger ↔ ∀ c ∈ n.text, c.isDigit := by
  constructor
  · intro hinteger
    rw [text_of_isInteger hinteger]
    exact h.whole
  · intro hdigits
    obtain ⟨whole, decimals, exponent⟩ := n
    cases decimals with
    | cons d decimals =>
      have hpoint : '.' ∈ text ⟨whole, d :: decimals, exponent⟩ := by simp [text, decimalsText]
      exact absurd (hdigits _ hpoint) (by decide)
    | nil =>
      cases exponent with
      | some e =>
        have hmark : 'e' ∈ text ⟨whole, [], some e⟩ := by simp [text, exponentText]
        exact absurd (hdigits _ hmark) (by decide)
      | none => rfl

end Numeral

/-! ### The text in plain form -/

theorem Text.skipBlanks_of_forall_not {cs : List Char} (h : ∀ c ∈ cs, isBlank c = false) :
    skipBlanks cs = cs := by
  cases cs with
  | nil => rfl
  | cons c cs => exact skipBlanks_cons_of_not cs (h c (List.mem_cons_self ..))

theorem Text.trim_of_forall_not {cs : List Char} (h : ∀ c ∈ cs, isBlank c = false) :
    trim cs = cs := by
  have hreverse : ∀ c ∈ cs.reverse, isBlank c = false := fun c hc => h c (List.mem_reverse.1 hc)
  rw [trim, skipBlanks_of_forall_not h, skipBlanks_of_forall_not hreverse, List.reverse_reverse]

namespace Reading

theorem trim_of_forall_not {cs : List Char} (h : ∀ c ∈ cs, Text.isBlank c = false) :
    trim cs = cs := by
  have hdrop {ds : List Char} (hds : ∀ c ∈ ds, c ∈ cs) : ds.dropWhile isOuterBlank = ds := by
    cases ds with
    | nil => rfl
    | cons c ds =>
      have hc : isOuterBlank c = false := by
        rw [isOuterBlank, h c (hds c (List.mem_cons_self ..)), Bool.false_and]
      rw [List.dropWhile_cons_of_neg (by simp [hc])]
  have hreverse : ∀ c ∈ cs.reverse, c ∈ cs := fun c hc => List.mem_reverse.1 hc
  rw [trim, hdrop fun _ hc => hc, hdrop hreverse, List.reverse_reverse]

theorem joinDigits?_of_forall_ne {cs : List Char} (h : ∀ c ∈ cs, c ≠ '_') (previous : Char) :
    joinDigits? previous cs = some cs := by
  induction cs generalizing previous with
  | nil => rfl
  | cons c cs ih =>
    obtain ⟨hc, hcs⟩ := List.forall_mem_cons.1 h
    have hplain : joinDigits? previous (c :: cs) = (joinDigits? c cs).map (c :: ·) := by
      rw [joinDigits?]
      · rintro rfl
        exact absurd rfl hc
      · rintro _ _ rfl
        exact absurd rfl hc
    rw [hplain, ih hcs, Option.map_some]

/-! ### The parts of a numeral -/

variable {n : Numeral}

theorem plain?_text (h : n.Plain) : plain? (String.ofList n.text) = some n.text := by
  have hfigures := h.mem_figures
  have htrim : trim n.text = n.text :=
    trim_of_forall_not fun c hc => Numeral.isBlank_figures c (hfigures c hc)
  have hmap : n.text.map Text.plainDigit = n.text.map id :=
    List.map_congr_left fun c hc => Numeral.plainDigit_figures c (hfigures c hc)
  rw [plain?, String.toList_ofList, htrim, hmap, List.map_id]
  exact joinDigits?_of_forall_ne (fun c hc => Numeral.ne_underscore_figures c (hfigures c hc)) _

theorem scan_text (h : n.Plain) : Sign.scan n.text = (.missing, n.text) := by
  have hscan : Sign.scan (n.whole ++ (Numeral.decimalsText n.decimals ++
      Numeral.exponentText n.exponent)) = _ := Numeral.scan_text .missing h.whole h.whole_ne_nil
  rw [Numeral.text, List.append_assoc]
  exact hscan

theorem scanFraction_text (h : n.Plain) :
    scanFraction n.text = (n.whole, n.decimals, Numeral.exponentText n.exponent) := by
  have hends := Numeral.Ends.nil
  obtain ⟨whole, decimals, exponent⟩ := n
  have hhead := Numeral.exponentText_head exponent hends
  have hwhole := Numeral.spanDigits_digits h.whole (Numeral.decimalsText_head decimals exponent hends)
  rw [List.append_nil] at hhead hwhole
  have hdecimals : Numeral.spanDigits (decimals ++ Numeral.exponentText exponent) =
      (decimals, Numeral.exponentText exponent) :=
    Numeral.spanDigits_digits h.decimals fun c hc => (hhead c hc).1
  rw [scanFraction, Numeral.text, List.append_assoc, hwhole]
  cases decimals with
  | nil =>
    have hnone : Numeral.decimalsText [] ++ Numeral.exponentText exponent =
        Numeral.exponentText exponent := rfl
    rw [hnone]
    dsimp only
    split
    · next rest hpoint =>
      rw [hpoint] at hhead
      exact absurd rfl (hhead '.' rfl).2
    · rfl
  | cons d decimals =>
    show (whole, (Numeral.spanDigits (d :: decimals ++ Numeral.exponentText exponent)).1,
      (Numeral.spanDigits (d :: decimals ++ Numeral.exponentText exponent)).2) = _
    rw [hdecimals]

/-- Whole digits alone are an integer, unless they are too many. -/
theorem int?_text (h : n.Plain) : int? (String.ofList n.text) =
    if n.isInteger ∧ n.whole.length ≤ Number.digitLimit then some (Text.digitsValue n.whole : Int)
    else none := by
  have hread : int? (String.ofList n.text) =
      if n.text.isEmpty || !n.text.all Char.isDigit || Number.digitLimit < n.text.length then none
      else some (Sign.missing.apply (Text.digitsValue n.text)) := by
    rw [int?, plain?_text h, Option.bind_eq_bind, Option.bind_some, scan_text h]
  rw [hread]
  by_cases hinteger : n.isInteger
  · have hdigits : n.whole.all Char.isDigit := List.all_eq_true.2 h.whole
    rw [Numeral.text_of_isInteger hinteger, hdigits]
    by_cases hlength : n.whole.length ≤ Number.digitLimit
    · rw [if_neg (by simp [h.whole_ne_nil, hlength]), if_pos ⟨hinteger, hlength⟩]
      rfl
    · rw [if_pos (by simp [Nat.lt_of_not_le hlength]), if_neg fun hboth => hlength hboth.2]
  · have hother : n.text.all Char.isDigit = false := by
      rw [Bool.eq_false_iff, Ne, List.all_eq_true]
      exact mt h.isInteger_iff.2 hinteger
    rw [hother, if_pos (by simp), if_neg fun hboth => hinteger hboth.1]

/-- A numeral is read as the binary64 value nearest to it. -/
theorem float?_text (h : n.Plain) : float? (String.ofList n.text) = some n.toFloat := by
  have hlower : n.text.map Char.toLower = n.text.map id :=
    List.map_congr_left fun c hc => Numeral.toLower_figures c (h.mem_figures c hc)
  have hread : unsignedFloat? n.text = some n.toFloat := by
    obtain ⟨d, cs, hcons, hd⟩ := h.exists_digit
    have hname (name : List Char) (hletter : (name.headD '0').isDigit = false) : n.text ≠ name := by
      rintro rfl
      rw [hcons, List.headD_cons, hd] at hletter
      cases hletter
    have hexponent := Numeral.scanExponent_text h.exponent Numeral.Ends.nil
    rw [List.append_nil] at hexponent
    rw [unsignedFloat?, if_neg (not_or.2 ⟨hname _ (by decide), hname _ (by decide)⟩),
      if_neg (hname _ (by decide)), scanFraction_text h]
    dsimp only
    rw [hexponent]
    simp [h.whole_ne_nil]
  rw [float?, plain?_text h, Option.bind_eq_bind, Option.bind_some, scan_text h]
  dsimp only
  rw [hlower, List.map_id, hread]
  rfl

/-- What a numeral denotes is read back from its text; an integer with too many digits is read as a
binary64 value. -/
theorem number?_text (h : n.Plain) :
    number? (String.ofList n.text) = some (n.value.toOption.getD (.float n.toFloat)) := by
  rw [number?, int?_text h, float?_text h, Numeral.value]
  by_cases hinteger : n.isInteger
  · by_cases hlength : n.whole.length ≤ Number.digitLimit
    · rw [if_pos ⟨hinteger, hlength⟩, if_pos hinteger, if_pos hlength]
      rfl
    · rw [if_neg fun hboth => hlength hboth.2, if_pos hinteger, if_neg hlength]
      rfl
  · rw [if_neg fun hboth => hinteger hboth.1, if_neg hinteger]
    rfl

end Reading

end Reckon
