import Mathlib.Data.List.TakeWhile
import Reckon.Number.Numeral

/-!
A numeral that is written is read back.

A plain numeral has a digit in each place that needs one. Its text is scanned back to the same
numeral, whatever is written behind it, unless that goes on the numeral: a digit, a point or an
exponent mark.

    1.50e-3 │ + x        numeral 1.50e-3, rest + x
-/

namespace Reckon

namespace Numeral

/-- Digits in all places of the numeral, at least one of them before the point and in an exponent. -/
structure Plain (n : Numeral) : Prop where
  whole_ne_nil : n.whole ≠ []
  whole : ∀ c ∈ n.whole, c.isDigit
  decimals : ∀ c ∈ n.decimals, c.isDigit
  exponent : ∀ e ∈ n.exponent, e.digits ≠ [] ∧ ∀ c ∈ e.digits, c.isDigit

/-- A text that does not go on a numeral before it. -/
def Ends (cs : List Char) : Prop := ∀ c ∈ cs.head?, ¬ c.isDigit ∧ c ≠ '.' ∧ c ≠ 'e'

variable {ds rest : List Char}

theorem Ends.nil : Ends [] := by
  intro c hc
  cases hc

theorem Ends.parenthesis (cs : List Char) : Ends (')' :: cs) := by
  intro c hc
  obtain rfl : ')' = c := by simpa using hc
  decide

theorem Ends.not_digit (h : Ends rest) : ∀ c ∈ rest.head?, ¬ c.isDigit := fun c hc => (h c hc).1

theorem spanDigits_digits (hds : ∀ c ∈ ds, c.isDigit) (hrest : ∀ c ∈ rest.head?, ¬ c.isDigit) :
    spanDigits (ds ++ rest) = (ds, rest) := by
  have hspan : spanDigits rest = ([], rest) := by
    cases rest with
    | nil => rfl
    | cons c rest =>
      have hc : ¬ c.isDigit := hrest c rfl
      rw [spanDigits, List.takeWhile_cons_of_neg hc, List.dropWhile_cons_of_neg hc]
  rw [spanDigits, Prod.mk.injEq] at hspan
  rw [spanDigits, List.takeWhile_append_of_pos hds, List.dropWhile_append_of_pos hds, hspan.1,
    hspan.2, List.append_nil]

theorem scanDecimals_text (hds : ∀ c ∈ ds, c.isDigit)
    (hrest : ∀ c ∈ rest.head?, ¬ c.isDigit ∧ c ≠ '.') :
    scanDecimals (decimalsText ds ++ rest) = (ds, rest) := by
  cases ds with
  | nil =>
    cases rest with
    | nil => rfl
    | cons c rest =>
      have hc : c ≠ '.' := (hrest c rfl).2
      simp [decimalsText, scanDecimals, hc]
  | cons d ds =>
    have hspan := spanDigits_digits hds fun c hc => (hrest c hc).1
    rw [decimalsText, if_neg (by simp), List.cons_append, scanDecimals, hspan]

theorem scan_text (s : Sign) (hds : ∀ c ∈ ds, c.isDigit) (hne : ds ≠ []) :
    Sign.scan (s.text ++ ds ++ rest) = (s, ds ++ rest) := by
  cases s with
  | plus => rfl
  | minus => rfl
  | missing =>
    cases ds with
    | nil => exact absurd rfl hne
    | cons d ds =>
      have hd : d.isDigit := hds d (List.mem_cons_self ..)
      have hminus : d ≠ '-' := by
        rintro rfl
        cases hd
      have hplus : d ≠ '+' := by
        rintro rfl
        cases hd
      simp [Sign.text, Sign.scan, hminus, hplus]

theorem scanExponent_text {e : Option NumeralExponent}
    (he : ∀ e' ∈ e, e'.digits ≠ [] ∧ ∀ c ∈ e'.digits, c.isDigit) (hrest : Ends rest) :
    scanExponent (exponentText e ++ rest) = (e, rest) := by
  cases e with
  | none =>
    cases rest with
    | nil => rfl
    | cons c rest =>
      have hc : c ≠ 'e' := (hrest c rfl).2.2
      simp [exponentText, scanExponent, hc]
  | some e =>
    obtain ⟨sign, digits⟩ := e
    obtain ⟨hne, hdigits⟩ := he _ rfl
    have hspan := spanDigits_digits hdigits hrest.not_digit
    rw [exponentText, List.cons_append, List.cons_append, scanExponent,
      scan_text sign hdigits hne, hspan]
    cases digits with
    | nil => exact absurd rfl hne
    | cons d digits => rfl

theorem exponentText_head (e : Option NumeralExponent) (hrest : Ends rest) :
    ∀ c ∈ (exponentText e ++ rest).head?, ¬ c.isDigit ∧ c ≠ '.' := by
  intro c hc
  cases e with
  | none => exact ⟨(hrest c hc).1, (hrest c hc).2.1⟩
  | some e =>
    obtain rfl : 'e' = c := by simpa [exponentText] using hc
    decide

theorem decimalsText_head (ds : List Char) (e : Option NumeralExponent) (hrest : Ends rest) :
    ∀ c ∈ (decimalsText ds ++ (exponentText e ++ rest)).head?, ¬ c.isDigit := by
  intro c hc
  cases ds with
  | nil => exact (exponentText_head e hrest c hc).1
  | cons d ds =>
    obtain rfl : '.' = c := by simpa [decimalsText] using hc
    decide

/-- A plain numeral is scanned back from its text. -/
theorem scan?_text {n : Numeral} (h : n.Plain) (hrest : Ends rest) :
    scan? (n.text ++ rest) = some (n, rest) := by
  obtain ⟨whole, decimals, exponent⟩ := n
  have hspan := spanDigits_digits h.whole (decimalsText_head decimals exponent hrest)
  have hdecimals := scanDecimals_text h.decimals (exponentText_head exponent hrest)
  have hexponent := scanExponent_text h.exponent hrest
  rw [scan?, text, List.append_assoc, List.append_assoc, hspan]
  cases whole with
  | nil => exact absurd rfl h.whole_ne_nil
  | cons d whole =>
    dsimp only
    rw [hdecimals]
    dsimp only
    rw [hexponent]

/-! ### What is scanned is plain -/

theorem isDigit_of_mem_spanDigits {cs : List Char} : ∀ c ∈ (spanDigits cs).1, c.isDigit :=
  fun _ hc => List.mem_takeWhile_imp hc

theorem isDigit_of_mem_scanDecimals {cs : List Char} : ∀ c ∈ (scanDecimals cs).1, c.isDigit := by
  unfold scanDecimals
  split
  · next cs =>
    split
    · simp
    · exact isDigit_of_mem_spanDigits
  · simp

theorem plain_scanExponent {cs : List Char} :
    ∀ e ∈ (scanExponent cs).1, e.digits ≠ [] ∧ ∀ c ∈ e.digits, c.isDigit := by
  unfold scanExponent
  split
  · next cs =>
    have hdigits : ∀ c ∈ (spanDigits (Sign.scan cs).2).1, c.isDigit := isDigit_of_mem_spanDigits
    split
    · simp
    · next digits rest hne hspan =>
      rw [hspan] at hdigits
      intro e he
      obtain rfl := Option.some.inj he
      exact ⟨hne, hdigits⟩
  · simp

theorem plain_of_scan? {cs : List Char} {n : Numeral} (h : scan? cs = some (n, rest)) :
    n.Plain := by
  have hwhole : ∀ c ∈ (spanDigits cs).1, c.isDigit := isDigit_of_mem_spanDigits
  unfold scan? at h
  split at h
  · cases h
  · next whole rest₁ hne hspan =>
    rw [hspan] at hwhole
    obtain ⟨rfl, rfl⟩ := Prod.mk.inj (Option.some.inj h)
    exact ⟨hne, hwhole, isDigit_of_mem_scanDecimals, plain_scanExponent⟩

theorem Plain.mem_text {n : Numeral} (h : n.Plain) :
    ∀ c ∈ n.text, c.isDigit ∨ c ∈ ['.', 'e', '+', '-'] := by
  obtain ⟨whole, decimals, exponent⟩ := n
  intro c hc
  rw [text, List.mem_append, List.mem_append] at hc
  rcases hc with (hc | hc) | hc
  · exact .inl (h.whole c hc)
  · cases decimals with
    | nil => cases hc
    | cons d decimals =>
      rcases List.mem_cons.1 hc with rfl | hc
      · exact .inr (by decide)
      · exact .inl (h.decimals c hc)
  · cases exponent with
    | none => cases hc
    | some e =>
      obtain ⟨sign, digits⟩ := e
      rcases List.mem_append.1 hc with hc | hc
      · have hsign : ∀ sign, ∀ c ∈ 'e' :: Sign.text sign, c ∈ ['.', 'e', '+', '-'] := by
          intro sign
          cases sign <;> simp [Sign.text]
        exact .inr (hsign sign c hc)
      · exact .inl ((h.exponent _ rfl).2 c hc)

theorem Plain.exists_digit {n : Numeral} (h : n.Plain) :
    ∃ d cs, n.text = d :: cs ∧ d.isDigit := by
  obtain ⟨whole, decimals, exponent⟩ := n
  cases whole with
  | nil => exact absurd rfl h.whole_ne_nil
  | cons d whole => exact ⟨d, _, rfl, h.whole d (List.mem_cons_self ..)⟩

end Numeral

end Reckon
