import Reckon.Proofs.Binary64
import Reckon.Proofs.Decimal.Shortest
import Reckon.Proofs.Text.Json

/-!
Numbers with the same JSON text are the same number.

A finite number is written as a sign and a numeral, and the numeral denotes its digits exactly. The
digits of a binary64 value round to that value alone, so the value is known from its text. An integer
has no point and no exponent, and every binary64 value has one of them; the values that are not finite
have names of their own.

    -12     sign, numeral 12             int -12
    -12.0   sign, numeral 12.0           float
    1e-05   numeral 1e-05                float
-/

namespace Reckon

/-! ### What a numeral denotes -/

/-- The number that a numeral denotes, exactly. -/
def Numeral.toRat (n : Numeral) : ℚ :=
  Text.digitsValue (n.whole ++ n.decimals) *
    10 ^ ((n.exponent.map NumeralExponent.value).getD 0 - n.decimals.length)

namespace Layout

theorem digitsValue_zeros (count : Int) (ds : List Char) :
    Text.digitsValue (zeros count ++ ds) = Text.digitsValue ds := by
  rw [Text.digitsValue_append, zeros, Text.digitsValue_zeros, Nat.zero_mul, Nat.zero_add]

theorem value_exponentOf (e : Int) : (exponentOf e).value = e := by
  rw [NumeralExponent.value, exponentOf, digitsValue_zeros, Text.digitsValue_toDigits]
  by_cases he : e < 0
  · rw [if_pos he, Sign.apply, if_pos rfl]
    omega
  · have hplus : Sign.plus ≠ Sign.minus := by decide
    rw [if_neg he, Sign.apply, if_neg hplus]
    omega

theorem digitsValue_digits (d : Decimal) : Text.digitsValue d.digits = d.coefficient :=
  Text.digitsValue_toDigits d.coefficient

theorem digitsValue_digits_zeros (d : Decimal) (k : Nat) :
    (Text.digitsValue (d.digits ++ List.replicate k '0') : ℚ) = d.coefficient * 10 ^ k := by
  rw [Text.digitsValue_append, Text.digitsValue_zeros, digitsValue_digits, List.length_replicate,
    Nat.add_zero, Nat.cast_mul, cast_pow10]

/-- The numeral that a decimal number is written as denotes it. -/
theorem toRat_numeral (l : Layout) (d : Decimal) : (l.numeral d).toRat = d.toRat := by
  have hleading : d.leading = d.exponent + d.digits.length - 1 := rfl
  have hlength := List.length_pos_iff.2 d.digits_ne_nil
  rw [numeral, Decimal.toRat]
  split
  · split
    -- the point stands behind all digits, within them or before them
    · next hexponent =>
      obtain ⟨k, hk⟩ := Int.eq_ofNat_of_zero_le hexponent
      rw [Numeral.toRat, hk]
      cases l.wholeMark with
      | false =>
        have hdigits := digitsValue_digits_zeros d k
        simpa [zeros] using hdigits
      | true =>
        have hdigits := digitsValue_digits_zeros d (k + 1)
        rw [List.replicate_succ', ← List.append_assoc] at hdigits
        rw [zeros, Int.toNat_natCast, if_pos rfl, hdigits, pow_succ, zpow_natCast]
        simp only [Option.map_none, Option.getD_none, List.length_singleton, Nat.cast_one, zero_sub,
          zpow_neg_one]
        field_simp
    · split
      · rw [Numeral.toRat, List.take_append_drop, digitsValue_digits]
        simp only [Option.map_none, Option.getD_none, List.length_drop]
        congr 2
        omega
      · have hdigits : Text.digitsValue (['0'] ++ (zeros (-d.leading - 1) ++ d.digits)) =
            d.coefficient := by
          have hzero : Text.digitsValue ['0'] = 0 := rfl
          rw [Text.digitsValue_append, digitsValue_zeros, digitsValue_digits, hzero, Nat.zero_mul,
            Nat.zero_add]
        rw [Numeral.toRat, hdigits]
        simp only [Option.map_none, Option.getD_none, List.length_append, zeros, List.length_replicate]
        congr 2
        omega
  · rw [Numeral.toRat, List.take_append_drop, digitsValue_digits]
    simp only [Option.map_some, Option.getD_some, value_exponentOf, List.length_drop]
    congr 2
    omega

/-- The full form of a number shows a point or an exponent. -/
theorem isInteger_full (d : Decimal) : (full.numeral d).isInteger = false := by
  have hleading : d.leading = d.exponent + d.digits.length - 1 := rfl
  rw [numeral]
  split
  · split
    · rfl
    · split
      · have hdrop : d.digits.drop (d.leading.toNat + 1) ≠ [] := by
          rw [Ne, List.drop_eq_nil_iff]
          omega
        simp [Numeral.isInteger, hdrop]
      · simp [Numeral.isInteger, d.digits_ne_nil]
  · simp [Numeral.isInteger]

end Layout

/-! ### The digits of a finite value -/

namespace Decimal

variable {significand significand' : Nat} {power power' : Int}

/-- The number that a finite value is written as, without its sign. -/
def ofParts (significand : Nat) (power : Int) : Decimal :=
  if significand = 0 then ⟨0, 0⟩ else shortest significand power

theorem toRat_ofParts_zero (power : Int) : (ofParts 0 power).toRat = 0 := by
  rw [ofParts, if_pos rfl, toRat, Nat.cast_zero, zero_mul]

theorem mem_ofParts (hc : Canonical significand power) :
    (Interval.around significand power).Mem (power - 2) (ofParts significand power).toRat := by
  rw [ofParts, if_neg hc.pos.ne']
  exact mem_shortest hc

theorem toRat_ofParts_pos (hc : Canonical significand power) :
    0 < (ofParts significand power).toRat := by
  obtain ⟨hlow, _⟩ := Interval.low_le (mem_ofParts hc)
  have hunit : (0 : ℚ) < 2 ^ (power - 2) := by positivity
  have hends := Interval.low_around power hc.pos
  have hsignificand := hc.pos
  have hpos : 0 < (Interval.around significand power).low := by omega
  have hcast : (0 : ℚ) < (Interval.around significand power).low := by exact_mod_cast hpos
  exact (mul_pos hcast hunit).trans_le hlow

/-- The digits of a finite value tell it apart. -/
theorem ofParts_inj
    (h : significand = 0 ∧ power = Binary64.leastPower ∨ Canonical significand power)
    (h' : significand' = 0 ∧ power' = Binary64.leastPower ∨ Canonical significand' power')
    (heq : (ofParts significand power).toRat = (ofParts significand' power').toRat) :
    significand = significand' ∧ power = power' := by
  rcases h with ⟨rfl, rfl⟩ | hc
  · rcases h' with ⟨rfl, rfl⟩ | hc'
    · exact ⟨rfl, rfl⟩
    · rw [toRat_ofParts_zero] at heq
      exact absurd heq (toRat_ofParts_pos hc').ne
  · rcases h' with ⟨rfl, rfl⟩ | hc'
    · rw [toRat_ofParts_zero] at heq
      exact absurd heq (toRat_ofParts_pos hc).ne'
    · exact Interval.mem_unique hc hc' (mem_ofParts hc) (heq ▸ mem_ofParts hc')

end Decimal

/-! ### Numbers in JSON -/

theorem Json.Ends.numeral {rest : List Char} (h : Json.Ends rest) : Numeral.Ends rest := by
  intro c hc
  rcases h c hc with rfl | rfl <;> decide

namespace Number

/-- The sign and the numeral that a finite number is written with. -/
inductive Denoted : Number → Bool → Numeral → Prop
  | int {i : Int} : Denoted (.int i) (decide (i < 0)) (Numeral.ofNat i.natAbs)
  | float {x : Float} {negative : Bool} {significand : Nat} {power : Int} :
      Binary64.parts x = .finite negative significand power →
      Denoted (.float x) negative (Layout.full.numeral (Decimal.ofParts significand power))

namespace Denoted

variable {n n' : Number} {negative negative' : Bool} {numeral numeral' : Numeral}

theorem plain (h : Denoted n negative numeral) : numeral.Plain := by
  cases h with
  | int => exact Numeral.plain_ofNat _
  | float => exact Layout.plain_numeral _ _

/-- A number is known by its sign and its numeral. -/
theorem unique (h : Denoted n negative numeral) (h' : Denoted n' negative' numeral')
    (hsign : negative = negative') (hnumeral : numeral = numeral') : n = n' := by
  cases h with
  | @int i =>
    cases h' with
    | @int j =>
      have hdigits : Nat.toDigits 10 i.natAbs = Nat.toDigits 10 j.natAbs :=
        congrArg Numeral.whole hnumeral
      have habs := congrArg Text.digitsValue hdigits
      rw [Text.digitsValue_toDigits, Text.digitsValue_toDigits] at habs
      rw [decide_eq_decide] at hsign
      have heq : i = j := by omega
      rw [heq]
    -- the full form of a float shows a point or an exponent, so it is no integer's
    | float =>
      have hinteger := congrArg Numeral.isInteger hnumeral
      rw [Layout.isInteger_full] at hinteger
      cases hinteger
  | float hparts =>
    cases h' with
    | int =>
      have hinteger := congrArg Numeral.isInteger hnumeral
      rw [Layout.isInteger_full] at hinteger
      cases hinteger
    | float hparts' =>
      have hvalue := congrArg Numeral.toRat hnumeral
      rw [Layout.toRat_numeral, Layout.toRat_numeral] at hvalue
      obtain ⟨rfl, rfl⟩ := Decimal.ofParts_inj (Binary64.canonical_of_parts hparts)
        (Binary64.canonical_of_parts hparts') hvalue
      rw [Binary64.parts_inj (hparts.trans (hsign ▸ hparts'.symm))]

end Denoted

/-- A sign and what is written behind it: a name, or the text of a numeral. -/
inductive Laid : Number → Bool → List Char → Prop
  | nan {x : Float} : Binary64.parts x = .nan → Laid (.float x) false "NaN".toList
  | infinite {x : Float} {negative : Bool} :
      Binary64.parts x = .infinite negative → Laid (.float x) negative "Infinity".toList
  | numeral {n : Number} {negative : Bool} {numeral : Numeral} :
      Denoted n negative numeral → Laid n negative numeral.text

/-- A sign in front of a number. -/
def signText (negative : Bool) : List Char := if negative then ['-'] else []

theorem exists_laid (n : Number) :
    ∃ negative body, Laid n negative body ∧ n.json.toList = signText negative ++ body := by
  cases n with
  | int i =>
    refine ⟨_, _, .numeral .int, ?_⟩
    rw [json, intText, String.toList_ofList, Numeral.text_ofNat, signText]
    by_cases hi : i < 0 <;> simp [hi]
  | float x =>
    cases hparts : Binary64.parts x with
    | nan => exact ⟨_, _, .nan hparts, by rw [json, hparts]; rfl⟩
    | infinite negative =>
      refine ⟨_, _, .infinite hparts, ?_⟩
      rw [json, hparts]
      cases negative <;> simp [signText]
    | finite negative significand power =>
      refine ⟨_, _, .numeral (.float hparts), ?_⟩
      rw [json, hparts, Layout.text_numeral]
      dsimp only
      rw [Layout.fullText, String.toList_ofList, Layout.value, hparts]
      rfl

namespace Laid

variable {n n' : Number} {negative negative' : Bool} {body body' : List Char}

theorem head (h : Laid n negative body) : ∃ c cs, body = c :: cs ∧ (c.isDigit ∨ c = 'N' ∨ c = 'I') := by
  cases h with
  | nan => exact ⟨'N', _, rfl, by decide⟩
  | infinite => exact ⟨'I', _, rfl, by decide⟩
  | numeral hn =>
    obtain ⟨d, ds, hcons, hd⟩ := hn.plain.exists_digit
    exact ⟨d, ds, hcons, .inl hd⟩

theorem letter_ne {numeral : Numeral} {c : Char} {cs rest : List Char}
    (h : Denoted n negative numeral) (hc : c.isDigit = false) : c :: cs ≠ numeral.text ++ rest := by
  obtain ⟨d, ds, hcons, hd⟩ := h.plain.exists_digit
  rw [hcons]
  intro heq
  obtain ⟨rfl, _⟩ := List.cons.inj heq
  rw [hc] at hd
  cases hd

/-- What is written behind equal signs tells the numbers apart. -/
theorem inj {rest rest' : List Char} (h : Laid n negative body) (h' : Laid n' negative' body')
    (hsign : negative = negative') (hrest : Json.Ends rest) (hrest' : Json.Ends rest')
    (heq : body ++ rest = body' ++ rest') : n = n' ∧ rest = rest' := by
  cases h with
  | nan hx =>
    cases h' with
    | nan hy => exact ⟨congrArg _ (Binary64.parts_inj (hx.trans hy.symm)), List.append_cancel_left heq⟩
    | infinite _ => exact absurd (List.cons.inj heq).1 (by decide)
    | numeral hn => exact absurd heq (letter_ne hn (by decide))
  | infinite hx =>
    cases h' with
    | nan _ => exact absurd (List.cons.inj heq).1 (by decide)
    | infinite hy =>
      exact ⟨congrArg _ (Binary64.parts_inj (hx.trans (hsign ▸ hy.symm))),
        List.append_cancel_left heq⟩
    | numeral hn => exact absurd heq (letter_ne hn (by decide))
  | numeral hn =>
    cases h' with
    | nan _ => exact absurd heq.symm (letter_ne hn (by decide))
    | infinite _ => exact absurd heq.symm (letter_ne hn (by decide))
    | numeral hn' =>
      have hscan := Numeral.scan?_text hn.plain hrest.numeral
      rw [heq, Numeral.scan?_text hn'.plain hrest'.numeral] at hscan
      obtain ⟨hnumeral, hsame⟩ := Prod.mk.inj (Option.some.inj hscan)
      exact ⟨hn.unique hn' hsign hnumeral.symm, hsame.symm⟩

end Laid

theorem head_json (n : Number) :
    ∃ c cs, n.json.toList = c :: cs ∧ (c = '-' ∨ c.isDigit ∨ c = 'N' ∨ c = 'I') := by
  obtain ⟨negative, body, hlaid, hjson⟩ := n.exists_laid
  obtain ⟨c, cs, rfl, hc⟩ := hlaid.head
  rw [hjson]
  cases negative with
  | true => exact ⟨'-', _, rfl, .inl rfl⟩
  | false => exact ⟨c, cs, rfl, .inr hc⟩

theorem append_json_ne (n : Number) {c : Char} (hc : c = '"' ∨ c = 'n') (rest cs : List Char) :
    n.json.toList ++ rest ≠ c :: cs := by
  obtain ⟨d, ds, hjson, hd⟩ := n.head_json
  rw [hjson]
  intro heq
  obtain ⟨rfl, _⟩ := List.cons.inj heq
  rcases hc with rfl | rfl <;> revert hd <;> decide

/-- Numbers are told apart in JSON. -/
theorem code_json : Json.Code Number.json where
  head n := by
    obtain ⟨c, cs, hjson, hc⟩ := n.head_json
    refine ⟨c, cs, hjson, ?_⟩
    rintro rfl
    revert hc
    decide
  inj {a b rest rest'} hrest hrest' h := by
    obtain ⟨negative, body, hlaid, hjson⟩ := a.exists_laid
    obtain ⟨negative', body', hlaid', hjson'⟩ := b.exists_laid
    rw [hjson, hjson', List.append_assoc, List.append_assoc] at h
    have hminus {n : Number} {negative : Bool} {body : List Char} (hlaid : Laid n negative body)
        (cs rest : List Char) : '-' :: cs ≠ body ++ rest := by
      obtain ⟨c, cs, rfl, hc⟩ := hlaid.head
      intro heq
      obtain ⟨rfl, _⟩ := List.cons.inj heq
      revert hc
      decide
    -- the sign is the first character, so both numbers have the same one
    cases negative with
    | true =>
      cases negative' with
      | true => exact hlaid.inj hlaid' rfl hrest hrest' (List.cons.inj h).2
      | false => exact absurd h (hminus hlaid' _ _)
    | false =>
      cases negative' with
      | true => exact absurd h.symm (hminus hlaid _ _)
      | false => exact hlaid.inj hlaid' rfl hrest hrest' h

end Number

end Reckon
