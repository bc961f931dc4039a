import Reckon.Proofs.Number.Numeral

/-!
The text of a value inside a formula is a plain numeral, behind a minus sign and in parentheses where
the value is negative.

The digits of a finite value are laid out as one numeral, in positional form or with an exponent, and
an integer is written by its digits. So the text can be read back as one number, the one that stands
for the value without its sign.

    -3     ──▶  (-3)         numeral 3,      minus
    0.5    ──▶  0.5          numeral 0.5
    1e-7   ──▶  1e-07        numeral 1e-07
-/

namespace Reckon

/-! ### Digits -/

theorem Text.digitsValue_toDigits (n : Nat) : digitsValue (Nat.toDigits 10 n) = n := by
  have hfold : Nat.ofDigitChars 10 (Nat.toDigits 10 n) 0 = _ := Nat.ofDigitChars_eq_foldl
  rw [Nat.ofDigitChars_ten_toDigits] at hfold
  exact hfold.symm

theorem Text.digitsValue_append (ds es : List Char) :
    digitsValue (ds ++ es) = digitsValue ds * pow10 es.length + digitsValue es := by
  have hfold (n : Nat) : es.foldl (fun n d => 10 * n + (d.toNat - 48)) n =
      n * pow10 es.length + es.foldl (fun n d => 10 * n + (d.toNat - 48)) 0 := by
    induction es generalizing n with
    | nil => simp [pow10]
    | cons d es ih =>
      have hpow : pow10 (es.length + 1) = 10 * pow10 es.length := Nat.pow_succ'
      rw [List.foldl_cons, List.foldl_cons, ih, ih (10 * 0 + (d.toNat - 48)), List.length_cons, hpow,
        Nat.add_mul, Nat.mul_zero, Nat.zero_add, Nat.add_assoc, Nat.mul_comm 10 n, Nat.mul_assoc]
  rw [digitsValue, List.foldl_append, hfold]
  rfl

theorem Text.digitsValue_zeros (k : Nat) : digitsValue (List.replicate k '0') = 0 := by
  induction k with
  | zero => rfl
  | succ k ih => exact ih

/-- A run of digits denotes a number with no more digits. -/
theorem Text.digitsValue_lt {ds : List Char} (hds : ∀ c ∈ ds, c.isDigit) :
    digitsValue ds < pow10 ds.length := by
  have hfold : ∀ k n, n < pow10 k →
      ds.foldl (fun n d => 10 * n + (d.toNat - 48)) n < pow10 (k + ds.length) := by
    induction ds with
    | nil => exact fun _ _ hn => hn
    | cons d ds ih =>
      intro k n hn
      obtain ⟨hd, hds⟩ := List.forall_mem_cons.1 hds
      have hdigit : d.toNat ≤ 57 := (Char.isDigit_iff_toNat.1 hd).2
      have hnext : 10 * n + (d.toNat - 48) < pow10 (k + 1) := by
        have hpow : pow10 (k + 1) = pow10 k * 10 := rfl
        omega
      have hrest := ih hds (k + 1) _ hnext
      rw [Nat.add_assoc, Nat.add_comm 1] at hrest
      exact hrest
  have hzero := hfold 0 0 (pow10_pos 0)
  rw [Nat.zero_add] at hzero
  exact hzero

theorem isDigit_toDigits (n : Nat) : ∀ c ∈ Nat.toDigits 10 n, c.isDigit :=
  fun _ hc => Nat.isDigit_of_mem_toDigits (by decide) (by decide) hc

theorem Decimal.isDigit_digits (d : Decimal) : ∀ c ∈ d.digits, c.isDigit := isDigit_toDigits _

theorem Decimal.digits_ne_nil (d : Decimal) : d.digits ≠ [] := Nat.toDigits_ne_nil

namespace Layout

theorem isDigit_zeros (count : Int) : ∀ c ∈ zeros count, c.isDigit := by
  intro c hc
  obtain ⟨_, rfl⟩ := List.mem_replicate.1 hc
  decide

theorem isDigit_append {ds es : List Char} (hds : ∀ c ∈ ds, c.isDigit) (hes : ∀ c ∈ es, c.isDigit) :
    ∀ c ∈ ds ++ es, c.isDigit := by
  intro c hc
  rcases List.mem_append.1 hc with hc | hc
  · exact hds c hc
  · exact hes c hc

/-! ### The numeral of a decimal number -/

/-- The exponent behind the digits of a number. -/
def exponentOf (e : Int) : NumeralExponent :=
  ⟨if e < 0 then .minus else .plus,
    zeros (2 - (Nat.toDigits 10 e.natAbs).length) ++ Nat.toDigits 10 e.natAbs⟩

/-- The numeral that a decimal number is written as. -/
def numeral (l : Layout) (d : Decimal) : Numeral :=
  if l.least ≤ d.leading ∧ d.leading < l.limit then
    if 0 ≤ d.exponent then
      ⟨d.digits ++ zeros d.exponent, if l.wholeMark then ['0'] else [], none⟩
    else if 0 ≤ d.leading then
      ⟨d.digits.take (d.leading.toNat + 1), d.digits.drop (d.leading.toNat + 1), none⟩
    else ⟨['0'], zeros (-d.leading - 1) ++ d.digits, none⟩
  else ⟨d.digits.take 1, d.digits.drop 1, some (exponentOf d.leading)⟩

theorem exponentText_exponentOf (e : Int) :
    Numeral.exponentText (some (exponentOf e)) = 'e' :: exponentText e := by
  rw [exponentOf, Numeral.exponentText, exponentText]
  by_cases he : e < 0
  · rw [if_pos he, if_pos he]
    rfl
  · rw [if_neg he, if_neg he]
    rfl

theorem decimalsText_of_ne_nil {ds : List Char} (h : ds ≠ []) :
    Numeral.decimalsText ds = '.' :: ds := by
  rw [Numeral.decimalsText, if_neg (by simpa using h)]

/-- The written form is the text of the numeral. -/
theorem text_numeral (l : Layout) (d : Decimal) : (l.numeral d).text = l.decimal d := by
  rw [numeral, decimal]
  by_cases hform : l.least ≤ d.leading ∧ d.leading < l.limit
  · rw [if_pos hform, if_pos hform, positional]
    by_cases hexponent : 0 ≤ d.exponent
    · rw [if_pos hexponent, if_pos hexponent, Numeral.text]
      cases l.wholeMark <;> simp [Numeral.decimalsText, Numeral.exponentText]
    rw [if_neg hexponent, if_neg hexponent]
    by_cases hleading : 0 ≤ d.leading
    · have hdrop : d.digits.drop (d.leading.toNat + 1) ≠ [] := by
        have hlength : d.leading = d.exponent + d.digits.length - 1 := rfl
        rw [Ne, List.drop_eq_nil_iff]
        omega
      rw [if_pos hleading, if_pos hleading, Numeral.text, decimalsText_of_ne_nil hdrop]
      simp [Numeral.exponentText]
    · have hne : zeros (-d.leading - 1) ++ d.digits ≠ [] := by simp [d.digits_ne_nil]
      rw [if_neg hleading, if_neg hleading, Numeral.text, decimalsText_of_ne_nil hne]
      simp [Numeral.exponentText]
  · rw [if_neg hform, if_neg hform, scientific, Numeral.text, exponentText_exponentOf]
    cases hdigits : d.digits with
    | nil => exact absurd hdigits d.digits_ne_nil
    | cons c ds => cases ds <;> rfl

/-- A number is written with digits in all places. -/
theorem plain_numeral (l : Layout) (d : Decimal) : (l.numeral d).Plain := by
  have htake : ∀ k, ∀ c ∈ d.digits.take k, c.isDigit :=
    fun k c hc => d.isDigit_digits c (List.mem_of_mem_take hc)
  have hdrop : ∀ k, ∀ c ∈ d.digits.drop k, c.isDigit :=
    fun k c hc => d.isDigit_digits c (List.mem_of_mem_drop hc)
  have hfirst : ∀ k, d.digits.take (k + 1) ≠ [] := by
    intro k
    rw [Ne, List.take_eq_nil_iff]
    simp [d.digits_ne_nil]
  rw [numeral]
  split
  · split
    · refine ⟨by simp [d.digits_ne_nil], isDigit_append d.isDigit_digits (isDigit_zeros _), ?_,
        nofun⟩
      cases l.wholeMark <;> simp
    · split
      · exact ⟨hfirst _, htake _, hdrop _, nofun⟩
      · exact ⟨by simp, by simp, isDigit_append (isDigit_zeros _) d.isDigit_digits, nofun⟩
  · refine ⟨hfirst 0, htake 1, hdrop 1, ?_⟩
    intro e he
    obtain rfl := Option.some.inj he
    exact ⟨by simp [exponentOf, Nat.toDigits_ne_nil],
      isDigit_append (isDigit_zeros _) (isDigit_toDigits _)⟩

/-- The brief form of a number denotes one: an integer has at most twelve digits. -/
theorem exists_value_numeral (d : Decimal) : ∃ w, (brief.numeral d).value = .ok w := by
  have hlength : d.leading = d.exponent + d.digits.length - 1 := rfl
  rw [Numeral.value]
  split
  · next hint =>
    have hwhole : (brief.numeral d).whole.length ≤ Number.digitLimit := by
      rw [numeral] at hint ⊢
      split
      · next hform =>
        have hlimit : d.leading < 12 := hform.2
        split
        · simp only [zeros, List.length_append, List.length_replicate, Number.digitLimit]
          omega
        · split
          · simp only [List.length_take, Number.digitLimit]
            omega
          · simp [Number.digitLimit]
      · simp only [List.length_take, Number.digitLimit]
        omega
    rw [if_pos hwhole]
    exact ⟨_, rfl⟩
  · exact ⟨_, rfl⟩

end Layout

/-! ### Numerals that denote numbers -/

namespace Numeral

/-- What a numeral denotes can be written again. -/
theorem isWritable_of_value {numeral : Numeral} {w : Number} (h : numeral.Plain)
    (hvalue : numeral.value = .ok w) : w.isWritable := by
  rw [value] at hvalue
  split at hvalue
  · split at hvalue
    · next hlength =>
      obtain rfl := Except.ok.inj hvalue
      have hpow : ∀ k, numeral.whole.length ≤ k → pow10 numeral.whole.length ≤ pow10 k :=
        fun k hk => Nat.pow_le_pow_right (by decide) hk
      rw [Number.isWritable, decide_eq_true_iff, Number.unwritable, Int.natAbs_natCast]
      exact Nat.lt_of_lt_of_le (Text.digitsValue_lt h.whole) (hpow _ hlength)
    · cases hvalue
  · obtain rfl := Except.ok.inj hvalue
    rfl

/-- The numeral of whole digits alone. -/
def ofDigits (ds : List Char) : Numeral := ⟨ds, [], none⟩

theorem plain_ofDigits {ds : List Char} (hne : ds ≠ []) (hds : ∀ c ∈ ds, c.isDigit) :
    (ofDigits ds).Plain := ⟨hne, hds, nofun, nofun⟩

theorem text_ofDigits (ds : List Char) : (ofDigits ds).text = ds := by
  simp [ofDigits, text, decimalsText, exponentText]

theorem value_ofDigits {ds : List Char} (h : ds.length ≤ Number.digitLimit) :
    (ofDigits ds).value = .ok (.int (Text.digitsValue ds)) := by
  have hint : (ofDigits ds).isInteger := rfl
  have hwhole : (ofDigits ds).whole = ds := rfl
  rw [value, if_pos hint, hwhole, if_pos h]

/-- The numeral that a natural number is written as. -/
def ofNat (n : Nat) : Numeral := ⟨Nat.toDigits 10 n, [], none⟩

theorem plain_ofNat (n : Nat) : (ofNat n).Plain :=
  plain_ofDigits Nat.toDigits_ne_nil (isDigit_toDigits n)

theorem text_ofNat (n : Nat) : (ofNat n).text = Nat.toDigits 10 n := text_ofDigits _

theorem value_ofNat {n : Nat} (h : (Nat.toDigits 10 n).length ≤ Number.digitLimit) :
    (ofNat n).value = .ok (.int n) := by
  have hvalue := value_ofDigits h
  rw [Text.digitsValue_toDigits] at hvalue
  exact hvalue

end Numeral

/-! ### Values inside a formula -/

namespace Number

variable {n : Number} {negative : Bool} {numeral : Numeral} {w : Number}

/-- Whether the number is an integer or a finite binary64 value. -/
def isFinite : Number → Bool
  | .int _ => true
  | .float x =>
    match Binary64.parts x with
    | .finite .. => true
    | _ => false

/-- Whether the text of the number has a minus sign in front, inside its parentheses. -/
def isSigned (n : Number) : Bool := (n.substituteText?.getD "").toList.take 2 = ['(', '-']

/-- The number that is denoted by the numeral in the text of the number, without the sign. -/
def unsigned (n : Number) : Number :=
  match Numeral.scan? ((n.substituteText?.getD "").toList.dropWhile fun c => !c.isDigit) with
  | some (numeral, _) => numeral.value.toOption.getD n
  | none => n

/-- The text of a numeral with a minus sign or without. -/
def signedText (negative : Bool) (numeral : Numeral) : List Char :=
  if negative then '(' :: '-' :: numeral.text ++ [')'] else numeral.text

theorem toList_intText (n : Nat) : (intText n).toList = Nat.toDigits 10 n := by
  rw [intText, if_neg (by omega), String.toList_ofList, Int.natAbs_natCast]

theorem isWritable_int {n : Int} :
    (Number.int n).isWritable ↔ (Nat.toDigits 10 n.natAbs).length ≤ digitLimit := by
  rw [isWritable, decide_eq_true_iff, unwritable, pow10, Nat.pow_eq,
    Nat.length_toDigits_le_iff (by decide) (by decide)]

/-- Sign and number are read back from the text. -/
theorem isSigned_unsigned (hnumeral : numeral.Plain) (hvalue : numeral.value = .ok w)
    (h : n.substituteText? = some (String.ofList (signedText negative numeral))) :
    n.isSigned = negative ∧ n.unsigned = w := by
  -- a negative number stands in parentheses, which end its numeral as the end of the text does
  have hends := Numeral.Ends.nil
  have hscan := Numeral.scan?_text hnumeral hends
  have hscan' := Numeral.scan?_text hnumeral (.parenthesis [])
  obtain ⟨d, cs, hcons, hd⟩ := hnumeral.exists_digit
  have hparenthesis : d ≠ '(' := by
    rintro rfl
    cases hd
  rw [isSigned, unsigned, h, signedText, Option.getD_some, String.toList_ofList]
  rw [hcons] at hscan hscan' ⊢
  cases negative with
  | true =>
    have hskip : ('(' :: '-' :: (d :: cs) ++ [')']).dropWhile (fun c => !c.isDigit) =
        d :: cs ++ [')'] := by
      have hopening : ('(').isDigit = false := rfl
      have hminus : ('-').isDigit = false := rfl
      simp [hopening, hminus, hd]
    rw [if_pos rfl, hskip, hscan']
    refine ⟨by simp, ?_⟩
    show numeral.value.toOption.getD n = w
    rw [hvalue]
    rfl
  | false =>
    have hskip : (d :: cs).dropWhile (fun c => !c.isDigit) = d :: cs := by simp [hd]
    rw [List.append_nil] at hscan
    rw [if_neg (by decide), hskip, hscan]
    refine ⟨?_, ?_⟩
    · cases cs <;> simp [hparenthesis]
    · show numeral.value.toOption.getD n = w
      rw [hvalue]
      rfl

/-- A text that is a numeral, maybe behind a minus sign, as it stands inside a formula. -/
theorem parenthesize_eq (hnumeral : numeral.Plain) {s : String}
    (hs : s.toList = if negative then '-' :: numeral.text else numeral.text) :
    (if s.toList.head? = some '-' then "(" ++ s ++ ")" else s) =
      String.ofList (signedText negative numeral) := by
  obtain ⟨d, cs, hcons, hd⟩ := hnumeral.exists_digit
  have hminus : d ≠ '-' := by
    rintro rfl
    cases hd
  rw [signedText]
  refine String.toList_injective ?_
  cases negative with
  | true =>
    rw [if_pos rfl] at hs
    rw [hs, if_pos (by simp), if_pos rfl]
    simp [hs]
  | false =>
    rw [if_neg (by decide)] at hs
    rw [hs, hcons, if_neg (by simpa using hminus), if_neg (by decide), hs, hcons,
      String.toList_ofList]

theorem substituteText?_int {i : Int} (h : (Number.int i).isWritable) :
    (Number.int i).substituteText? =
      some (String.ofList (signedText (i < 0) (Numeral.ofNat i.natAbs))) := by
  rw [substituteText?, text?, if_pos h]
  refine congrArg some (parenthesize_eq (Numeral.plain_ofNat _) ?_)
  show (intText i).toList = _
  rw [intText, String.toList_ofList, Numeral.text_ofNat]
  simp

theorem isSigned_unsigned_int {i : Int} (h : (Number.int i).isWritable) :
    (Number.int i).isSigned = decide (i < 0) ∧ (Number.int i).unsigned = .int i.natAbs :=
  isSigned_unsigned (Numeral.plain_ofNat _) (Numeral.value_ofNat (isWritable_int.1 h))
    (substituteText?_int h)

/-- The text of a finite value is a numeral that denotes the value without its sign. -/
theorem exists_numeral (hw : n.isWritable) (hfinite : n.isFinite) :
    ∃ numeral : Numeral, numeral.Plain ∧ numeral.value = .ok n.unsigned ∧
      n.substituteText? = some (String.ofList (signedText n.isSigned numeral)) := by
  cases n with
  | int i =>
    obtain ⟨hsigned, hunsigned⟩ := isSigned_unsigned_int hw
    rw [hsigned, hunsigned]
    exact ⟨_, Numeral.plain_ofNat _, Numeral.value_ofNat (isWritable_int.1 hw),
      substituteText?_int hw⟩
  | float x =>
    rw [isFinite] at hfinite
    split at hfinite
    · next negative significand power hparts =>
      -- zero has no twelve digits to round to; what is said of the decimal holds in both cases
      generalize hdecimal : (if significand = 0 then ⟨0, 0⟩
        else Decimal.significant 12 significand power : Decimal) = d
      have hnumeral := Layout.plain_numeral Layout.brief d
      obtain ⟨w, hvalue⟩ := Layout.exists_value_numeral d
      have htext : (Number.float x).substituteText? =
          some (String.ofList (signedText negative (Layout.brief.numeral d))) := by
        rw [substituteText?]
        refine congrArg some (parenthesize_eq hnumeral ?_)
        rw [Layout.briefText, String.toList_ofList, Layout.value, hparts]
        dsimp only
        rw [hdecimal, ← Layout.text_numeral]
        cases negative <;> rfl
      obtain ⟨hsigned, hunsigned⟩ := isSigned_unsigned hnumeral hvalue htext
      rw [hsigned, hunsigned]
      exact ⟨_, hnumeral, hvalue, htext⟩
    · cases hfinite

end Number

end Reckon
