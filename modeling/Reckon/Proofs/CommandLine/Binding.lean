import Reckon.CommandLine.Binding
import Reckon.Proofs.Number.Reading
import Reckon.Proofs.Program.Parsing
import Reckon.Proofs.Token.Spelling

/-!
A numeral means the same in an expression and in a binding, up to the digit limit.

In an expression, what is written decides: whole digits alone are an integer, and too many of them
are an error. In a binding, what can be read decides: whole digits alone are an integer first, and
where there are too many of them still a binary64 value.

                     expression                binding
    42               int 42                    int 42
    0042             int 42                    int 42
    4.2e1            float 42.0                float 42.0
    10…0 (4301)      too many digits           float inf
-/

namespace Reckon

variable {limit : Int} {n : Numeral}

/-! ### Powers of ten -/

namespace Numeral

/-- The numeral of a power of ten. -/
def powerOfTen (k : Nat) : Numeral := ofDigits ('1' :: List.replicate k '0')

theorem text_powerOfTen (k : Nat) : (powerOfTen k).text = '1' :: List.replicate k '0' :=
  text_ofDigits _

theorem plain_powerOfTen (k : Nat) : (powerOfTen k).Plain := by
  refine plain_ofDigits (List.cons_ne_nil _ _) (List.forall_mem_cons.2 ⟨by decide, fun c hc => ?_⟩)
  rw [List.eq_of_mem_replicate hc]
  decide

theorem length_whole_powerOfTen (k : Nat) : (powerOfTen k).whole.length = k + 1 := by
  rw [powerOfTen, ofDigits, List.length_cons, List.length_replicate]

theorem value_powerOfTen {k : Nat} (h : Number.digitLimit ≤ k) :
    (powerOfTen k).value = .error (k + 1) := by
  rw [value, length_whole_powerOfTen, if_neg (Nat.not_le_of_lt (Nat.lt_succ_of_le h))]
  rfl

/-- A power of ten with 310 zeros or more lies beyond all finite values. -/
theorem toFloat_powerOfTen {k : Nat} (h : 310 ≤ k) :
    (powerOfTen k).toFloat = Binary64.infinity := by
  have hvalue : Text.digitsValue ('1' :: List.replicate k '0') = pow10 k := by
    have happend := Text.digitsValue_append ['1'] (List.replicate k '0')
    rw [Text.digitsValue_zeros, List.length_replicate, Nat.add_zero] at happend
    exact happend.trans (Nat.one_mul _)
  have hdigits : ¬ (Nat.toDigits 10 (pow10 k)).length ≤ k := by
    rw [Nat.length_toDigits_le_iff (by decide) (by omega)]
    exact Nat.lt_irrefl _
  have hfloat : (powerOfTen k).toFloat =
      Binary64.ofDecimal (Text.digitsValue ('1' :: List.replicate k '0' ++ [])) 0 := rfl
  rw [hfloat, List.append_nil, hvalue, Binary64.ofDecimal, if_neg, if_pos]
  · omega
  · have hpos := pow10_pos k
    omega

end Numeral

/-! ### Numerals as expressions -/

theorem parse_numeral {v : Number} (hn : n.Plain) (hv : n.value = .ok v) :
    parse limit (String.ofList n.text) = ⟨.ok [.operand (.number v)], 0⟩ := by
  have hfront : Front.ofText limit (n.text ++ []) = .lexeme (.operand (.number v)) n.text [] :=
    Front.ofText_numeral hn hv .nil
  rw [List.append_nil] at hfront
  refine parse_eq_iff.2 ⟨[.operand (.number v)], _, ?_, rfl, rfl, rfl⟩
  rw [String.toList_ofList]
  exact .of_front hfront (.done rfl)

theorem parse_longNumeral {digits : Nat} (hn : n.Plain) (hv : n.value = .error digits) :
    parse limit (String.ofList n.text) = ⟨.error (.lexical (.longNumeral digits)), 0⟩ := by
  have hfront : Front.ofText limit (n.text ++ []) = .longNumeral digits n.text [] :=
    Front.ofText_longNumeral hn hv .nil
  have hskip : Text.skipBlanks n.text = n.text :=
    Text.skipBlanks_of_forall_not fun c hc => Numeral.isBlank_figures c (hn.mem_figures c hc)
  have hne : Text.skipBlanks n.text ≠ [] := by
    rw [hskip]
    exact Numeral.text_ne_nil hn.whole_ne_nil
  rw [List.append_nil, ← hskip] at hfront
  have hlexing : Lexing.ofText limit n.text = ⟨[], some (.longNumeral digits)⟩ :=
    Lexing.ofCursor_longNumeral (c := .ofText n.text) hne hfront
  rw [parse, String.toList_ofList, hlexing]
  rfl

/-! ### Numerals in bindings -/

namespace Binding

variable {name : String}

theorem parse?_append (hname : '=' ∉ name.toList) (hne : trim name.toList ≠ "") (number : String) :
    parse? (name ++ "=" ++ number) =
      (Reading.number? (trim number.toList)).map fun v => (trim name.toList, v) := by
  have hspan : (name ++ "=" ++ number).toList.span (· != '=') =
      (name.toList, '=' :: number.toList) := by
    have hnone : ∀ c ∈ name.toList, (c != '=') = true := by
      intro c hc
      simpa using fun h : c = '=' => hname (h ▸ hc)
    rw [String.toList_append, String.toList_append, List.append_assoc, List.span_eq_takeWhile_dropWhile,
      List.takeWhile_append_of_pos hnone, List.dropWhile_append_of_pos hnone]
    simp
  rw [parse?, hspan]
  dsimp only
  rw [if_neg hne]

theorem parse?_numeral (hn : n.Plain) (hname : '=' ∉ name.toList) (hne : trim name.toList ≠ "") :
    parse? (name ++ "=" ++ String.ofList n.text) =
      some (trim name.toList, n.value.toOption.getD (.float n.toFloat)) := by
  have htrim : Text.trim n.text = n.text :=
    Text.trim_of_forall_not fun c hc => Numeral.isBlank_figures c (hn.mem_figures c hc)
  have htrimmed : trim n.text = String.ofList n.text := congrArg String.ofList htrim
  rw [parse?_append hname hne, String.toList_ofList, htrimmed, Reading.number?_text hn]
  rfl

/-- A numeral within the digit limit is parsed and bound with the same value, an integer for whole
digits alone and a binary64 value otherwise. Whole digits beyond the limit are refused in an
expression, with the count of the digits, and bound to the nearest binary64 value all the same. -/
theorem numeral_agrees (hn : n.Plain) (hname : '=' ∉ name.toList) (hne : trim name.toList ≠ "")
    (limit : Int) :
    let t := String.ofList n.text
    (¬ n.isInteger ∨ n.whole.length ≤ Number.digitLimit → ∃ v, n.value = .ok v ∧
      Reckon.parse limit t = ⟨.ok [.operand (.number v)], 0⟩ ∧
      parse? (name ++ "=" ++ t) = some (trim name.toList, v)) ∧
    (n.isInteger → Number.digitLimit < n.whole.length →
      Reckon.parse limit t = ⟨.error (.lexical (.longNumeral n.whole.length)), 0⟩ ∧
      parse? (name ++ "=" ++ t) = some (trim name.toList, .float n.toFloat)) := by
  intro t
  have hbinds : parse? (name ++ "=" ++ t) = _ := parse?_numeral hn hname hne
  constructor
  · intro hwithin
    obtain ⟨v, hv⟩ : ∃ v, n.value = .ok v := by
      rw [Numeral.value]
      by_cases hinteger : n.isInteger
      · rw [if_pos hinteger, if_pos (hwithin.resolve_left (not_not_intro hinteger))]
        exact ⟨_, rfl⟩
      · rw [if_neg hinteger]
        exact ⟨_, rfl⟩
    rw [hv] at hbinds
    exact ⟨v, hv, parse_numeral hn hv, hbinds⟩
  · intro hinteger hlength
    have hv : n.value = .error n.whole.length := by
      rw [Numeral.value, if_pos hinteger, if_neg (Nat.not_le_of_lt hlength)]
    rw [hv] at hbinds
    exact ⟨parse_longNumeral hn hv, hbinds⟩

/-- Leading zeros, decimals with an exponent, and a power of ten past the limit. -/
theorem numeral_agrees_forms :
    (Reckon.parse 64 "0042" = ⟨.ok [.operand (.number (.int 42))], 0⟩ ∧
      parse? "x=0042" = some ("x", .int 42)) ∧
    (∃ y, Reckon.parse 64 "1.50e-3" = ⟨.ok [.operand (.number (.float y))], 0⟩ ∧
      parse? "x=1.50e-3" = some ("x", .float y)) ∧
    ∃ e y, Reckon.parse 64 (String.ofList ('1' :: List.replicate 4300 '0')) = ⟨.error e, 0⟩ ∧
      parse? ("x" ++ "=" ++ String.ofList ('1' :: List.replicate 4300 '0')) =
        some ("x", .float y) := by
  have hzeros : (Numeral.mk ['0', '0', '4', '2'] [] none).Plain :=
    ⟨by decide, by simp, by simp, by simp⟩
  have hfraction : (Numeral.mk ['1'] ['5', '0'] (some ⟨.minus, ['3']⟩)).Plain :=
    ⟨by decide, by simp, by simp, by simp⟩
  have hpower := Numeral.plain_powerOfTen 4300
  have hlength : Number.digitLimit < (Numeral.powerOfTen 4300).whole.length := by
    rw [Numeral.length_whole_powerOfTen 4300]
    decide
  have hname : '=' ∉ "x".toList := by decide
  have hne : trim "x".toList ≠ "" := by decide
  obtain ⟨v, hv, hinteger⟩ := (numeral_agrees hzeros hname hne 64).1 (.inr (by decide))
  obtain ⟨w, hw, hfloat⟩ := (numeral_agrees hfraction hname hne 64).1 (.inl (by decide))
  have hlong := (numeral_agrees hpower hname hne 64).2 rfl hlength
  obtain rfl := Except.ok.inj hv
  obtain rfl := Except.ok.inj hw
  rw [Numeral.text_powerOfTen] at hlong
  exact ⟨hinteger, ⟨_, hfloat⟩, _, _, hlong⟩

/-- Ten to the power of 4300 is no expression, but it is bound to infinity. -/
theorem numeral_outgrown :
    let t := String.ofList ('1' :: List.replicate 4300 '0')
    Reckon.parse 64 t = ⟨.error (.lexical (.longNumeral 4301)), 0⟩ ∧
      parse? ("x" ++ "=" ++ t) = some ("x", .float Binary64.infinity) := by
  intro t
  have hn := Numeral.plain_powerOfTen 4300
  have hv := Numeral.value_powerOfTen (k := 4300) (by decide)
  have hname : '=' ∉ "x".toList := by decide
  have hne : trim "x".toList ≠ "" := by decide
  have hparse : Reckon.parse 64 (String.ofList _) = _ := parse_longNumeral hn hv
  have hbinds : parse? ("x" ++ "=" ++ String.ofList _) = _ := parse?_numeral hn hname hne
  rw [Numeral.text_powerOfTen] at hparse hbinds
  rw [hv, Numeral.toFloat_powerOfTen (by decide)] at hbinds
  exact ⟨hparse, hbinds⟩

end Binding

end Reckon
