import Reckon.Proofs.Decimal.Interval

/-!
A binary64 value is known by its parts.

The word of a value is a sign, a field of eleven bits and a fraction of fifty-two. The parts of a
value keep all three, except that the value that is no number has no sign and no fraction; of that
there is only one.

    sign │ field         │ fraction            finite      field below 2047
      1  │ 11 bits       │ 52 bits             infinite    field 2047, no fraction
-/

namespace Reckon.Binary64

open Float.Model (Format)
open Float.Model.UnpackedFloat (unpackExponent unpackMantissa)

/-- The field and the fraction of a word. -/
def field (word : Nat) : Nat := word / pow2 52 % pow2 11

def fraction (word : Nat) : Nat := word % pow2 52

/-- Whether the sign of a word is a minus. -/
def isNegative (word : Nat) : Bool := word / pow2 63 % 2 == 1

/-- Values with equal words are equal. -/
theorem eq_of_word {x y : Float} (h : x.toBits.toNat = y.toBits.toNat) : x = y := by
  obtain ⟨⟨a, ha⟩⟩ := x
  obtain ⟨⟨b, hb⟩⟩ := y
  obtain rfl : a = b := UInt64.toNat_inj.1 h
  rfl

theorem word_eq {a b : UInt64} (hsign : isNegative a.toNat = isNegative b.toNat)
    (hfield : field a.toNat = field b.toNat) (hfraction : fraction a.toNat = fraction b.toNat) :
    a.toNat = b.toNat := by
  have ha := a.toNat_lt
  have hb := b.toNat_lt
  have hpow : pow2 52 = 4503599627370496 ∧ pow2 11 = 2048 ∧ pow2 63 = 9223372036854775808 :=
    ⟨rfl, rfl, rfl⟩
  obtain ⟨h52, h11, h63⟩ := hpow
  rw [field, field, h52, h11] at hfield
  rw [fraction, fraction, h52] at hfraction
  have hsign : a.toNat / 9223372036854775808 % 2 = 1 ↔ b.toNat / 9223372036854775808 % 2 = 1 := by
    rwa [isNegative, isNegative, h63, Bool.eq_iff_iff, beq_iff_eq, beq_iff_eq] at hsign
  omega

theorem toBits_of_nan {x : Float} (hfield : field x.toBits.toNat = 2047)
    (hfraction : fraction x.toBits.toNat ≠ 0) :
    x.toBits.toBitVec = Float.Model.UnpackedFloat.packedNaN .binary64 := by
  obtain ⟨⟨bits, valid⟩⟩ := x
  refine valid.eq_packedNaN ?_ ?_
  · refine BitVec.eq_of_toNat_eq ?_
    change (bits.toNat >>> 52) % 2 ^ 11 = 2047
    rw [Nat.shiftRight_eq_div_pow]
    exact hfield
  · intro hzero
    refine hfraction ?_
    have hmantissa : (bits.toNat >>> 0) % 2 ^ 52 = 0 := congrArg BitVec.toNat hzero
    rw [Nat.shiftRight_zero] at hmantissa
    exact hmantissa

theorem parts_eq (x : Float) : parts x =
    if field x.toBits.toNat = 2047 then
      if fraction x.toBits.toNat = 0 then .infinite (isNegative x.toBits.toNat) else .nan
    else if field x.toBits.toNat = 0 then
      .finite (isNegative x.toBits.toNat) (fraction x.toBits.toNat) leastPower
    else .finite (isNegative x.toBits.toNat) (pow2 52 + fraction x.toBits.toNat)
      (leastPower + field x.toBits.toNat - 1) := rfl

section

variable {x y : Float} {negative : Bool} {significand : Nat} {power : Int}

theorem of_parts_nan (h : parts x = .nan) :
    field x.toBits.toNat = 2047 ∧ fraction x.toBits.toNat ≠ 0 := by
  rw [parts_eq] at h
  split at h
  · next hfield =>
    split at h
    · cases h
    · next hfraction => exact ⟨hfield, hfraction⟩
  · split at h <;> cases h

theorem of_parts_infinite (h : parts x = .infinite negative) :
    isNegative x.toBits.toNat = negative ∧ field x.toBits.toNat = 2047 ∧
      fraction x.toBits.toNat = 0 := by
  rw [parts_eq] at h
  split at h
  · next hfield =>
    split at h
    · next hfraction => exact ⟨Parts.infinite.inj h, hfield, hfraction⟩
    · cases h
  · split at h <;> cases h

theorem of_parts_finite (h : parts x = .finite negative significand power) :
    isNegative x.toBits.toNat = negative ∧
      (field x.toBits.toNat = 0 ∧ fraction x.toBits.toNat = significand ∧ leastPower = power ∨
        0 < field x.toBits.toNat ∧ pow2 52 + fraction x.toBits.toNat = significand ∧
          leastPower + field x.toBits.toNat - 1 = power) := by
  rw [parts_eq] at h
  split at h
  · split at h <;> cases h
  · split at h
    · next hfield =>
      obtain ⟨hsign, hsignificand, hpower⟩ := Parts.finite.inj h
      exact ⟨hsign, .inl ⟨hfield, hsignificand, hpower⟩⟩
    · next hfield =>
      obtain ⟨hsign, hsignificand, hpower⟩ := Parts.finite.inj h
      exact ⟨hsign, .inr ⟨Nat.pos_of_ne_zero hfield, hsignificand, hpower⟩⟩

theorem fraction_lt (word : Nat) : fraction word < pow2 52 := Nat.mod_lt _ (pow2_pos 52)

/-- A finite value is zero, or its significand and its power are the ones that stand for it. -/
theorem canonical_of_parts (h : parts x = .finite negative significand power) :
    significand = 0 ∧ power = leastPower ∨ Decimal.Canonical significand power := by
  have hfraction := fraction_lt x.toBits.toNat
  have hpow : pow2 53 = 2 * pow2 52 := rfl
  obtain ⟨_, ⟨hfield, rfl, rfl⟩ | ⟨hfield, rfl, rfl⟩⟩ := of_parts_finite h
  · rcases Nat.eq_zero_or_pos (fraction x.toBits.toNat) with hzero | hpos
    · exact .inl ⟨hzero, rfl⟩
    · exact .inr ⟨hpos, by omega, le_refl _, fun hlt => absurd hlt (lt_irrefl _)⟩
  · have hpos := pow2_pos 52
    exact .inr ⟨by omega, by omega, by omega, fun _ => Nat.le_add_right ..⟩

/-- Values with equal parts are equal. -/
theorem parts_inj (h : parts x = parts y) : x = y := by
  cases hparts : parts y with
  | nan =>
    obtain ⟨hfield, hfraction⟩ := of_parts_nan (h.trans hparts)
    obtain ⟨hfield', hfraction'⟩ := of_parts_nan hparts
    refine eq_of_word (congrArg BitVec.toNat ?_)
    exact (toBits_of_nan hfield hfraction).trans (toBits_of_nan hfield' hfraction').symm
  | infinite negative =>
    obtain ⟨hsign, hfield, hfraction⟩ := of_parts_infinite (h.trans hparts)
    obtain ⟨hsign', hfield', hfraction'⟩ := of_parts_infinite hparts
    exact eq_of_word (word_eq (hsign.trans hsign'.symm) (hfield.trans hfield'.symm)
      (hfraction.trans hfraction'.symm))
  | finite negative significand power =>
    obtain ⟨hsign, hx⟩ := of_parts_finite (h.trans hparts)
    obtain ⟨hsign', hy⟩ := of_parts_finite hparts
    have hfraction := fraction_lt x.toBits.toNat
    have hfraction' := fraction_lt y.toBits.toNat
    exact eq_of_word (word_eq (hsign.trans hsign'.symm) (by omega) (by omega))

end

end Reckon.Binary64
