import Mathlib.Algebra.Order.Field.Power
import Mathlib.Data.Rat.Cast.Order
import Mathlib.Tactic.FieldSimp
import Mathlib.Tactic.Linarith
import Mathlib.Tactic.Positivity
import Mathlib.Tactic.Ring
import Reckon.Decimal.Digits

/-!
The numbers that round to a binary64 value.

Every finite value but zero is a significand and a power of two in one way. The numbers that round to
it lie between the midpoints to its two neighbours, and a midpoint belongs to the value with the even
significand. So no number rounds to two values, and digits that were chosen among the numbers that
round to a value belong to no other one.

       m - 1        m         m + 1          significands
    ─────┼────┤─────┼─────├────┼─────
              └─────┴─────┘                  what rounds to m, with both ends where m is even
-/

namespace Reckon

/-! ### Quotients as rational numbers -/

theorem cast_pow2 (k : Nat) : ((pow2 k : Nat) : ℚ) = 2 ^ k := by
  rw [pow2, Nat.pow_eq, Nat.cast_pow, Nat.cast_ofNat]

theorem cast_pow10 (k : Nat) : ((pow10 k : Nat) : ℚ) = 10 ^ k := by
  rw [pow10, Nat.pow_eq, Nat.cast_pow, Nat.cast_ofNat]

theorem zpow_eq_div {b : ℚ} (hb : b ≠ 0) (e : Int) : b ^ e = b ^ e.toNat / b ^ (-e).toNat := by
  rw [← zpow_natCast, ← zpow_natCast, ← zpow_sub₀ hb]
  congr 1
  omega

namespace Decimal

/-- The number that a decimal denotes. -/
def toRat (d : Decimal) : ℚ := d.coefficient * 10 ^ d.exponent

/-- The number that a quotient denotes. -/
def Quotient.toRat (q : Quotient) : ℚ := q.num / q.den

theorem Quotient.toRat_inUnits (n : Nat) (power exponent : Int) :
    (inUnits n power exponent).toRat = n * 2 ^ power / 10 ^ exponent := by
  rw [toRat, inUnits, zpow_eq_div two_ne_zero, zpow_eq_div (by norm_num : (10 : ℚ) ≠ 0)]
  push_cast
  rw [cast_pow2, cast_pow2, cast_pow10, cast_pow10]
  field_simp

theorem Quotient.den_pos (n : Nat) (power exponent : Int) : 0 < (inUnits n power exponent).den :=
  Nat.mul_pos (pow2_pos _) (pow10_pos _)

/-! ### What lies in an interval -/

namespace Interval

variable {i : Interval} {power exponent : Int} {x : ℚ}

/-- Whether a number lies in the interval, whose unit is `2 ^ power`. -/
def Mem (i : Interval) (power : Int) (x : ℚ) : Prop :=
  if i.closed then i.low * 2 ^ power ≤ x ∧ x ≤ i.high * 2 ^ power
  else i.low * 2 ^ power < x ∧ x < i.high * 2 ^ power

theorem mem_of_lt (hlow : i.low * 2 ^ power < x) (hhigh : x < i.high * 2 ^ power) : i.Mem power x := by
  rw [Mem]
  split
  · exact ⟨hlow.le, hhigh.le⟩
  · exact ⟨hlow, hhigh⟩

/-- A candidate is tested for whether the number on the grid lies in the interval. -/
theorem holds_iff (candidate : Nat) :
    i.holds power exponent candidate ↔ i.Mem power (candidate * 10 ^ exponent) := by
  have hten : (0 : ℚ) < 10 ^ exponent := by positivity
  have hden (n : Nat) : (0 : ℚ) < (Quotient.inUnits n power exponent).den := by
    exact_mod_cast Quotient.den_pos n power exponent
  have hvalue (n : Nat) : ((Quotient.inUnits n power exponent).num : ℚ) =
      n * 2 ^ power / 10 ^ exponent * (Quotient.inUnits n power exponent).den := by
    rw [← Quotient.toRat_inUnits, Quotient.toRat, div_mul_cancel₀ _ (hden n).ne']
  have hle (n : Nat) : (Quotient.inUnits n power exponent).num ≤
      candidate * (Quotient.inUnits n power exponent).den ↔
        n * 2 ^ power ≤ (candidate : ℚ) * 10 ^ exponent := by
    rw [← Nat.cast_le (α := ℚ), Nat.cast_mul, hvalue, mul_le_mul_iff_left₀ (hden n), div_le_iff₀ hten]
  have hge (n : Nat) : candidate * (Quotient.inUnits n power exponent).den ≤
      (Quotient.inUnits n power exponent).num ↔
        (candidate : ℚ) * 10 ^ exponent ≤ n * 2 ^ power := by
    rw [← Nat.cast_le (α := ℚ), Nat.cast_mul, hvalue, mul_le_mul_iff_left₀ (hden n), le_div_iff₀ hten]
  have hsame : (Quotient.inUnits i.low power exponent).den =
      (Quotient.inUnits i.high power exponent).den := rfl
  rw [holds, Mem]
  split
  · rw [Bool.and_eq_true, decide_eq_true_iff, decide_eq_true_iff, hle, hsame, hge]
  · rw [Bool.and_eq_true, decide_eq_true_iff, decide_eq_true_iff, ← Nat.not_le, hge, hsame,
      ← Nat.not_le, hle, not_le, not_le]

end Interval

/-! ### Intervals around binary64 values -/

/-- The significand and the power of a finite value other than zero. -/
structure Canonical (significand : Nat) (power : Int) : Prop where
  pos : 0 < significand
  lt : significand < pow2 53
  least : Binary64.leastPower ≤ power
  full : Binary64.leastPower < power → pow2 52 ≤ significand

namespace Interval

variable {significand significand' : Nat} {power power' : Int} {x : ℚ}

theorem cast_high_around : ((around significand power).high : ℚ) = 4 * significand + 2 := by
  rw [around]
  push_cast
  rfl

theorem low_around (power : Int) (hpos : 0 < significand) :
    (around significand power).low + 2 = 4 * significand ∧
        ¬ (significand = pow2 52 ∧ Binary64.leastPower < power) ∨
      (around significand power).low + 1 = 4 * significand ∧ significand = pow2 52 := by
  rw [around]
  dsimp only
  split
  · next hfull => exact .inr ⟨by omega, hfull.1⟩
  · next hfull => exact .inl ⟨by omega, hfull⟩

theorem le_high (h : (around significand power).Mem (power - 2) x) :
    x ≤ (4 * significand + 2) * 2 ^ (power - 2) ∧
      (significand % 2 = 1 → x < (4 * significand + 2) * 2 ^ (power - 2)) := by
  rw [Mem, cast_high_around] at h
  split at h
  · next hclosed =>
    have heven : significand % 2 = 0 := by simpa [around] using hclosed
    exact ⟨h.2, fun hodd => by omega⟩
  · exact ⟨h.2.le, fun _ => h.2⟩

theorem low_le (h : (around significand power).Mem (power - 2) x) :
    (around significand power).low * 2 ^ (power - 2) ≤ x ∧
      (significand % 2 = 1 → (around significand power).low * 2 ^ (power - 2) < x) := by
  rw [Mem] at h
  split at h
  · next hclosed =>
    have heven : significand % 2 = 0 := by simpa [around] using hclosed
    exact ⟨h.1, fun hodd => by omega⟩
  · exact ⟨h.1.le, fun _ => h.1⟩

theorem low_of_full (hc : Canonical significand power) (hpower : Binary64.leastPower < power) :
    18014398509481983 ≤ (around significand power).low := by
  have hfull : 4503599627370496 ≤ significand := hc.full hpower
  have hpow : pow2 52 = 4503599627370496 := rfl
  have hlow := low_around power hc.pos
  omega

/-- No number rounds to a value and to a greater one. -/
theorem not_mem_of_lt (hc : Canonical significand power) (hc' : Canonical significand' power')
    (hlt : power < power' ∨ power = power' ∧ significand < significand')
    (h : (around significand power).Mem (power - 2) x) :
    ¬ (around significand' power').Mem (power' - 2) x := by
  intro h'
  obtain ⟨hhigh, hhigh_odd⟩ := le_high h
  obtain ⟨hlow, hlow_odd⟩ := low_le h'
  have hunit : (0 : ℚ) < 2 ^ (power - 2) := by positivity
  rcases hlt with hpower | ⟨rfl, hlt⟩
  · -- at least the midpoint to the last significand of the power before, which is odd
    have hlow_le := low_of_full hc' (hc.least.trans_lt hpower)
    have hdouble : 2 * (2 : ℚ) ^ (power - 2) ≤ 2 ^ (power' - 2) := by
      rw [← zpow_one_add₀ two_ne_zero]
      exact zpow_le_zpow_right₀ one_le_two (by omega)
    have hx : 36028797018963966 * (2 : ℚ) ^ (power - 2) ≤ x := by
      calc 36028797018963966 * (2 : ℚ) ^ (power - 2)
          = 18014398509481983 * (2 * (2 : ℚ) ^ (power - 2)) := by ring
        _ ≤ (around significand' power').low * 2 ^ (power' - 2) := by gcongr; exact_mod_cast hlow_le
        _ ≤ x := hlow
    have hlt : significand < 9007199254740992 := hc.lt
    rcases Nat.mod_two_eq_zero_or_one significand with heven | hodd
    · have hle : (significand : ℚ) ≤ 9007199254740990 := by
        exact_mod_cast (by omega : significand ≤ 9007199254740990)
      nlinarith
    · have hle : (significand : ℚ) ≤ 9007199254740991 := by
        exact_mod_cast (by omega : significand ≤ 9007199254740991)
      have hstrict := hhigh_odd hodd
      nlinarith
  · have hlow_le : 4 * (significand' : ℚ) - 2 ≤ (around significand' power).low := by
      have hlow := low_around power hc'.pos
      have hle : 4 * significand' ≤ (around significand' power).low + 2 := by omega
      have hcast : 4 * (significand' : ℚ) ≤ (around significand' power).low + 2 := by exact_mod_cast hle
      linarith
    have hx : (4 * (significand' : ℚ) - 2) * 2 ^ (power - 2) ≤
        (around significand' power).low * 2 ^ (power - 2) := by gcongr
    have hnext : (significand : ℚ) + 1 ≤ significand' := by exact_mod_cast hlt
    -- only the midpoint between neighbours is left, and one of the two is odd
    rcases Nat.mod_two_eq_zero_or_one significand with heven | hodd
    · by_cases hodd' : significand' % 2 = 1
      · have hstrict := hlow_odd hodd'
        nlinarith
      · have hskip : (significand : ℚ) + 2 ≤ significand' := by
          exact_mod_cast (by omega : significand + 2 ≤ significand')
        nlinarith
    · have hstrict := hhigh_odd hodd
      nlinarith

/-- A number rounds to one value at most. -/
theorem mem_unique (hc : Canonical significand power) (hc' : Canonical significand' power')
    (h : (around significand power).Mem (power - 2) x)
    (h' : (around significand' power').Mem (power' - 2) x) :
    significand = significand' ∧ power = power' := by
  rcases lt_trichotomy power power' with hpower | rfl | hpower
  · exact absurd h' (not_mem_of_lt hc hc' (.inl hpower) h)
  · rcases lt_trichotomy significand significand' with hlt | rfl | hlt
    · exact absurd h' (not_mem_of_lt hc hc' (.inr ⟨rfl, hlt⟩) h)
    · exact ⟨rfl, rfl⟩
    · exact absurd h (not_mem_of_lt hc' hc (.inr ⟨rfl, hlt⟩) h')
  · exact absurd h (not_mem_of_lt hc' hc (.inl hpower) h')

end Interval

end Decimal

end Reckon
