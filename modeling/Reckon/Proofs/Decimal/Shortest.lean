import Reckon.Proofs.Decimal.Interval
import Reckon.Proofs.Number.Written

/-!
The shortest digits of a binary64 value round to the value.

A grid is tried only with the two neighbours of the value, and one of them is taken only where it lies
among the numbers that round to the value. On the last grid, sixteen places below the leading digit,
the neighbours are closer together than the midpoints around the value, so one of them always lies
between these. Dropping zeros at the end changes the digits, not the number.

       low        value       high
    ─────├──●───────┼───●──────┤─────    grid of 10^(top-16), finer than the interval
-/

namespace Reckon

/-! ### Digits -/

namespace Decimal

theorem exists_trailingZeros (ds : List Char) :
    ∃ front, ds = front ++ List.replicate (trailingZeros ds) '0' := by
  refine ⟨(ds.reverse.dropWhile (· == '0')).reverse, ?_⟩
  have hzeros : ds.reverse.takeWhile (· == '0') = List.replicate (trailingZeros ds) '0' := by
    refine List.eq_replicate_iff.2 ⟨rfl, fun c hc => ?_⟩
    simpa using List.mem_takeWhile_imp hc
  rw [← List.reverse_inj, List.reverse_append, List.reverse_reverse, List.reverse_replicate, ← hzeros,
    List.takeWhile_append_dropWhile]

/-- Dropping zeros at the end keeps the number. -/
theorem toRat_trim (d : Decimal) : d.trim.toRat = d.toRat := by
  rw [trim]
  split
  · next hzero => simp [toRat, hzero]
  · obtain ⟨front, hfront⟩ := exists_trailingZeros d.digits
    have hvalue := Text.digitsValue_toDigits d.coefficient
    have hdigits : Nat.toDigits 10 d.coefficient = d.digits := rfl
    rw [hdigits, hfront, Text.digitsValue_append, List.length_replicate, Text.digitsValue_zeros,
      Nat.add_zero] at hvalue
    have hquotient : d.coefficient / pow10 (trailingZeros d.digits) = Text.digitsValue front := by
      rw [← hvalue, Nat.mul_div_cancel _ (pow10_pos _)]
    dsimp only
    rw [toRat, toRat, hquotient, ← hvalue, Nat.cast_mul, cast_pow10,
      zpow_add₀ (by norm_num : (10 : ℚ) ≠ 0), zpow_natCast]
    ring

/-! ### Grids -/

theorem Quotient.floor_le {q : Quotient} (h : 0 < q.den) :
    ((q.num / q.den : Nat) : ℚ) ≤ q.toRat ∧ q.toRat < (q.num / q.den + 1 : Nat) := by
  have hden : (0 : ℚ) < q.den := by exact_mod_cast h
  rw [toRat, le_div_iff₀ hden, div_lt_iff₀ hden]
  constructor
  · exact_mod_cast Nat.div_mul_le_self q.num q.den
  · exact_mod_cast Nat.lt_div_mul_add h |>.trans_eq (by ring)

variable {significand : Nat} {power exponent : Int}

theorem pow_length_toDigits_le {n : Nat} (hn : n ≠ 0) :
    10 ^ ((Nat.toDigits 10 n).length - 1) ≤ n := by
  by_contra hlt
  rcases Nat.eq_zero_or_pos ((Nat.toDigits 10 n).length - 1) with hzero | hpos
  · rw [hzero, Nat.pow_zero] at hlt
    omega
  · have hle := (Nat.length_toDigits_le_iff (by decide) hpos).2 (Nat.lt_of_not_le hlt)
    omega

/-- Measured in units of `10 ^ -400`, every value is at least one. -/
theorem one_le_value (hpos : 0 < significand) (hleast : Binary64.leastPower ≤ power) :
    (1 : ℚ) ≤ significand * 2 ^ power * 10 ^ (400 : Int) := by
  have hone : (1 : ℚ) ≤ significand := by exact_mod_cast hpos
  have hpower : (2 : ℚ) ^ (-1074 : Int) ≤ 2 ^ power := zpow_le_zpow_right₀ one_le_two hleast
  have hunits : (2 : ℚ) ^ 1074 ≤ 10 ^ 400 := by
    calc (2 : ℚ) ^ 1074 ≤ 2 ^ (3 * 400) := pow_le_pow_right₀ one_le_two (by decide)
      _ = (2 ^ 3) ^ 400 := pow_mul 2 3 400
      _ ≤ 10 ^ 400 := pow_le_pow_left₀ (by positivity) (by norm_num) 400
  calc (1 : ℚ) ≤ (2 ^ 1074)⁻¹ * 10 ^ 400 := by
        rw [le_inv_mul_iff₀ (by positivity), mul_one]
        exact hunits
    _ = 2 ^ (-1074 : Int) * 10 ^ (400 : Int) := by
        rw [zpow_neg]
        rfl
    _ ≤ significand * 2 ^ power * 10 ^ (400 : Int) := by
        gcongr
        exact hpower.trans (le_mul_of_one_le_left (by positivity) hone)

/-- No value lies below the unit of its leading digit. -/
theorem leadingExponent_le (hpos : 0 < significand) (hleast : Binary64.leastPower ≤ power) :
    (10 : ℚ) ^ leadingExponent significand power ≤ significand * 2 ^ power := by
  obtain ⟨hfloor, hnext⟩ := Quotient.floor_le (Quotient.den_pos significand power (-400))
  have hone := one_le_value hpos hleast
  rw [Quotient.toRat_inUnits, zpow_neg, div_inv_eq_mul] at hfloor hnext
  rw [leadingExponent]
  generalize (Quotient.inUnits significand power (-400)).num /
    (Quotient.inUnits significand power (-400)).den = whole at hfloor hnext ⊢
  have hwhole : whole ≠ 0 := by
    rintro rfl
    exact absurd hnext (not_lt.2 (by simpa using hone))
  have hdigits : ((10 : ℚ) ^ ((Nat.toDigits 10 whole).length - 1)) ≤ whole := by
    exact_mod_cast pow_length_toDigits_le hwhole
  have hlength := List.length_pos_iff.2 (Nat.toDigits_ne_nil (b := 10) (n := whole))
  have hten : (0 : ℚ) < 10 ^ (400 : Int) := by positivity
  rw [← mul_le_mul_iff_left₀ hten, ← zpow_add₀ (by norm_num : (10 : ℚ) ≠ 0)]
  have hexponent : ((Nat.toDigits 10 whole).length : Int) - 401 + 400 =
      ((Nat.toDigits 10 whole).length - 1 : Nat) := by
    omega
  rw [hexponent, zpow_natCast]
  exact hdigits.trans hfloor

/-- What is found on a grid rounds to the value. -/
theorem mem_of_onGrid? {d : Decimal} (h : onGrid? significand power exponent = some d) :
    (Interval.around significand power).Mem (power - 2) d.toRat := by
  have hholds (candidate : Nat)
      (h : (Interval.around significand power).holds (power - 2) exponent candidate) :
      (Interval.around significand power).Mem (power - 2) (toRat ⟨candidate, exponent⟩) :=
    (Interval.holds_iff candidate).1 h
  rw [onGrid?] at h
  split at h
  · next hbelow habove =>
    split at h
    · obtain rfl := Option.some.inj h
      exact hholds _ hbelow
    · obtain rfl := Option.some.inj h
      exact hholds _ habove
  · next hbelow _ =>
    obtain rfl := Option.some.inj h
    exact hholds _ hbelow
  · next _ habove =>
    obtain rfl := Option.some.inj h
    exact hholds _ habove
  · cases h

/-- A grid sixteen places below a value is finer than the interval around it. -/
theorem grid_lt_width (hc : Canonical significand power)
    (hgrid : (10 : ℚ) ^ exponent * 10 ^ 16 ≤ significand * 2 ^ power) :
    (10 : ℚ) ^ exponent < (4 * significand + 2 - (Interval.around significand power).low) *
      2 ^ (power - 2) := by
  have hunit : (0 : ℚ) < 2 ^ (power - 2) := by positivity
  have hquarter : (2 : ℚ) ^ power = 4 * 2 ^ (power - 2) := by
    rw [zpow_sub₀ two_ne_zero]
    norm_num
    ring
  have hsmall : (significand : ℚ) ≤ 9007199254740992 := by exact_mod_cast hc.lt.le
  rw [hquarter] at hgrid
  rcases Interval.low_around power hc.pos with ⟨hlow, _⟩ | ⟨hlow, hfull⟩
  · have hcast : ((Interval.around significand power).low : ℚ) + 2 = 4 * significand := by
      exact_mod_cast hlow
    nlinarith
  · have hcast : ((Interval.around significand power).low : ℚ) + 1 = 4 * significand := by
      exact_mod_cast hlow
    have hfull : (significand : ℚ) = 4503599627370496 := by exact_mod_cast hfull
    nlinarith

/-- Of two neighbours on a fine grid, one rounds to the value between them. -/
theorem neighbour_mem (hc : Canonical significand power)
    (hgrid : (10 : ℚ) ^ exponent * 10 ^ 16 ≤ significand * 2 ^ power) {below : Nat}
    (hbelow : (below : ℚ) * 10 ^ exponent ≤ (4 * significand : Nat) * 2 ^ (power - 2))
    (habove : (4 * significand : Nat) * 2 ^ (power - 2) < ((below + 1 : Nat) : ℚ) * 10 ^ exponent) :
    (Interval.around significand power).Mem (power - 2) (below * 10 ^ exponent) ∨
      (Interval.around significand power).Mem (power - 2) ((below + 1 : Nat) * 10 ^ exponent) := by
  have hwidth := grid_lt_width hc hgrid
  have hunit : (0 : ℚ) < 2 ^ (power - 2) := by positivity
  have hends := Interval.low_around power hc.pos
  have hlow_le : ((Interval.around significand power).low : ℚ) ≤ 4 * significand := by
    exact_mod_cast (by omega : (Interval.around significand power).low ≤ 4 * significand)
  have hend : ((Interval.around significand power).low : ℚ) * 2 ^ (power - 2) ≤
      4 * significand * 2 ^ (power - 2) := by gcongr
  push_cast at hbelow habove ⊢
  by_contra hneither
  obtain ⟨hfirst, hsecond⟩ := not_or.1 hneither
  -- both neighbours lie outside, so the grid is no finer than the interval
  have hbelow_le : (below : ℚ) * 10 ^ exponent ≤
      (Interval.around significand power).low * 2 ^ (power - 2) := by
    by_contra hlt
    refine hfirst (Interval.mem_of_lt (not_le.1 hlt) ?_)
    rw [Interval.cast_high_around]
    linarith
  have habove_le : (4 * significand + 2) * 2 ^ (power - 2) ≤ ((below : ℚ) + 1) * 10 ^ exponent := by
    by_contra hlt
    refine hsecond (Interval.mem_of_lt (by linarith) ?_)
    rw [Interval.cast_high_around]
    exact not_le.1 hlt
  linarith

/-- On a grid that is finer than the digits of a significand, one neighbour rounds to the value. -/
theorem isSome_onGrid? (hc : Canonical significand power)
    (hgrid : (10 : ℚ) ^ exponent * 10 ^ 16 ≤ significand * 2 ^ power) :
    (onGrid? significand power exponent).isSome := by
  obtain ⟨hbelow, habove⟩ :=
    Quotient.floor_le (Quotient.den_pos (4 * significand) (power - 2) exponent)
  have hten : (0 : ℚ) < 10 ^ exponent := by positivity
  rw [Quotient.toRat_inUnits, le_div_iff₀ hten] at hbelow
  rw [Quotient.toRat_inUnits, div_lt_iff₀ hten] at habove
  rw [onGrid?]
  generalize (Quotient.inUnits (4 * significand) (power - 2) exponent).num /
    (Quotient.inUnits (4 * significand) (power - 2) exponent).den = below at hbelow habove ⊢
  have hneighbour := neighbour_mem hc hgrid hbelow habove
  rw [← Interval.holds_iff, ← Interval.holds_iff] at hneighbour
  cases hfirst : (Interval.around significand power).holds (power - 2) exponent below <;>
    cases hsecond : (Interval.around significand power).holds (power - 2) exponent (below + 1)
  · simp [hfirst, hsecond] at hneighbour
  · rfl
  · rfl
  · dsimp only
    split <;> rfl

/-- The shortest digits round to the value. -/
theorem mem_shortest (hc : Canonical significand power) :
    (Interval.around significand power).Mem (power - 2) (shortest significand power).toRat := by
  rw [shortest, toRat_trim]
  cases hfound : (List.range 17).findSome? fun (i : Nat) =>
      onGrid? significand power (leadingExponent significand power - i) with
  | some d =>
    obtain ⟨i, _, hd⟩ := List.exists_of_findSome?_eq_some hfound
    exact mem_of_onGrid? hd
  | none =>
    -- the last grid cannot have failed
    have hgrid : (10 : ℚ) ^ (leadingExponent significand power - (16 : Nat)) * 10 ^ 16 ≤
        significand * 2 ^ power := by
      rw [← zpow_natCast, ← zpow_add₀ (by norm_num : (10 : ℚ) ≠ 0), sub_add_cancel]
      exact leadingExponent_le hc.pos hc.least
    have hnone := List.findSome?_eq_none_iff.1 hfound 16 (by decide)
    have hsome := isSome_onGrid? hc hgrid
    rw [hnone] at hsome
    cases hsome

end Decimal

end Reckon
