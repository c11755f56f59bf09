import HdrGain.Proofs.Scalar.Binary32

namespace HdrGain.Rounding

variable {value result : ℚ}

/-- The least number of full precision on a grid, in its steps. -/
theorem two_zpow_leading (spacing : ℤ) : (2 : ℚ) ^ (spacing + 23) = 2 ^ 23 * 2 ^ spacing := by
  rw [zpow_add₀ two_ne_zero, mul_comm]
  norm_cast

theorem two_zpow_past (spacing : ℤ) : (2 : ℚ) ^ (spacing + 24) = 2 ^ 24 * 2 ^ spacing := by
  rw [zpow_add₀ two_ne_zero, mul_comm]
  norm_cast

theorem RoundsTo.natCast_eq {count : ℕ} (rounds : RoundsTo count result) (fits : count ≤ 2 ^ 24) :
    result = count := by
  have placed : (count : ℚ) = (count : ℤ) * 2 ^ (0 : ℤ) := by
    rw [zpow_zero, mul_one, Int.cast_natCast]
  rw [placed] at rounds ⊢
  exact rounds.eq_of_fits (by rw [Nat.abs_cast]; exact_mod_cast fits) (by decide)

theorem numberOf?_ofNat_of_le {count : ℕ} (fits : count ≤ 2 ^ 24) :
    numberOf? (Scalar.ofNat count : Float32) = some (count : ℚ) := by
  obtain ⟨result, stands, rounds⟩ :=
    numberOf?_ofNat (fits.trans (Nat.pow_le_pow_right (by decide) (by decide) : 2 ^ 24 ≤ 2 ^ 127))
  rw [rounds.natCast_eq fits] at stands
  exact stands

theorem RoundsTo.two_zpow_eq {exponent : ℤ} (rounds : RoundsTo (2 ^ exponent) result)
    (least : -149 ≤ exponent) : result = 2 ^ exponent := by
  have placed : (2 : ℚ) ^ exponent = (1 : ℤ) * 2 ^ exponent := by rw [Int.cast_one, one_mul]
  rw [placed] at rounds ⊢
  exact rounds.eq_of_fits (by decide) least

/-- A quotient below a whole number by a part of the divisor is not rounded up to it. -/
theorem RoundsTo.lt_div_succ {dividend divisor : ℕ}
    (rounds : RoundsTo (dividend / divisor) result) (positive : 0 < divisor)
    (dividend_le : dividend ≤ 2 ^ 24) (divisor_le : divisor ≤ 2 ^ 24) :
    result < (dividend / divisor : ℕ) + 1 := by
  have unit : (0 : ℚ) < divisor := by exact_mod_cast positive
  have divisorCast : (divisor : ℚ) ≤ 2 ^ 24 := by exact_mod_cast divisor_le
  have dividendCast : (dividend : ℚ) ≤ 2 ^ 24 := by exact_mod_cast dividend_le
  have short : (dividend / divisor : ℚ) + 1 / divisor ≤ (dividend / divisor : ℕ) + 1 := by
    have next : dividend + 1 ≤ (dividend / divisor + 1) * divisor :=
      Nat.lt_mul_of_div_lt (Nat.lt_succ_self _) positive
    rw [← add_div, div_le_iff₀ unit]
    exact_mod_cast next
  have apart : (0 : ℚ) < 1 / divisor := by positivity
  by_contra reached
  rw [not_lt] at reached
  obtain ⟨spacing, _, least, _, lower, _, near, _⟩ := id rounds
  have step : (0 : ℚ) < 2 ^ spacing := zpow_pos two_pos spacing
  -- to get there, the quotient would have to move by as much as the divisor leaves it
  have wide : 2 ≤ divisor * (2 : ℚ) ^ spacing := by
    have moved : 1 / divisor ≤ (2 : ℚ) ^ spacing / 2 := by
      have close := (abs_le.mp near).1
      linarith
    rw [div_le_iff₀ unit] at moved
    linarith
  rcases lower with large | finest
  · -- which leaves it no choice but to be a power of two, and these are not moved
    rw [abs_of_nonneg (by positivity)] at large
    have power : (dividend / divisor : ℚ) = 2 ^ (spacing + 23) := by
      refine le_antisymm ?_ large
      rw [div_le_iff₀ unit, two_zpow_leading]
      linarith
    rw [power] at rounds short
    rw [rounds.two_zpow_eq (by omega)] at reached
    linarith
  · have fine : (divisor : ℚ) * 2 ^ spacing ≤ 2 ^ 24 * 2 ^ (-149 : ℤ) := by
      rw [finest]
      exact mul_le_mul_of_nonneg_right divisorCast (by positivity)
    norm_num at fine wide
    linarith

/-- Rounding a quotient of two counts of 24 places does not change its whole part. -/
theorem RoundsTo.floor_div {dividend divisor : ℕ} (rounds : RoundsTo (dividend / divisor) result)
    (positive : 0 < divisor) (dividend_le : dividend ≤ 2 ^ 24) (divisor_le : divisor ≤ 2 ^ 24) :
    ⌊result⌋₊ = dividend / divisor := by
  have whole : ((dividend / divisor : ℕ) : ℚ) ≤ dividend / divisor := Nat.cast_div_le
  have fits : dividend / divisor ≤ 2 ^ 24 := (Nat.div_le_self _ _).trans dividend_le
  have above := rounds.le_of_ge (dividend / divisor : ℕ) 0
    (by rw [Nat.abs_cast]; exact_mod_cast fits) (by decide) (by
      rw [zpow_zero, mul_one, Int.cast_natCast]
      exact whole)
  rw [zpow_zero, mul_one, Int.cast_natCast] at above
  rw [Nat.floor_eq_iff (rounds.nonneg (by positivity))]
  exact ⟨above, rounds.lt_div_succ positive dividend_le divisor_le⟩

/-- Rounding moves a number that is not too close to zero by at most one part in `2 ^ 24`. -/
theorem RoundsTo.relative (rounds : RoundsTo value result) (normal : 1 / 2 ≤ value) :
    value * (1 - 1 / 2 ^ 24) ≤ result ∧ result ≤ value * (1 + 1 / 2 ^ 24) := by
  obtain ⟨spacing, _, _, _, lower, _, near, _⟩ := rounds
  rw [abs_of_nonneg (by linarith)] at lower
  have large : (2 : ℚ) ^ (spacing + 23) ≤ value := by
    rcases lower with large | rfl
    · exact large
    · exact le_trans (by norm_num) normal
  rw [two_zpow_leading] at large
  obtain ⟨above, below⟩ := abs_le.mp near
  constructor <;> linarith

/-- On the grid of a number that is at least `2 ^ (exponent + 23)` and below twice of it. -/
theorem RoundsTo.exists_steps (rounds : RoundsTo value result) {exponent : ℤ}
    (least : -149 ≤ exponent) (lower : 2 ^ (exponent + 23) ≤ value)
    (upper : value < 2 ^ (exponent + 24)) :
    ∃ steps : ℤ, result = steps * 2 ^ exponent ∧ |value - result| ≤ 2 ^ exponent / 2 ∧
      (|value - result| = 2 ^ exponent / 2 → steps % 2 = 0) := by
  obtain ⟨spacing, steps, finest, placed, long, short, near, even⟩ := rounds
  have nonneg : 0 ≤ value := (zpow_pos two_pos _).le.trans lower
  rw [abs_of_nonneg nonneg] at long short
  have coarse : exponent + 23 < spacing + 24 :=
    (zpow_lt_zpow_iff_right₀ one_lt_two).mp (lower.trans_lt short)
  have fine : spacing ≤ exponent := by
    rcases long with long | rfl
    · have below := (zpow_lt_zpow_iff_right₀ one_lt_two).mp (long.trans_lt upper)
      omega
    · exact least
  obtain rfl : spacing = exponent := by omega
  exact ⟨steps, placed, near, even⟩

/-- What is more than half a step below a power of two stays a whole step below it. -/
theorem RoundsTo.le_before (rounds : RoundsTo value result) {exponent : ℤ}
    (least : -149 ≤ exponent) (short : value < 2 ^ (exponent + 24) - 2 ^ exponent / 2) :
    result ≤ 2 ^ (exponent + 24) - 2 ^ exponent := by
  have step : (0 : ℚ) < 2 ^ exponent := zpow_pos two_pos exponent
  rcases lt_or_ge value (2 ^ (exponent + 23)) with small | large
  · have below := rounds.le_of_le 1 (exponent + 23) (by decide) (by omega) (by
      rw [Int.cast_one, one_mul]
      exact small.le)
    rw [Int.cast_one, one_mul, two_zpow_leading] at below
    rw [two_zpow_past]
    linarith
  · obtain ⟨steps, rfl, near, _⟩ := rounds.exists_steps least large (by linarith)
    rw [two_zpow_past] at short ⊢
    have above := (abs_le.mp near).1
    have before : steps < 2 ^ 24 := by
      have product : (steps : ℚ) * 2 ^ exponent < 2 ^ 24 * 2 ^ exponent := by linarith
      exact_mod_cast lt_of_mul_lt_mul_right product step.le
    have stepsLe : (steps : ℚ) ≤ 2 ^ 24 - 1 := by exact_mod_cast Int.le_sub_one_of_lt before
    have product := mul_le_mul_of_nonneg_right stepsLe step.le
    linarith

/-- The last half of a step below a power of two is rounded up to it. -/
theorem RoundsTo.reaches (rounds : RoundsTo value result) {exponent : ℤ}
    (least : -149 ≤ exponent) (far : 2 ^ (exponent + 24) - 2 ^ exponent / 2 ≤ value)
    (upper : value < 2 ^ (exponent + 24)) : 2 ^ (exponent + 24) ≤ result := by
  have step : (0 : ℚ) < 2 ^ exponent := zpow_pos two_pos exponent
  rw [two_zpow_past] at far
  obtain ⟨steps, rfl, near, even⟩ := rounds.exists_steps least (by
    rw [two_zpow_leading]
    linarith) upper
  have below := (abs_le.mp near).2
  have last : 2 ^ 24 - 1 ≤ steps := by
    have product : (2 ^ 24 - 1) * 2 ^ exponent ≤ (steps : ℚ) * 2 ^ exponent := by linarith
    exact_mod_cast le_of_mul_le_mul_right product step
  -- the step before is odd, so that half way to it is not rounded down
  have further : steps ≠ 2 ^ 24 - 1 := by
    intro same
    have stepsEq : (steps : ℚ) = 2 ^ 24 - 1 := by exact_mod_cast same
    have half : 2 ^ exponent / 2 ≤ value - steps * 2 ^ exponent := by
      rw [stepsEq]
      linarith
    have parity := even (le_antisymm near (half.trans (le_abs_self _)))
    omega
  have stepsGe : (2 : ℚ) ^ 24 ≤ steps := by
    have reach : 2 ^ 24 ≤ steps := by omega
    exact_mod_cast reach
  rw [two_zpow_past]
  exact mul_le_mul_of_nonneg_right stepsGe step.le

end HdrGain.Rounding
