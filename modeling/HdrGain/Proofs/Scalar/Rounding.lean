import Mathlib

namespace HdrGain.Rounding

open Float.Model Float.Model.UnpackedFloat

/-! # Rounding to 32-bit floats

What rounding does to the number that a float is to stand for. The floats around a number lie on a
grid; the number goes to the nearest point of it, and to the even one of two. -/

/-- A mantissa and the two bits behind it, as all that is kept of `value`. -/
def StandsFor (extended : ExtendedMantissa) (value : ℚ) : Prop :=
  match extended with
  | ⟨mantissa, false, false⟩ => value = mantissa
  | ⟨mantissa, false, true⟩ => mantissa < value ∧ value < mantissa + 1 / 2
  | ⟨mantissa, true, false⟩ => value = mantissa + 1 / 2
  | ⟨mantissa, true, true⟩ => mantissa + 1 / 2 < value ∧ value < mantissa + 1

variable {extended : ExtendedMantissa} {value : ℚ}

theorem StandsFor.mantissa_le (stands : StandsFor extended value) :
    (extended.mantissa : ℚ) ≤ value := by
  rcases extended with ⟨mantissa, _ | _, _ | _⟩ <;> simp only [StandsFor] at stands ⊢ <;> linarith

theorem StandsFor.lt_mantissa_succ (stands : StandsFor extended value) :
    value < extended.mantissa + 1 := by
  rcases extended with ⟨mantissa, _ | _, _ | _⟩ <;> simp only [StandsFor] at stands ⊢ <;> linarith

theorem StandsFor.roundedMantissa (stands : StandsFor extended value) :
    |value - extended.roundedMantissa| ≤ 1 / 2 ∧
      (|value - extended.roundedMantissa| = 1 / 2 → extended.roundedMantissa % 2 = 0) := by
  rcases extended with ⟨mantissa, _ | _, _ | _⟩ <;>
    simp only [StandsFor, ExtendedMantissa.roundedMantissa, ExtendedMantissa.accuracy,
      Accuracy.roundToNearestEven] at stands ⊢
  · subst stands
    norm_num
  · have below : |value - mantissa| < 1 / 2 := by rw [abs_lt]; constructor <;> linarith
    exact ⟨below.le, fun tie => absurd tie below.ne⟩
  · subst stands
    rcases Nat.mod_two_eq_zero_or_one mantissa with even | odd
    · rw [even]
      norm_num [even]
    · rw [odd]
      push_cast
      have distance : (mantissa : ℚ) + 1 / 2 - (mantissa + 1) = -(1 / 2) := by ring
      rw [distance]
      norm_num
      omega
  · have below : |value - (mantissa + 1 : ℕ)| < 1 / 2 := by
      push_cast
      rw [abs_lt]
      constructor <;> linarith
    exact ⟨below.le, fun tie => absurd tie below.ne⟩

theorem StandsFor.shiftRightOne (stands : StandsFor extended value) :
    StandsFor extended.shiftRightOne (value / 2) := by
  rcases extended with ⟨mantissa, round, sticky⟩
  obtain ⟨half, rfl | rfl⟩ : ∃ half, mantissa = 2 * half ∨ mantissa = 2 * half + 1 :=
    ⟨mantissa / 2, by omega⟩
  · have quotient : 2 * half / 2 = half := by omega
    have rest : (2 * half % 2 != 0) = false := by simp
    rcases round with _ | _ <;> rcases sticky with _ | _ <;>
      simp only [StandsFor, ExtendedMantissa.shiftRightOne, quotient, rest, Bool.or_false,
        Bool.or_true, Nat.cast_mul, Nat.cast_ofNat] at stands ⊢
    · linarith
    all_goals constructor <;> linarith
  · have quotient : (2 * half + 1) / 2 = half := by omega
    have rest : ((2 * half + 1) % 2 != 0) = true := by
      rw [Nat.mul_add_mod]
      rfl
    rcases round with _ | _ <;> rcases sticky with _ | _ <;>
      simp only [StandsFor, ExtendedMantissa.shiftRightOne, quotient, rest, Bool.or_false,
        Bool.or_true, Nat.cast_add, Nat.cast_mul, Nat.cast_ofNat, Nat.cast_one] at stands ⊢
    · linarith
    all_goals constructor <;> linarith

theorem StandsFor.shiftRight (stands : StandsFor extended value) (places : Nat) :
    StandsFor (extended >>> places) (value / 2 ^ places) := by
  induction places with
  | zero =>
      rw [pow_zero, div_one]
      exact stands
  | succ places ih =>
      have halved := ih.shiftRightOne
      rw [div_div, ← pow_succ] at halved
      exact halved

theorem shiftRight_mantissa (extended : ExtendedMantissa) (places : Nat) :
    (extended >>> places).mantissa = extended.mantissa / 2 ^ places := by
  induction places with
  | zero =>
      rw [pow_zero, Nat.div_one]
      rfl
  | succ places ih =>
      change (extended >>> places).mantissa / 2 = _
      rw [ih, Nat.div_div_eq_div_mul, pow_succ]

/-- `result` is the float for `value` where the size of floats has no upper end: of the multiples
of a power of two that leaves `value` at most 24 places, or of the smallest float, the nearest one,
and of two the even one. -/
def RoundsTo (value result : ℚ) : Prop :=
  ∃ spacing steps : ℤ, -149 ≤ spacing ∧ result = steps * 2 ^ spacing ∧
    (2 ^ (spacing + 23) ≤ |value| ∨ spacing = -149) ∧ |value| < 2 ^ (spacing + 24) ∧
      |value - result| ≤ 2 ^ spacing / 2 ∧ (|value - result| = 2 ^ spacing / 2 → steps % 2 = 0)

theorem RoundsTo.neg {value result : ℚ} (rounds : RoundsTo value result) :
    RoundsTo (-value) (-result) := by
  obtain ⟨spacing, steps, least, placed, lower, upper, near, even⟩ := rounds
  have distance : |-value - -result| = |value - result| := by
    rw [neg_sub_neg, abs_sub_comm]
  refine ⟨spacing, -steps, least, ?_, ?_, ?_, ?_, ?_⟩
  · rw [placed]
    push_cast
    ring
  · rw [abs_neg]
    exact lower
  · rw [abs_neg]
    exact upper
  · rw [distance]
    exact near
  · intro tie
    rw [distance] at tie
    have evenSteps := even tie
    omega

theorem RoundsTo.zero : RoundsTo 0 0 := by
  refine ⟨-149, 0, le_refl _, by norm_num, .inr rfl, ?_, ?_, ?_⟩
  · rw [abs_zero]
    positivity
  · rw [sub_zero, abs_zero]
    positivity
  · intro _
    rfl

theorem near_le (steps bound : ℤ) {value : ℚ} (near : |value - steps| ≤ 1 / 2)
    (below : value ≤ bound) : steps ≤ bound := by
  obtain ⟨lower, _⟩ := abs_le.mp near
  have close : (steps : ℚ) < bound + 1 := by linarith
  exact Int.lt_add_one_iff.mp (by exact_mod_cast close)

theorem le_near (steps bound : ℤ) {value : ℚ} (near : |value - steps| ≤ 1 / 2)
    (above : (bound : ℚ) ≤ value) : bound ≤ steps := by
  obtain ⟨_, upper⟩ := abs_le.mp near
  have close : (bound : ℚ) < steps + 1 := by linarith
  exact Int.lt_add_one_iff.mp (by exact_mod_cast close)

/-- No float lies between a number and the one it is rounded to. -/
theorem RoundsTo.le_of_le {value result : ℚ} (rounds : RoundsTo value result)
    (steps exponent : ℤ) (fits : |steps| ≤ 2 ^ 24) (least : -149 ≤ exponent)
    (below : value ≤ steps * 2 ^ exponent) : result ≤ steps * 2 ^ exponent := by
  obtain ⟨spacing, nearest, _, placed, lower, _, near, _⟩ := rounds
  have unit : (0 : ℚ) < 2 ^ spacing := zpow_pos (by norm_num) spacing
  have scaled : value = value / 2 ^ spacing * 2 ^ spacing := (div_mul_cancel₀ _ unit.ne').symm
  have near' : |value / 2 ^ spacing - nearest| ≤ 1 / 2 := by
    have distance : |value - result| = |value / 2 ^ spacing - nearest| * 2 ^ spacing := by
      rw [placed, ← abs_of_pos unit, ← abs_mul, sub_mul, abs_of_pos unit, ← scaled]
    rw [distance] at near
    have half : (2 : ℚ) ^ spacing / 2 = 1 / 2 * 2 ^ spacing := by ring
    rw [half] at near
    exact le_of_mul_le_mul_right near unit
  have nearestLe : ∀ point : ℤ, value ≤ point * 2 ^ spacing → result ≤ point * 2 ^ spacing := by
    intro point belowPoint
    rw [scaled] at belowPoint
    have pointLe := near_le nearest point near' (le_of_mul_le_mul_right belowPoint unit)
    rw [placed]
    exact mul_le_mul_of_nonneg_right (by exact_mod_cast pointLe) unit.le
  by_cases coarse : spacing ≤ exponent
  · -- the bound is itself a point of the grid
    obtain ⟨places, gap⟩ : ∃ places : ℕ, exponent = places + spacing :=
      ⟨(exponent - spacing).toNat, by omega⟩
    have onGrid : (steps : ℚ) * 2 ^ exponent = (steps * 2 ^ places : ℤ) * 2 ^ spacing := by
      rw [gap, zpow_add₀ (by norm_num), zpow_natCast]
      push_cast
      ring
    rw [onGrid] at below ⊢
    exact nearestLe _ below
  · -- the bound is finer than the grid, and so at most its least point of full length
    have long : (2 : ℚ) ^ (spacing + 23) ≤ |value| := lower.resolve_right (by omega)
    have leading : (2 : ℚ) ^ (spacing + 23) = (2 ^ 23 : ℤ) * 2 ^ spacing := by
      rw [zpow_add₀ (by norm_num)]
      push_cast
      norm_cast
      ring
    have small : |(steps : ℚ) * 2 ^ exponent| ≤ 2 ^ (spacing + 23) := by
      have fitsCast : |(steps : ℚ)| ≤ 2 ^ (24 : ℤ) := by exact_mod_cast fits
      have unitExponent : (0 : ℚ) < 2 ^ exponent := zpow_pos (by norm_num) exponent
      calc |(steps : ℚ) * 2 ^ exponent|
          = |(steps : ℚ)| * 2 ^ exponent := by rw [abs_mul, abs_of_pos unitExponent]
        _ ≤ 2 ^ (24 : ℤ) * 2 ^ exponent := mul_le_mul_of_nonneg_right fitsCast unitExponent.le
        _ = 2 ^ (24 + exponent) := by rw [zpow_add₀ (by norm_num)]
        _ ≤ 2 ^ (spacing + 23) := zpow_le_zpow_right₀ (by norm_num) (by omega)
    obtain ⟨smallLower, smallUpper⟩ := abs_le.mp small
    rcases le_total 0 value with nonnegative | negative
    · rw [abs_of_nonneg nonnegative] at long
      have reached := nearestLe (2 ^ 23) (by rw [← leading]; exact below.trans smallUpper)
      rw [← leading] at reached
      exact (reached.trans long).trans below
    · rw [abs_of_nonpos negative] at long
      have reached := nearestLe (-2 ^ 23) (by
        rw [Int.cast_neg, neg_mul, ← leading]
        linarith)
      rw [Int.cast_neg, neg_mul, ← leading] at reached
      exact reached.trans smallLower

theorem RoundsTo.le_of_ge {value result : ℚ} (rounds : RoundsTo value result)
    (steps exponent : ℤ) (fits : |steps| ≤ 2 ^ 24) (least : -149 ≤ exponent)
    (above : steps * 2 ^ exponent ≤ value) : steps * 2 ^ exponent ≤ result := by
  have mirrored := rounds.neg.le_of_le (-steps) exponent (by rw [abs_neg]; exact fits) least (by
    rw [Int.cast_neg, neg_mul]
    linarith)
  rw [Int.cast_neg, neg_mul] at mirrored
  linarith

theorem RoundsTo.abs_le_two_zpow {value result : ℚ} (rounds : RoundsTo value result)
    (exponent : ℤ) (least : -149 ≤ exponent) (bound : |value| ≤ 2 ^ exponent) :
    |result| ≤ 2 ^ exponent := by
  obtain ⟨lower, upper⟩ := abs_le.mp bound
  have below := rounds.le_of_le 1 exponent (by decide) least (by
    rw [Int.cast_one, one_mul]
    exact upper)
  have above := rounds.le_of_ge (-1) exponent (by decide) least (by
    rw [Int.cast_neg, Int.cast_one, neg_one_mul]
    exact lower)
  rw [Int.cast_one, one_mul] at below
  rw [Int.cast_neg, Int.cast_one, neg_one_mul] at above
  exact abs_le.mpr ⟨above, below⟩

theorem RoundsTo.eq_of_fits {result : ℚ} {steps exponent : ℤ}
    (rounds : RoundsTo (steps * 2 ^ exponent) result) (fits : |steps| ≤ 2 ^ 24)
    (least : -149 ≤ exponent) : result = steps * 2 ^ exponent :=
  le_antisymm (rounds.le_of_le steps exponent fits least (le_refl _))
    (rounds.le_of_ge steps exponent fits least (le_refl _))

theorem RoundsTo.two_zpow_le_abs {value result : ℚ} (rounds : RoundsTo value result)
    (exponent : ℤ) (least : -149 ≤ exponent) (bound : 2 ^ exponent ≤ |value|) :
    2 ^ exponent ≤ |result| := by
  rcases le_abs.mp bound with above | below
  · have reached := rounds.le_of_ge 1 exponent (by decide) least (by
      rw [Int.cast_one, one_mul]
      exact above)
    rw [Int.cast_one, one_mul] at reached
    exact le_abs.mpr (.inl reached)
  · have reached := rounds.neg.le_of_ge 1 exponent (by decide) least (by
      rw [Int.cast_one, one_mul]
      exact below)
    rw [Int.cast_one, one_mul] at reached
    exact le_abs.mpr (.inr reached)

theorem RoundsTo.eq_zero {result : ℚ} (rounds : RoundsTo 0 result) : result = 0 := by
  have placed : RoundsTo ((0 : ℤ) * 2 ^ (0 : ℤ)) result := by
    rw [Int.cast_zero, zero_mul]
    exact rounds
  rw [placed.eq_of_fits (by decide) (by decide), Int.cast_zero, zero_mul]

theorem RoundsTo.nonneg {value result : ℚ} (rounds : RoundsTo value result) (above : 0 ≤ value) :
    0 ≤ result := by
  have reached := rounds.le_of_ge 0 0 (by decide) (by decide) (by
    rw [Int.cast_zero, zero_mul]
    exact above)
  rw [Int.cast_zero, zero_mul] at reached
  exact reached

theorem RoundsTo.one_le {value result : ℚ} (rounds : RoundsTo value result) (above : 1 ≤ value) :
    1 ≤ result := by
  have reached := rounds.le_of_ge 1 0 (by decide) (by decide) (by
    rw [Int.cast_one, one_mul, zpow_zero]
    exact above)
  rw [Int.cast_one, one_mul, zpow_zero] at reached
  exact reached

theorem RoundsTo.abs_le_two_pow {value result : ℚ} (rounds : RoundsTo value result) {places : ℕ}
    (bound : |value| ≤ 2 ^ places) : |result| ≤ 2 ^ places := by
  rw [← zpow_natCast] at bound ⊢
  exact rounds.abs_le_two_zpow places (by omega) bound

theorem RoundsTo.natCast_le {count places : ℕ} {result : ℚ} (rounds : RoundsTo count result)
    (inside : count ≤ 2 ^ places) : result ≤ 2 ^ places :=
  (abs_le.mp (rounds.abs_le_two_pow (by
    rw [Nat.abs_cast]
    exact_mod_cast inside))).2

def number? : UnpackedFloat → Option ℚ
  | .notANumber | .infinity _ => none
  | .zero _ => some 0
  | .finite .positive mantissa exponent _ => some (mantissa * 2 ^ exponent)
  | .finite .negative mantissa exponent _ => some (-(mantissa * 2 ^ exponent))

/-- The mantissa uses all 24 places, unless the exponent is the least one. -/
def Canonical : UnpackedFloat → Prop
  | .finite _ mantissa exponent _ =>
      mantissa < 2 ^ 24 ∧ -149 ≤ exponent ∧ (2 ^ 23 ≤ mantissa ∨ exponent = -149)
  | _ => True

def signed (sign : Sign) (magnitude : ℚ) : ℚ :=
  match sign with
  | .positive => magnitude
  | .negative => -magnitude

theorem number?_finite (sign : Sign) (mantissa : Nat) (exponent : ℤ) (positive : 0 < mantissa) :
    number? (.finite sign mantissa exponent positive) =
      some (signed sign (mantissa * 2 ^ exponent)) := by
  cases sign <;> rfl

theorem RoundsTo.signed {value result : ℚ} (rounds : RoundsTo value result) (sign : Sign) :
    RoundsTo (signed sign value) (Rounding.signed sign result) := by
  cases sign with
  | positive => exact rounds
  | negative => exact rounds.neg

/-- The exponent of the grid for a number whose whole part in units of `2 ^ exponent` is known. -/
def gridExponent (mantissa : Nat) (exponent : ℤ) : ℤ :=
  max (mantissa.log2 + exponent - 23) (-149)

theorem least_le_gridExponent (mantissa : Nat) (exponent : ℤ) :
    -149 ≤ gridExponent mantissa exponent :=
  Int.le_max_right _ _

theorem leading_le_gridExponent (mantissa : Nat) (exponent : ℤ) :
    mantissa.log2 + exponent ≤ gridExponent mantissa exponent + 23 := by
  simp only [gridExponent]
  omega

theorem leading_eq_of_coarse {mantissa : Nat} {exponent : ℤ}
    (coarse : gridExponent mantissa exponent ≠ -149) :
    gridExponent mantissa exponent + 23 = mantissa.log2 + exponent := by
  simp only [gridExponent] at coarse ⊢
  omega

theorem targetExponent_eq (mantissa : Nat) (exponent : ℤ) :
    Format.binary32.targetExponent (totalExponent mantissa exponent) =
      gridExponent mantissa exponent := by
  simp only [Format.targetExponent, totalExponent, Format.mantissaBits, Format.minExponent,
    gridExponent]
  omega

theorem shiftToTargetExponent_eq {mantissa : Nat} {exponent : ℤ} {accuracy : Accuracy}
    (coarser : exponent ≤ gridExponent mantissa exponent) :
    shiftToTargetExponent Format.binary32 mantissa exponent accuracy =
      (ExtendedMantissa.ofMantissaAndAccuracy mantissa accuracy >>>
        (gridExponent mantissa exponent - exponent).toNat, gridExponent mantissa exponent) := by
  simp only [shiftToTargetExponent, shiftToExponent, targetExponent_eq]
  have reached : exponent + ((gridExponent mantissa exponent - exponent).toNat : ℤ) =
      gridExponent mantissa exponent := by omega
  simp only [reached]

/-- A number of steps of the grid as a float. The step past the last mantissa is the first of the
next coarser grid. -/
def settle (sign : Sign) (steps : Nat) (exponent : ℤ) : UnpackedFloat :=
  if nonzero : steps = 0 then .zero sign
  else if steps < 2 ^ 24 then .finite sign steps exponent (Nat.pos_of_ne_zero nonzero)
  else .finite sign (2 ^ 23) (exponent + 1) (by decide)

theorem number?_settle {steps : Nat} {exponent : ℤ} (sign : Sign) (bound : steps ≤ 2 ^ 24) :
    number? (settle sign steps exponent) = some (signed sign (steps * 2 ^ exponent)) := by
  unfold settle
  split
  · subst steps
    cases sign <;> simp [number?, signed]
  · split
    · rw [number?_finite]
    · have full : steps = 2 ^ 24 := by omega
      rw [number?_finite, full, zpow_add_one₀ (by norm_num)]
      congr 2
      push_cast
      ring

theorem canonical_settle {steps : Nat} {exponent : ℤ} (sign : Sign) (least : -149 ≤ exponent)
    (full : 2 ^ 23 ≤ steps ∨ exponent = -149) : Canonical (settle sign steps exponent) := by
  unfold settle
  split
  · trivial
  · split
    · exact ⟨by assumption, least, full⟩
    · exact ⟨by decide, by omega, .inl (le_refl _)⟩

theorem log2_lt_of_lt {mantissa places : Nat} (positive : 0 < places)
    (bound : mantissa < 2 ^ places) : mantissa.log2 < places := by
  by_cases zero : mantissa = 0
  · subst mantissa
    exact positive
  · exact (Nat.log2_lt zero).mpr bound

theorem shiftToTargetExponent_fitting {mantissa : Nat} {exponent : ℤ}
    (fits : mantissa < 2 ^ 24) (least : -149 ≤ exponent) :
    shiftToTargetExponent Format.binary32 mantissa exponent .exact =
      (⟨mantissa, false, false⟩, exponent) := by
  have places := log2_lt_of_lt (by decide) fits
  have unshifted : (gridExponent mantissa exponent - exponent).toNat = 0 := by
    simp only [gridExponent]
    omega
  simp only [shiftToTargetExponent, shiftToExponent, targetExponent_eq, unshifted, Nat.cast_zero,
    add_zero]
  rfl

theorem shiftToTargetExponent_carry {exponent : ℤ} (least : -149 ≤ exponent) :
    shiftToTargetExponent Format.binary32 (2 ^ 24) exponent .exact =
      (⟨2 ^ 23, false, false⟩, exponent + 1) := by
  have next : gridExponent (2 ^ 24) exponent = exponent + 1 := by
    rw [gridExponent, Nat.log2_two_pow]
    omega
  have once : (exponent + 1 - exponent).toNat = 1 := by omega
  rw [shiftToTargetExponent_eq (by rw [next]; omega), next, once]
  rfl

theorem roundWithAccuracy_eq_settle {mantissa : Nat} {exponent : ℤ} {accuracy : Accuracy}
    (sign : Sign) (steps : Nat) (coarser : exponent ≤ gridExponent mantissa exponent)
    (rounded : (ExtendedMantissa.ofMantissaAndAccuracy mantissa accuracy >>>
      (gridExponent mantissa exponent - exponent).toNat).roundedMantissa = steps)
    (bound : steps ≤ 2 ^ 24) :
    roundWithAccuracy Format.binary32 sign mantissa exponent accuracy =
      settle sign steps (gridExponent mantissa exponent) := by
  have least := least_le_gridExponent mantissa exponent
  unfold roundWithAccuracy settle
  rcases Nat.lt_or_eq_of_le bound with small | full
  · simp only [shiftToTargetExponent_eq coarser, rounded,
      shiftToTargetExponent_fitting small least, small, if_true]
  · subst full
    simp only [shiftToTargetExponent_eq coarser, rounded, shiftToTargetExponent_carry least]
    rfl

/-- The whole part of `value` fixes the grid that `value` is rounded on, if it has 24 places or
nothing is finer than its unit. -/
theorem gridExponent_bounds {mantissa : Nat} {exponent : ℤ} {value : ℚ}
    (enough : 23 ≤ mantissa.log2 ∨ exponent ≤ -149)
    (lower : (mantissa : ℚ) ≤ value) (upper : value < mantissa + 1) :
    (2 ^ (gridExponent mantissa exponent + 23) ≤ value * 2 ^ exponent ∨
      gridExponent mantissa exponent = -149) ∧
        value * 2 ^ exponent < 2 ^ (gridExponent mantissa exponent + 24) := by
  have unit : (0 : ℚ) < 2 ^ exponent := zpow_pos (by norm_num) exponent
  constructor
  · by_cases finest : gridExponent mantissa exponent = -149
    · exact .inr finest
    · have leading := leading_eq_of_coarse finest
      have positive : mantissa ≠ 0 := by
        intro zero
        have least := least_le_gridExponent mantissa exponent
        rw [zero, Nat.log2_zero] at enough leading
        rw [zero] at finest least
        omega
      have whole : ((2 ^ mantissa.log2 : ℕ) : ℚ) ≤ mantissa :=
        Nat.cast_le.mpr (Nat.log2_self_le positive)
      push_cast at whole
      left
      rw [leading, zpow_add₀ (by norm_num), zpow_natCast]
      exact mul_le_mul_of_nonneg_right (whole.trans lower) unit.le
  · have whole : ((mantissa + 1 : ℕ) : ℚ) ≤ (2 ^ (mantissa.log2 + 1) : ℕ) :=
      Nat.cast_le.mpr Nat.lt_log2_self
    push_cast at whole
    have scaled : value * 2 ^ exponent < 2 ^ ((mantissa.log2 : ℤ) + 1 + exponent) := by
      rw [zpow_add₀ (by norm_num), zpow_add_one₀ (by norm_num), zpow_natCast, ← pow_succ]
      exact mul_lt_mul_of_pos_right (upper.trans_le whole) unit
    have leading := leading_le_gridExponent mantissa exponent
    exact scaled.trans_le (zpow_le_zpow_right₀ (by norm_num) (by omega))

theorem mantissa_ofMantissaAndAccuracy (mantissa : Nat) (accuracy : Accuracy) :
    (ExtendedMantissa.ofMantissaAndAccuracy mantissa accuracy).mantissa = mantissa := by
  rcases accuracy with _ | _ | _ | _ <;> rfl

/-- Rounding a mantissa with an accuracy rounds the number that both stand for. -/
theorem roundWithAccuracy_spec (sign : Sign) {mantissa : Nat} {exponent : ℤ}
    (accuracy : Accuracy) {value : ℚ}
    (stands : StandsFor (ExtendedMantissa.ofMantissaAndAccuracy mantissa accuracy) value)
    (enough : 23 ≤ mantissa.log2 ∨ exponent ≤ -149) :
    ∃ result,
      number? (roundWithAccuracy Format.binary32 sign mantissa exponent accuracy) = some result ∧
      Canonical (roundWithAccuracy Format.binary32 sign mantissa exponent accuracy) ∧
      RoundsTo (signed sign (value * 2 ^ exponent)) result := by
  have wholeBelow := stands.mantissa_le
  have belowNext := stands.lt_mantissa_succ
  rw [mantissa_ofMantissaAndAccuracy] at wholeBelow belowNext
  obtain ⟨lower, upper⟩ := gridExponent_bounds enough wholeBelow belowNext
  have least := least_le_gridExponent mantissa exponent
  have leading := leading_le_gridExponent mantissa exponent
  have coarser : exponent ≤ gridExponent mantissa exponent := by omega
  obtain ⟨places, reached⟩ : ∃ places : ℕ, (gridExponent mantissa exponent - exponent) = places :=
    ⟨_, (Int.toNat_of_nonneg (by omega)).symm⟩
  have shifted := stands.shiftRight (gridExponent mantissa exponent - exponent).toNat
  rw [reached, Int.toNat_natCast] at shifted
  obtain ⟨near, even⟩ := shifted.roundedMantissa
  generalize rounded : (ExtendedMantissa.ofMantissaAndAccuracy mantissa accuracy >>>
    places).roundedMantissa = steps at near even
  generalize onGrid : value / 2 ^ places = scaled at near even
  have unit : (0 : ℚ) < 2 ^ gridExponent mantissa exponent := zpow_pos (by norm_num) _
  have rescaled : value * 2 ^ exponent = scaled * 2 ^ gridExponent mantissa exponent := by
    have split : gridExponent mantissa exponent = places + exponent := by omega
    rw [split, ← onGrid, zpow_add₀ (by norm_num), zpow_natCast]
    field_simp
  rw [rescaled] at lower upper ⊢
  have full : 2 ^ 23 ≤ steps ∨ gridExponent mantissa exponent = -149 := by
    refine lower.imp_left fun reaches => ?_
    rw [zpow_add₀ (by norm_num), mul_comm] at reaches
    have above := le_near steps (2 ^ 23) near (by
      exact_mod_cast le_of_mul_le_mul_right reaches unit)
    exact_mod_cast above
  have bound : steps ≤ 2 ^ 24 := by
    rw [zpow_add₀ (by norm_num), mul_comm (2 ^ gridExponent mantissa exponent)] at upper
    have below := near_le steps (2 ^ 24) near (by
      exact_mod_cast (lt_of_mul_lt_mul_right upper unit.le).le)
    exact_mod_cast below
  have settled := roundWithAccuracy_eq_settle sign steps coarser (by
    rw [reached, Int.toNat_natCast, rounded]) bound
  rw [settled]
  refine ⟨_, number?_settle sign bound, canonical_settle sign least full, ?_⟩
  have nonnegative : 0 ≤ scaled * 2 ^ gridExponent mantissa exponent := by
    rw [← rescaled]
    exact mul_nonneg ((Nat.cast_nonneg mantissa).trans wholeBelow) (zpow_pos (by norm_num) _).le
  have distance : |scaled * 2 ^ gridExponent mantissa exponent -
      steps * 2 ^ gridExponent mantissa exponent| =
        |scaled - steps| * 2 ^ gridExponent mantissa exponent := by
    rw [← sub_mul, abs_mul, abs_of_pos unit]
  refine RoundsTo.signed ⟨gridExponent mantissa exponent, steps, least, ?_, ?_, ?_, ?_, ?_⟩ sign
  · norm_cast
  · rw [abs_of_nonneg nonnegative]
    exact lower
  · rw [abs_of_nonneg nonnegative]
    exact upper
  · rw [distance]
    linarith [mul_le_mul_of_nonneg_right near unit.le]
  · intro tie
    rw [distance] at tie
    have halfway : |scaled - steps| = 1 / 2 := by
      apply mul_right_cancel₀ unit.ne'
      rw [tie]
      ring
    have evenSteps := even halfway
    omega

end HdrGain.Rounding
