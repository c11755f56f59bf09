import HdrGain.Decimal
import Mathlib

namespace HdrGain.Binary

def Magnitude.value (magnitude : Magnitude) : ℚ :=
  magnitude.mantissa * 2 ^ magnitude.exponent

theorem powerParts_div {base : ℕ} (positive : 0 < base) (power : ℤ) :
    ((Decimal.powerParts base power).1 : ℚ) / (Decimal.powerParts base power).2 =
      (base : ℚ) ^ power := by
  have nonzero : (base : ℚ) ≠ 0 := by positivity
  change ((base ^ power.toNat : ℕ) : ℚ) / ((base ^ (-power).toNat : ℕ) : ℚ) = _
  rw [Nat.cast_pow, Nat.cast_pow, ← zpow_natCast, ← zpow_natCast, ← zpow_sub₀ nonzero]
  congr 1
  omega

theorem Magnitude.num_div_den (magnitude : Magnitude) :
    (magnitude.num : ℚ) / magnitude.den = magnitude.value := by
  have parts := powerParts_div Nat.two_pos magnitude.exponent
  rw [Nat.cast_ofNat] at parts
  rw [value, ← parts, ← mul_div_assoc]
  change ((magnitude.mantissa * (Decimal.powerParts 2 magnitude.exponent).1 : ℕ) : ℚ) / _ = _
  rw [Nat.cast_mul]
  rfl

theorem Magnitude.den_pos (magnitude : Magnitude) : 0 < magnitude.den :=
  Nat.pow_pos Nat.two_pos

section Quotients

variable {num den : ℕ}

theorem log2_bounds (positive : 0 < num) :
    (2 : ℚ) ^ (num.log2 : ℤ) ≤ num ∧ (num : ℚ) < 2 ^ ((num.log2 : ℤ) + 1) := by
  constructor
  · rw [zpow_natCast]
    exact_mod_cast Nat.log2_self_le positive.ne'
  · exact_mod_cast Nat.lt_log2_self (n := num)

theorem leadingPlace_bounds (positive : 0 < num) (positive' : 0 < den) :
    (2 : ℚ) ^ leadingPlace num den ≤ num / den ∧
      (num : ℚ) / den < 2 ^ (leadingPlace num den + 1) := by
  obtain ⟨numAbove, numBelow⟩ := log2_bounds positive
  obtain ⟨denAbove, denBelow⟩ := log2_bounds positive'
  have denPos : (0 : ℚ) < den := Nat.cast_pos.mpr positive'
  have split : ∀ exponent : ℤ, (2 : ℚ) ^ exponent ≤ num / den ↔
      den * (Decimal.powerParts 2 exponent).1 ≤ num * (Decimal.powerParts 2 exponent).2 := by
    intro exponent
    have parts := powerParts_div Nat.two_pos exponent
    have partPos : (0 : ℚ) < (Decimal.powerParts 2 exponent).2 :=
      Nat.cast_pos.mpr (Nat.pow_pos Nat.two_pos)
    rw [Nat.cast_ofNat] at parts
    rw [← parts, div_le_div_iff₀ partPos denPos, mul_comm]
    exact_mod_cast Iff.rfl
  have lower : (2 : ℚ) ^ ((num.log2 : ℤ) - den.log2 - 1) ≤ num / den := by
    rw [le_div_iff₀ denPos]
    calc (2 : ℚ) ^ ((num.log2 : ℤ) - den.log2 - 1) * den
        ≤ 2 ^ ((num.log2 : ℤ) - den.log2 - 1) * 2 ^ ((den.log2 : ℤ) + 1) := by gcongr
      _ = 2 ^ (num.log2 : ℤ) := by
          rw [← zpow_add₀ two_ne_zero]
          congr 1
          omega
      _ ≤ num := numAbove
  have upper : (num : ℚ) / den < 2 ^ ((num.log2 : ℤ) - den.log2 + 1) := by
    rw [div_lt_iff₀ denPos]
    calc (num : ℚ) < 2 ^ ((num.log2 : ℤ) + 1) := numBelow
      _ = 2 ^ ((num.log2 : ℤ) - den.log2 + 1) * 2 ^ (den.log2 : ℤ) := by
          rw [← zpow_add₀ two_ne_zero]
          congr 1
          omega
      _ ≤ 2 ^ ((num.log2 : ℤ) - den.log2 + 1) * den := by gcongr
  unfold leadingPlace
  dsimp only
  split_ifs with reached
  · exact ⟨(split _).mpr reached, upper⟩
  · refine ⟨lower, ?_⟩
    rw [sub_add_cancel]
    exact lt_of_not_ge (mt (split _).mp reached)

theorem roundQuotient_near (num : ℕ) (positive : 0 < den) :
    2 * roundQuotient num den * den ≤ 2 * num + den ∧
      2 * num ≤ 2 * roundQuotient num den * den + den := by
  have parts := Nat.div_add_mod num den
  have rest := Nat.mod_lt num positive
  have upper : 2 * (num / den + 1) * den = 2 * (den * (num / den)) + 2 * den := by ring
  have lower : 2 * (num / den) * den = 2 * (den * (num / den)) := by ring
  unfold roundQuotient
  dsimp only
  split_ifs <;> omega

/-- The one whole number that is within half of the quotient, or the even one of two. -/
theorem roundQuotient_eq {whole : ℕ} (positive : 0 < den)
    (above : 2 * whole * den ≤ 2 * num + den) (below : 2 * num ≤ 2 * whole * den + den)
    (tie : whole % 2 = 0 ∨ 2 * whole * den < 2 * num + den ∧ 2 * num < 2 * whole * den + den) :
    roundQuotient num den = whole := by
  have parts := Nat.div_add_mod num den
  have rest := Nat.mod_lt num positive
  have upper : 2 * (num / den + 1) * den = 2 * (den * (num / den)) + 2 * den := by ring
  have lower : 2 * (num / den) * den = 2 * (den * (num / den)) := by ring
  have cases : whole = num / den ∨ whole = num / den + 1 := by
    rcases Nat.lt_trichotomy whole (num / den) with less | same | more
    · have step : 2 * (whole + 1) * den ≤ 2 * (num / den) * den := by gcongr; omega
      have wide : 2 * (whole + 1) * den = 2 * whole * den + 2 * den := by ring
      omega
    · exact .inl same
    · rcases Nat.lt_or_eq_of_le (Nat.succ_le_of_lt more) with far | next
      · have step : 2 * (num / den + 1 + 1) * den ≤ 2 * whole * den := by gcongr; omega
        have wide : 2 * (num / den + 1 + 1) * den = 2 * (num / den + 1) * den + 2 * den := by ring
        omega
      · exact .inr next.symm
  unfold roundQuotient
  dsimp only
  rcases cases with rfl | rfl <;> split_ifs <;> omega

theorem roundQuotient_eq_of_near {whole : ℕ} (positive : 0 < den)
    (above : (whole : ℚ) - 1 / 2 ≤ num / den) (below : (num : ℚ) / den ≤ whole + 1 / 2)
    (tie : whole % 2 = 0 ∨ (whole : ℚ) - 1 / 2 < num / den ∧ (num : ℚ) / den < whole + 1 / 2) :
    roundQuotient num den = whole := by
  have denPos : (0 : ℚ) < den := Nat.cast_pos.mpr positive
  rw [le_div_iff₀ denPos] at above
  rw [div_le_iff₀ denPos] at below
  rw [lt_div_iff₀ denPos, div_lt_iff₀ denPos] at tie
  refine roundQuotient_eq positive ?_ ?_ (tie.imp_right fun strict => ⟨?_, ?_⟩)
  · have cast : (2 * whole * den : ℚ) ≤ 2 * num + den := by linarith
    exact_mod_cast cast
  · have cast : (2 * num : ℚ) ≤ 2 * whole * den + den := by linarith
    exact_mod_cast cast
  · have cast : (2 * whole * den : ℚ) < 2 * num + den := by linarith [strict.1]
    exact_mod_cast cast
  · have cast : (2 * num : ℚ) < 2 * whole * den + den := by linarith [strict.2]
    exact_mod_cast cast

end Quotients

namespace Precision

variable {precision : Precision} {num den : ℕ}

/-- The exponent that a quotient is rounded at. -/
def place (precision : Precision) (num den : ℕ) : ℤ :=
  max precision.least (leadingPlace num den - (precision.digits - 1 : ℕ))

/-- The quotient in units of that place. -/
def scaled (precision : Precision) (num den : ℕ) : ℕ × ℕ :=
  (num * (Decimal.powerParts 2 (precision.place num den)).2,
    den * (Decimal.powerParts 2 (precision.place num den)).1)

theorem nearest_eq (positive : 0 < num) :
    precision.nearest num den =
      ⟨roundQuotient (precision.scaled num den).1 (precision.scaled num den).2,
        precision.place num den⟩ := by
  rw [nearest, if_neg positive.ne']
  rfl

theorem scaled_pos (precision : Precision) (num : ℕ) (positive' : 0 < den) :
    0 < (precision.scaled num den).2 :=
  Nat.mul_pos positive' (Nat.pow_pos Nat.two_pos)

theorem scaled_div (precision : Precision) (num : ℕ) (positive' : 0 < den) :
    ((precision.scaled num den).1 : ℚ) / (precision.scaled num den).2 =
      num / den / 2 ^ precision.place num den := by
  have parts := powerParts_div Nat.two_pos (precision.place num den)
  have above : (0 : ℚ) < (Decimal.powerParts 2 (precision.place num den)).1 :=
    Nat.cast_pos.mpr (Nat.pow_pos Nat.two_pos)
  have below : (0 : ℚ) < (Decimal.powerParts 2 (precision.place num den)).2 :=
    Nat.cast_pos.mpr (Nat.pow_pos Nat.two_pos)
  have denPos : (0 : ℚ) < den := Nat.cast_pos.mpr positive'
  rw [Nat.cast_ofNat] at parts
  rw [← parts, scaled]
  push_cast
  field_simp

theorem place_of_le (positive : 0 < num) (positive' : 0 < den) {whole : ℕ} {exponent : ℤ}
    (short : whole < 2 ^ precision.digits) (least : precision.least ≤ exponent)
    (exact : (num : ℚ) / den = whole * 2 ^ exponent) : precision.place num den ≤ exponent := by
  have leading := (leadingPlace_bounds positive positive').1
  have bound : (2 : ℚ) ^ leadingPlace num den < 2 ^ (precision.digits + exponent) := by
    calc (2 : ℚ) ^ leadingPlace num den ≤ whole * 2 ^ exponent := by rwa [← exact]
      _ < 2 ^ precision.digits * 2 ^ exponent := by
          gcongr
          exact_mod_cast short
      _ = 2 ^ (precision.digits + exponent) := by
          rw [zpow_add₀ two_ne_zero, zpow_natCast]
  have less := (zpow_lt_zpow_iff_right₀ one_lt_two).mp bound
  rw [place, max_le_iff]
  omega

/-- Rounding is off by at most half of the place. -/
theorem abs_nearest_sub_le (positive : 0 < num) (positive' : 0 < den) :
    |(precision.nearest num den).value - num / den| ≤ 2 ^ precision.place num den / 2 := by
  have scaledPos : 0 < (precision.scaled num den).2 := scaled_pos precision num positive'
  have quotient := scaled_div precision num positive'
  have near := roundQuotient_near (precision.scaled num den).1 scaledPos
  have unit : (0 : ℚ) < 2 ^ precision.place num den := zpow_pos two_pos _
  rw [nearest_eq positive, Magnitude.value]
  dsimp only
  generalize precision.scaled num den = parts at *
  generalize roundQuotient parts.1 parts.2 = rounded at *
  obtain ⟨above, below⟩ := near
  have positive : (0 : ℚ) < parts.2 := Nat.cast_pos.mpr scaledPos
  have value : (num : ℚ) / den = parts.1 / parts.2 * 2 ^ precision.place num den := by
    rw [quotient, div_mul_cancel₀ _ unit.ne']
  have above' : (rounded : ℚ) ≤ parts.1 / parts.2 + 1 / 2 := by
    rw [div_add_div _ _ positive.ne' two_ne_zero, le_div_iff₀ (by positivity)]
    have cast : (2 * rounded * parts.2 : ℚ) ≤ 2 * parts.1 + parts.2 := by exact_mod_cast above
    linarith
  have below' : (parts.1 : ℚ) / parts.2 ≤ rounded + 1 / 2 := by
    rw [div_le_iff₀ positive]
    have cast : (2 * parts.1 : ℚ) ≤ 2 * rounded * parts.2 + parts.2 := by exact_mod_cast below
    linarith
  have half : |(rounded : ℚ) - parts.1 / parts.2| ≤ 1 / 2 := by
    rw [abs_le]
    constructor <;> linarith
  calc |(rounded : ℚ) * 2 ^ precision.place num den - num / den|
      = |(rounded : ℚ) - parts.1 / parts.2| * 2 ^ precision.place num den := by
        rw [value, ← sub_mul, abs_mul, abs_of_pos unit]
    _ ≤ 1 / 2 * 2 ^ precision.place num den := by gcongr
    _ = 2 ^ precision.place num den / 2 := by ring

/-- A number that the precision holds is its own nearest. -/
theorem nearest_value_eq (positive : 0 < num) (positive' : 0 < den) {whole : ℕ} {exponent : ℤ}
    (short : whole < 2 ^ precision.digits) (least : precision.least ≤ exponent)
    (exact : (num : ℚ) / den = whole * 2 ^ exponent) :
    (precision.nearest num den).value = num / den := by
  have placed := place_of_le positive positive' short least exact
  have scaledPos : 0 < (precision.scaled num den).2 := scaled_pos precision num positive'
  have quotient := scaled_div precision num positive'
  have unit : (0 : ℚ) < 2 ^ precision.place num den := zpow_pos two_pos _
  obtain ⟨shift, shifted⟩ := Int.eq_ofNat_of_zero_le (sub_nonneg.mpr placed)
  have power : (2 : ℚ) ^ exponent = 2 ^ shift * 2 ^ precision.place num den := by
    rw [← zpow_natCast, ← zpow_add₀ two_ne_zero]
    congr 1
    omega
  have whole' : (precision.scaled num den).1 =
      whole * 2 ^ shift * (precision.scaled num den).2 := by
    have cast : (0 : ℚ) < (precision.scaled num den).2 := Nat.cast_pos.mpr scaledPos
    rw [exact, power, ← mul_assoc, mul_div_cancel_right₀ _ unit.ne',
      div_eq_iff cast.ne'] at quotient
    exact_mod_cast quotient
  have rounded : roundQuotient (precision.scaled num den).1 (precision.scaled num den).2 =
      whole * 2 ^ shift := by
    have twice : 2 * (whole * 2 ^ shift) * (precision.scaled num den).2 =
        2 * (precision.scaled num den).1 := by rw [whole']; ring
    refine roundQuotient_eq scaledPos ?_ ?_ (.inr ⟨?_, ?_⟩) <;> omega
  rw [nearest_eq positive, Magnitude.value, rounded, exact, power]
  push_cast
  ring

/-- Above the smallest numbers the error is small next to the number. -/
theorem abs_nearest_sub_le_mul (precision : Precision) (positive : 0 < num) (positive' : 0 < den)
    (digits : 0 < precision.digits)
    (normal : (2 : ℚ) ^ (precision.least + precision.digits) ≤ num / den) :
    |(precision.nearest num den).value - num / den| ≤ num / den / 2 ^ precision.digits := by
  obtain ⟨leading, next⟩ := leadingPlace_bounds positive positive'
  have high := (zpow_lt_zpow_iff_right₀ (one_lt_two (α := ℚ))).mp (lt_of_le_of_lt normal next)
  have place : precision.place num den = leadingPlace num den + 1 - precision.digits := by
    rw [place, max_eq_right] <;> omega
  calc |(precision.nearest num den).value - num / den|
      ≤ 2 ^ precision.place num den / 2 := abs_nearest_sub_le positive positive'
    _ = 2 ^ leadingPlace num den / 2 ^ precision.digits := by
        rw [place, zpow_sub₀ two_ne_zero, zpow_add₀ two_ne_zero, zpow_natCast]
        ring
    _ ≤ num / den / 2 ^ precision.digits := by gcongr

end Precision

end HdrGain.Binary
