import HdrGain.Decimal
import HdrGain.Proofs.Binary.Nearest

namespace HdrGain

namespace Decimal.Rounding

/-- The fields that a finite float other than zero may have. -/
structure IsSingle (rounding : Rounding) : Prop where
  positive : 0 < rounding.mantissa
  fits : rounding.mantissa < 2 ^ 24
  least : -149 ≤ rounding.exponent
  most : rounding.exponent ≤ 104
  full : 2 ^ 23 ≤ rounding.mantissa ∨ rounding.exponent = -149
  narrow : rounding.narrowBelow = true ↔ rounding.mantissa = 2 ^ 23 ∧ -149 < rounding.exponent

/-- A quarter of the last place, the unit that the ends of the interval are given in. -/
def quarter (rounding : Rounding) : ℚ :=
  2 ^ (rounding.exponent - 2)

/-- The number is in the interval; its ends are only where the mantissa is even. -/
structure Takes (rounding : Rounding) (number : ℚ) : Prop where
  above : rounding.lower * rounding.quarter ≤ number
  below : number ≤ rounding.upper * rounding.quarter
  inside : rounding.mantissa % 2 = 0 ∨
    rounding.lower * rounding.quarter < number ∧ number < rounding.upper * rounding.quarter

theorem quarter_pos (rounding : Rounding) : 0 < rounding.quarter :=
  zpow_pos two_pos _

theorem two_zpow_eq (rounding : Rounding) {exponent : ℤ} (places : ℕ)
    (shifted : exponent = rounding.exponent - 2 + places) :
    (2 : ℚ) ^ exponent = 2 ^ places * rounding.quarter := by
  rw [shifted, zpow_add₀ two_ne_zero, zpow_natCast, mul_comm, quarter]

end Decimal.Rounding

namespace Binary

open Decimal

/-- The bits of a float without its sign. -/
def fieldBits (rounding : Rounding) : ℕ :=
  (rounding.exponent + 149).toNat * 0x800000 + rounding.mantissa

section Fields

variable {value : Float32} {negative : Bool} {rounding : Rounding}

theorem toFloat32_eq {bits : ℕ}
    (whole : value.toBits.toNat = bits + if negative then 0x80000000 else 0) :
    toFloat32 negative bits = value := by
  rw [toFloat32, ← whole, UInt32.ofNat_toNat, Float32.ofBits_toBits]

theorem toFloat32_of_zero (read : read value = .zero negative) :
    toFloat32 negative 0 = value := by
  refine toFloat32_eq ?_
  have bound : value.toBits.toNat < 0x100000000 := value.toBits.toNat_lt
  unfold Binary.read readMagnitude at read
  dsimp only at read
  split_ifs at read
  cases read
  simp only [decide_eq_true_eq]
  split_ifs <;> omega

theorem isSingle_of_read (read : read value = .finite negative rounding) :
    rounding.IsSingle ∧ toFloat32 negative (fieldBits rounding) = value := by
  have bound : value.toBits.toNat < 0x100000000 := value.toBits.toNat_lt
  unfold Binary.read readMagnitude at read
  dsimp only at read
  split_ifs at read with largest _ smallest _
  · cases read
    refine ⟨⟨by dsimp only; omega, by dsimp only; omega, le_refl _,
      by dsimp only; omega, .inr rfl, by simp⟩, toFloat32_eq ?_⟩
    simp only [fieldBits, decide_eq_true_eq]
    split_ifs <;> omega
  · cases read
    refine ⟨⟨by dsimp only; omega, by dsimp only; omega, by dsimp only; omega,
      by dsimp only; omega, .inl (by dsimp only; omega), ?_⟩, toFloat32_eq ?_⟩
    · simp only [decide_eq_true_eq]
      omega
    · simp only [fieldBits, decide_eq_true_eq]
      split_ifs <;> omega

end Fields

section Rounds

variable {num den : ℕ} {rounding : Rounding}

theorem lower_bounds (single : rounding.IsSingle) :
    (4 * rounding.mantissa - 2 : ℤ) ≤ rounding.lower ∧ 0 < rounding.lower := by
  have positive := single.positive
  unfold Rounding.lower
  split <;> omega

theorem singleBits_of_nearest {mantissa : ℕ} {exponent : ℤ} (single : rounding.IsSingle)
    (nearest : Binary.single.nearest num den = ⟨mantissa, exponent⟩)
    (same : (exponent + 149).toNat * 0x800000 + mantissa = fieldBits rounding) :
    singleBits num den = fieldBits rounding := by
  have fits := single.fits
  have most := single.most
  have small : fieldBits rounding ≤ 0x7f800000 := by
    unfold fieldBits
    omega
  rw [singleBits, nearest]
  dsimp only
  rw [same, Nat.min_eq_right small]

/-- Where the number has the exponent of the float, it is rounded to the mantissa. -/
theorem nearest_eq_of_place (single : rounding.IsSingle) (positive : 0 < num)
    (positive' : 0 < den) (takes : rounding.Takes (num / den))
    (placed : Binary.single.place num den = rounding.exponent) :
    Binary.single.nearest num den = ⟨rounding.mantissa, rounding.exponent⟩ := by
  obtain ⟨above, below, inside⟩ := takes
  have quarterPos := rounding.quarter_pos
  have lower : (4 * rounding.mantissa - 2 : ℚ) ≤ rounding.lower := by
    exact_mod_cast (lower_bounds single).1
  have upper : (rounding.upper : ℚ) = 4 * rounding.mantissa + 2 := by
    rw [Rounding.upper]
    push_cast
    ring
  have scaled := Precision.scaled_div Binary.single num positive'
  rw [placed, rounding.two_zpow_eq 2 (by omega)] at scaled
  rw [Precision.nearest_eq positive, placed]
  refine congrArg (Magnitude.mk · _) (roundQuotient_eq_of_near
    (Precision.scaled_pos _ num positive') ?_ ?_ (inside.imp_right fun strict => ⟨?_, ?_⟩))
  all_goals rw [scaled]
  · rw [le_div_iff₀ (by positivity)]
    nlinarith
  · rw [div_le_iff₀ (by positivity)]
    nlinarith
  · rw [lt_div_iff₀ (by positivity)]
    nlinarith
  · rw [div_lt_iff₀ (by positivity)]
    nlinarith

/-- Just below a power of two the exponent is one less, and the mantissa is rounded up to the
power. -/
theorem nearest_eq_of_below (single : rounding.IsSingle) (positive : 0 < num)
    (positive' : 0 < den) (takes : rounding.Takes (num / den))
    (power : rounding.mantissa = 2 ^ 23) (normal : -149 < rounding.exponent)
    (less : (num : ℚ) / den < 2 ^ 25 * rounding.quarter)
    (placed : Binary.single.place num den = rounding.exponent - 1) :
    Binary.single.nearest num den = ⟨2 ^ 24, rounding.exponent - 1⟩ := by
  have quarterPos := rounding.quarter_pos
  have above := takes.above
  have lower : rounding.lower = 2 ^ 25 - 1 := by
    rw [Rounding.lower, single.narrow.mpr ⟨power, normal⟩, power]
    norm_num
  have scaled := Precision.scaled_div Binary.single num positive'
  rw [placed, rounding.two_zpow_eq 1 (by omega)] at scaled
  rw [Precision.nearest_eq positive, placed]
  rw [lower] at above
  refine congrArg (Magnitude.mk · _) (roundQuotient_eq_of_near
    (Precision.scaled_pos _ num positive') ?_ ?_ (.inl rfl))
  all_goals rw [scaled]
  · rw [le_div_iff₀ (by positivity)]
    push_cast at above ⊢
    linarith
  · rw [div_le_iff₀ (by positivity)]
    push_cast
    linarith

/-- Every number of the interval rounds to the float. -/
theorem singleBits_eq (single : rounding.IsSingle) (positive : 0 < num) (positive' : 0 < den)
    (takes : rounding.Takes (num / den)) : singleBits num den = fieldBits rounding := by
  obtain ⟨leading, next⟩ := leadingPlace_bounds positive positive'
  have quarterPos := rounding.quarter_pos
  have fits := single.fits
  have least := single.least
  have upper : (num : ℚ) / den < 2 ^ (rounding.exponent + 24) := by
    have short : rounding.upper < 2 ^ 26 := by
      unfold Rounding.upper
      omega
    calc (num : ℚ) / den ≤ rounding.upper * rounding.quarter := takes.below
      _ < 2 ^ 26 * rounding.quarter := by
          gcongr
          exact_mod_cast short
      _ = 2 ^ (rounding.exponent + 24) := (rounding.two_zpow_eq 26 (by omega)).symm
  have high := (zpow_lt_zpow_iff_right₀ (one_lt_two (α := ℚ))).mp (lt_of_le_of_lt leading upper)
  have place : Binary.single.place num den = max (-149) (leadingPlace num den - 23) := rfl
  by_cases lower : rounding.exponent = -149 ∨ (2 : ℚ) ^ (rounding.exponent + 23) ≤ num / den
  · refine singleBits_of_nearest single
      (nearest_eq_of_place single positive positive' takes ?_) rfl
    rw [place]
    rcases lower with finest | reached
    · omega
    · have low := (zpow_lt_zpow_iff_right₀ (one_lt_two (α := ℚ))).mp (lt_of_le_of_lt reached next)
      omega
  · obtain ⟨coarse, short⟩ := not_or.mp lower
    have normal : -149 < rounding.exponent := lt_of_le_of_ne least (Ne.symm coarse)
    have full := single.full.resolve_right coarse
    have less : (num : ℚ) / den < 2 ^ 25 * rounding.quarter := by
      rw [← rounding.two_zpow_eq 25 (show rounding.exponent + 23 = _ by omega)]
      exact lt_of_not_ge short
    have lowerLt : rounding.lower < 2 ^ 25 := by
      have cast := lt_of_mul_lt_mul_right (lt_of_le_of_lt takes.above less) quarterPos.le
      exact_mod_cast cast
    have bounds := lower_bounds single
    have power : rounding.mantissa = 2 ^ 23 := by omega
    have reached : (2 : ℚ) ^ (rounding.exponent + 22) ≤ num / den := by
      have large : 2 ^ 24 ≤ rounding.lower := by omega
      calc (2 : ℚ) ^ (rounding.exponent + 22) = 2 ^ 24 * rounding.quarter :=
            rounding.two_zpow_eq 24 (by omega)
        _ ≤ rounding.lower * rounding.quarter := by
            gcongr
            exact_mod_cast large
        _ ≤ num / den := takes.above
    have low := (zpow_lt_zpow_iff_right₀ (one_lt_two (α := ℚ))).mp (lt_of_le_of_lt reached next)
    have high' := (zpow_lt_zpow_iff_right₀ (one_lt_two (α := ℚ))).mp
      (lt_of_le_of_lt leading (lt_of_not_ge short))
    refine singleBits_of_nearest single
      (nearest_eq_of_below single positive positive' takes power normal less ?_) ?_
    · rw [place]
      omega
    · rw [fieldBits, power]
      omega

end Rounds

end Binary

end HdrGain
