import HdrGain.Proofs.Scalar.Extended

namespace HdrGain

open Rounding Float.Model Float.Model.UnpackedFloat

/-! # Logarithms at their ends

What is assumed of logarithms and powers of two of 32-bit floats, as little as a statement needs,
with a library for each that meets it. -/

/-- What is promised of logarithms at and below zero, and where there is no number. -/
structure LogarithmEnds [Elementary Float32] : Prop where
  log2_isNaN (value : Float32) : value.isNaN = true → (Elementary.log2 value).isNaN = true
  log2_negative (value : Float32) : value < 0.0 → (Elementary.log2 value).isNaN = true
  log2_zero (value : Float32) : 0.0 ≤ value → value ≤ 0.0 → Elementary.log2 value = -Float32.inf

structure RatioLogarithm [Elementary Float32] : Prop extends LogarithmEnds where
  log2_one : Elementary.log2 (1.0 : Float32) = 0.0
  log2_above (ratio : Float32) : 1.0 < ratio → ratio.isFinite = true →
    0.0 < Elementary.log2 ratio ∧ (Elementary.log2 ratio).isFinite = true

/-- What is above one has its leading place at zero or higher. -/
theorem leading_nonneg {mantissa : Nat} {exponent : ℤ} (above : (1 : ℚ) < mantissa * 2 ^ exponent) :
    0 ≤ mantissa.log2 + exponent := by
  by_contra near
  have short : mantissa < 2 ^ (mantissa.log2 + 1) := Nat.lt_log2_self
  have below : (mantissa : ℚ) * 2 ^ exponent < 2 ^ ((mantissa.log2 + 1 : ℕ) + exponent : ℤ) := by
    rw [zpow_add₀ two_ne_zero, zpow_natCast]
    exact mul_lt_mul_of_pos_right (by exact_mod_cast short) (by positivity)
  have small : (2 : ℚ) ^ ((mantissa.log2 + 1 : ℕ) + exponent : ℤ) ≤ 2 ^ (0 : ℤ) :=
    zpow_le_zpow_right₀ one_le_two (by omega)
  rw [zpow_zero] at small
  linarith

namespace WholePlaces

variable {light : Float32}

end WholePlaces

/-! A library that keeps the same promises and still takes four for a power of two that is far too
high. -/

namespace FarFour

def log2 (light : Float32) : Float32 :=
  if light = 4.0 then Float32.ofBits 0x7f000000 else WholePlaces.log2 light

@[reducible] def elementary : Elementary Float32 :=
  { WholePlaces.elementary with log2 }

end FarFour

/-! A library of chords: between two powers of two a logarithm runs straight from one place to the
next. It is above zero as soon as its argument is above one. -/

namespace Chords

variable {light : Float32} {mantissa : Nat} {exponent : ℤ}

/-- The logarithm of `mantissa * 2 ^ exponent` in steps of the mantissa's leading place. -/
def steps (mantissa : Nat) (exponent : ℤ) : ℤ :=
  (mantissa.log2 + exponent - 1) * 2 ^ mantissa.log2 + mantissa

def log2 (light : Float32) : Float32 :=
  match light.toModel.unpack with
  | .zero _ => -Float32.inf
  | .infinity .positive => Float32.inf
  | .finite .positive mantissa exponent _ =>
      .ofModel (.pack (.normalize Format.binary32 (steps mantissa exponent) (-mantissa.log2)
        .positive))
  | _ => Float32.nan

@[reducible] def elementary : Elementary Float32 :=
  { WholePlaces.elementary with log2 }

theorem steps_pos (nonzero : 0 < mantissa) (above : (1 : ℚ) < mantissa * 2 ^ exponent) :
    0 < steps mantissa exponent := by
  have far := leading_nonneg above
  obtain ⟨place, leading⟩ : ∃ place, mantissa.log2 = place := ⟨_, rfl⟩
  rw [steps, leading]
  rw [leading] at far
  rcases far.eq_or_lt with level | higher
  · -- up to two only what follows the leading place counts
    have most : (2 : ℤ) ^ place < mantissa := by
      rw [show exponent = -place by omega, zpow_neg, zpow_natCast, ← div_eq_mul_inv,
        one_lt_div (by positivity)] at above
      exact_mod_cast above
    rw [← level]
    linarith
  · have least : 0 ≤ ((place : ℤ) + exponent - 1) * 2 ^ place :=
      mul_nonneg (by omega) (by positivity)
    omega

theorem steps_le (small : mantissa < 2 ^ 24) (most : exponent ≤ 104) :
    (steps mantissa exponent : ℚ) * 2 ^ (-mantissa.log2 : ℤ) ≤ 2 ^ 127 := by
  obtain ⟨place, leading⟩ : ∃ place, mantissa.log2 = place := ⟨_, rfl⟩
  have short : mantissa < 2 ^ (place + 1) := leading ▸ Nat.lt_log2_self
  have few : place < 24 := leading ▸ log2_lt_of_lt (by decide) small
  have counted : steps mantissa exponent ≤ 128 * 2 ^ place := by
    have scaled : ((place : ℤ) + exponent - 1) * 2 ^ place ≤ 126 * 2 ^ place :=
      mul_le_mul_of_nonneg_right (by omega) (by positivity)
    have short' : (mantissa : ℤ) < 2 * 2 ^ place := by
      rw [pow_succ'] at short
      exact_mod_cast short
    rw [steps, leading]
    linarith
  rw [leading, zpow_neg, zpow_natCast, ← div_eq_mul_inv, div_le_iff₀ (by positivity)]
  calc (steps mantissa exponent : ℚ) ≤ 128 * 2 ^ place := by exact_mod_cast counted
    _ ≤ 2 ^ 127 * 2 ^ place := mul_le_mul_of_nonneg_right (by norm_num) (by positivity)

theorem log2_above {ratio : ℚ} (stands : numberOf? light = some ratio) (above : 1 < ratio) :
    ∃ number, numberOf? (log2 light) = some number ∧ 0 < number := by
  obtain ⟨mantissa, exponent, nonzero, unpacked, rfl⟩ :=
    exists_unpack_of_pos stands (zero_lt_one.trans above)
  have canonical := canonical_unpack light.toModel
  rw [unpacked] at canonical
  obtain ⟨short, _, _⟩ := canonical
  have few := log2_lt_of_lt (by decide) short
  have counted : (1 : ℚ) ≤ steps mantissa exponent := by exact_mod_cast steps_pos nonzero above
  have unit : (0 : ℚ) < 2 ^ (-mantissa.log2 : ℤ) := by positivity
  have least : 2 ^ (-mantissa.log2 : ℤ) ≤
      (steps mantissa exponent : ℚ) * 2 ^ (-mantissa.log2 : ℤ) :=
    le_mul_of_one_le_left unit.le counted
  have magnitude := abs_of_pos (unit.trans_le least)
  obtain ⟨number, found, rounds⟩ :=
    (rounded_normalize (steps mantissa exponent) (-mantissa.log2) .positive).numberOf?_pack
      (magnitude.trans_le (steps_le short (exponent_le_of_unpack unpacked)))
  have away := rounds.two_zpow_le_abs (-mantissa.log2) (by omega) (least.trans_eq magnitude.symm)
  rw [abs_of_nonneg (rounds.nonneg (unit.trans_le least).le)] at away
  refine ⟨number, ?_, unit.trans_le away⟩
  rw [log2, unpacked]
  exact found

theorem logarithmEnds : @LogarithmEnds elementary := by
  let _ := elementary
  have none : Float32.nan.isNaN = true := by decide
  refine ⟨fun light notANumber => ?_, fun light below => ?_, fun light above below => ?_⟩
  · change (log2 light).isNaN = true
    rw [log2, unpack_of_isNaN notANumber]
    exact none
  · change (log2 light).isNaN = true
    rcases unpack_of_neg below with unpacked | ⟨_, _, _, unpacked⟩ <;> rw [log2, unpacked] <;>
      exact none
  · change log2 light = _
    rcases zero_or_pos above with ⟨_, sign, zero⟩ | bright
    · rw [log2, zero]
    · exact absurd below (not_le_of_pos bright)

theorem ratioLogarithm : @RatioLogarithm elementary := by
  let _ := elementary
  refine ⟨logarithmEnds, (by decide : log2 1.0 = 0.0), fun ratio above finite => ?_⟩
  obtain ⟨number, stands⟩ := isFinite_iff.mp finite
  obtain ⟨logarithm, found, positive⟩ :=
    log2_above stands ((lt_iff numberOf?_unit stands).mp above)
  exact ⟨(lt_iff numberOf?_zero found).mpr positive, isFinite_iff.mpr ⟨logarithm, found⟩⟩

end Chords

end HdrGain
