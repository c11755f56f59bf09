import HdrGain.Proofs.Color.Light
import HdrGain.Proofs.Gain.Quantisation

namespace HdrGain.Gain

open Unrounded

variable {color : Color Unrounded} {hdrRatio : ℝ}

theorem map_applyLog (shining : color.IsShining) (positive : 0 < hdrRatio) (gain : ℝ) :
    color.map (applyLog · (real gain) (real (Real.logb 2 hdrRatio))) =
      color * real (hdrRatio ^ gain) := by
  obtain ⟨r, g, b⟩ := shining
  change _ = color.map (· * real (hdrRatio ^ gain))
  simp only [Color.map, applyLog_eq r positive, applyLog_eq g positive, applyLog_eq b positive]

theorem applyColor_eq_mul (shining : color.IsShining) (positive : 0 < hdrRatio) (gain : ℝ) :
    applyColor color (real gain) (real hdrRatio) = color * real (hdrRatio ^ gain) := by
  rw [applyColor, log2_real positive]
  exact map_applyLog shining positive gain

theorem applyColor_zero (shining : color.IsShining) (positive : 0 < hdrRatio) :
    applyColor color 0.0 (real hdrRatio) = color := by
  rw [zero_eq, applyColor_eq_mul shining positive, Real.rpow_zero, Color.mul_real_one]

/-- Gains that are applied one after the other add up. -/
theorem applyColor_applyColor (shining : color.IsShining) (positive : 0 < hdrRatio)
    (first second : ℝ) :
    applyColor (applyColor color (real first) (real hdrRatio)) (real second) (real hdrRatio) =
      applyColor color (real first + real second) (real hdrRatio) := by
  have factor (gain : ℝ) : 0 < hdrRatio ^ gain := Real.rpow_pos_of_pos positive gain
  rw [real_add, applyColor_eq_mul shining positive, applyColor_eq_mul shining positive,
    applyColor_eq_mul (shining.mul_real (factor first)) positive,
    Color.mul_real_mul_real shining (factor first) (factor second), Real.rpow_add positive]

/-- A gain that is applied to a color is the gain of its luminance. -/
theorem luminance?_applyColor (shining : color.IsShining) (positive : 0 < hdrRatio)
    (gamut : Gamut) (gain : ℝ) :
    gamut.luminance? (applyColor color (real gain) (real hdrRatio)) =
      (gamut.luminance? color).map (· * real (hdrRatio ^ gain)) := by
  rw [applyColor_eq_mul shining positive, Gamut.luminance?, Gamut.luminance?]
  cases weighs : (gamut.luminanceWeights? : Option (Color Unrounded)) with
  | none => rfl
  | some weights =>
      obtain ⟨exact, rfl, shares⟩ := Gamut.luminanceWeights?_positive weighs
      exact congrArg some (Color.dot_mul shares shining (Real.rpow_pos_of_pos positive gain))

/-- Applying a gain to a color without negative channels multiplies all of it by one power of the
ratio: no gain leaves the color as it is, gains one after the other add up, and in every gamut that
has a luminance the luminance is multiplied by that power. -/
theorem gains_multiply_whole_color (above : 1 < hdrRatio) (shining : color.IsShining) :
    (∀ gain : ℝ,
      applyColor color (real gain) (real hdrRatio) = color * real (hdrRatio ^ gain)) ∧
    applyColor color 0.0 (real hdrRatio) = color ∧
    (∀ first second : ℝ,
      applyColor (applyColor color (real first) (real hdrRatio)) (real second) (real hdrRatio) =
        applyColor color (real first + real second) (real hdrRatio)) ∧
    ∀ gamut ∈ Gamut.specified, ∃ light, gamut.luminance? color = some light ∧
      ∀ gain : ℝ, gamut.luminance? (applyColor color (real gain) (real hdrRatio)) =
        some (light * real (hdrRatio ^ gain)) := by
  have positive : 0 < hdrRatio := one_pos.trans above
  refine ⟨applyColor_eq_mul shining positive, applyColor_zero shining positive,
    applyColor_applyColor shining positive, fun gamut known => ?_⟩
  obtain ⟨weights, weighs⟩ := Option.isSome_iff_exists.mp
    ((Gamut.isSome_luminanceWeights? (α := Unrounded) gamut).trans (decide_eq_true known))
  have measured : gamut.luminance? color = some (weights.dot color) := by
    rw [Gamut.luminance?, weighs]
    rfl
  refine ⟨weights.dot color, measured, fun gain => ?_⟩
  rw [luminance?_applyColor shining positive, measured]
  rfl

/-- Where four times the light is the most, half of the largest gain doubles every channel. -/
theorem half_gain_doubles_color :
    1 < (4 : ℝ) ∧ (⟨real 0, real (1 / 2), real (1 / 4)⟩ : Color Unrounded).IsShining ∧
      applyColor ⟨real 0, real (1 / 2), real (1 / 4)⟩ (real (1 / 2)) (real 4) =
        ⟨real 0, real 1, real (1 / 2)⟩ ∧
      applyColor ⟨real 0, real (1 / 2), real (1 / 4)⟩ 0.0 (real 4) =
        ⟨real 0, real (1 / 2), real (1 / 4)⟩ ∧
      ∃ light, Gamut.bt2100.luminance? ⟨real 0, real (1 / 2), real (1 / 4)⟩ = some light ∧
        Gamut.bt2100.luminance? ⟨real 0, real 1, real (1 / 2)⟩ = some (light * real 2) := by
  have above : (1 : ℝ) < 4 := by norm_num
  have lit {number : ℝ} (nonneg : 0 ≤ number) : (0.0 : Unrounded) ≤ real number := by
    rw [zero_eq]
    exact nonneg
  have shining : (⟨real 0, real (1 / 2), real (1 / 4)⟩ : Color Unrounded).IsShining :=
    ⟨lit le_rfl, lit (by norm_num), lit (by norm_num)⟩
  have root : (4 : ℝ) ^ (1 / 2 : ℝ) = 2 := by
    rw [← Real.sqrt_eq_rpow, show (4 : ℝ) = 2 * 2 by norm_num, Real.sqrt_mul_self zero_le_two]
  obtain ⟨multiplies, none, _, measures⟩ := gains_multiply_whole_color above shining
  have doubled : applyColor ⟨real 0, real (1 / 2), real (1 / 4)⟩ (real (1 / 2)) (real 4) =
      ⟨real 0, real 1, real (1 / 2)⟩ := by
    rw [multiplies, root]
    change (⟨real (0 * 2), real (1 / 2 * 2), real (1 / 4 * 2)⟩ : Color Unrounded) = _
    norm_num
  obtain ⟨light, measured, multiplied⟩ := measures .bt2100 (by decide)
  have brighter := multiplied (1 / 2)
  rw [doubled, root] at brighter
  exact ⟨above, shining, doubled, none, light, measured, brighter⟩

end HdrGain.Gain
