import HdrGain.Proofs.Transfer.Order
import HdrGain.Proofs.Transfer.Perceptual

namespace HdrGain.Transfer

open Unrounded

namespace Srgb

/-- What encoding does past the line. -/
noncomputable def powered (light : ℝ) : ℝ :=
  1.055 * light ^ (1 / 2.4 : ℝ) - 0.055

/-- The signal of a light, on the line near black and beyond. -/
noncomputable def signalOf (light : ℝ) : ℝ :=
  if light ≤ 0.0031308 then light * 12.92 else powered light

theorem encode_eq (light : ℝ) : encode (real light) = real (signalOf light) := by
  have exponent : (1.0 / 2.4 : ℝ) = 1 / 2.4 := by norm_num
  simp only [encode, signalOf, powered, ofScientific_eq, real_le, real_mul]
  split
  · rfl
  · rename_i bright
    have positive : 0 < light := by linarith
    rw [real_div (by norm_num), exponent, pow_real positive (by norm_num), real_mul, real_sub]

section Pieces

variable {light first second signal : ℝ}

theorem signalOf_of_le (below : light ≤ 0.0031308) : signalOf light = light * 12.92 :=
  if_pos below

theorem signalOf_of_lt (above : 0.0031308 < light) : signalOf light = powered light :=
  if_neg above.not_ge

theorem powered_le_powered (nonneg : 0 ≤ first) (ordered : first ≤ second) :
    powered first ≤ powered second := by
  have roots := Real.rpow_le_rpow nonneg ordered (by norm_num : (0 : ℝ) ≤ 1 / 2.4)
  unfold powered
  linarith

/-- With the exponent five twelfths, the order of signals is one of whole powers. -/
theorem powered_le_iff (nonneg : 0 ≤ light) (lit : 0 ≤ signal) :
    powered light ≤ signal ↔ light ^ 5 ≤ ((signal + 0.055) / 1.055) ^ 12 := by
  have root : (light ^ (1 / 2.4 : ℝ)) ^ 12 = light ^ 5 := by
    rw [← Real.rpow_natCast, ← Real.rpow_mul nonneg, ← Real.rpow_natCast]
    norm_num
  have base : 0 ≤ (signal + 0.055) / 1.055 := by positivity
  rw [← root, pow_le_pow_iff_left₀ (by positivity) base (by norm_num), le_div_iff₀ (by norm_num),
    powered, sub_le_iff_le_add, mul_comm]

theorem powered_lt_iff (nonneg : 0 ≤ light) (lit : 0 ≤ signal) :
    signal < powered light ↔ ((signal + 0.055) / 1.055) ^ 12 < light ^ 5 := by
  rw [← not_le, ← not_le, powered_le_iff nonneg lit]

end Pieces

/-- Where the power piece starts. The line ends at 0.040449936. -/
theorem lt_powered_knee : 0.0404499074 < powered 0.0031308 := by
  rw [powered_lt_iff (by norm_num) (by norm_num)]
  norm_num

/-- The power piece is back at the end of the line. -/
theorem lt_powered_past_knee : 0.0031308 * 12.92 < powered (0.0031308 + 2.25e-9) := by
  rw [powered_lt_iff (by norm_num) (by norm_num)]
  norm_num

section Order

variable {first second : ℝ} (ordered : first ≤ second)

include ordered

/-- Signals keep the order of their lights but from the line to where the power piece is lower. -/
theorem signalOf_le_signalOf_iff :
    signalOf first ≤ signalOf second ↔
      ¬ (first ≤ 0.0031308 ∧ 0.0031308 < second ∧ powered second < first * 12.92) := by
  rcases le_or_gt second 0.0031308 with below | above
  · rw [signalOf_of_le (ordered.trans below), signalOf_of_le below]
    constructor
    · rintro - ⟨-, above, -⟩
      exact above.not_ge below
    · intro _
      linarith
  · rw [signalOf_of_lt above]
    rcases le_or_gt first 0.0031308 with knee | beyond
    · rw [signalOf_of_le knee]
      simp only [knee, above, true_and, not_lt]
    · rw [signalOf_of_lt beyond]
      have nonneg : 0 ≤ first := by linarith
      simp only [beyond.not_ge, false_and, not_false_eq_true, iff_true]
      exact powered_le_powered nonneg ordered

theorem signalOf_le_signalOf
    (apart : ¬ (0.0031308 - 2.25e-9 < first ∧ first ≤ 0.0031308 ∧ 0.0031308 < second ∧
      second < 0.0031308 + 2.25e-9)) : signalOf first ≤ signalOf second := by
  rw [signalOf_le_signalOf_iff ordered]
  rintro ⟨knee, above, falls⟩
  have start := powered_le_powered (by norm_num) above.le
  have piece := lt_powered_knee
  refine apart ⟨by linarith, knee, above, ?_⟩
  by_contra far
  have stop := powered_le_powered (by norm_num) (not_lt.mp far)
  have line := lt_powered_past_knee
  linarith

/-- The depth of the drop. -/
theorem signalOf_lt_add : signalOf first < signalOf second + 3e-8 := by
  by_cases kept : signalOf first ≤ signalOf second
  · linarith
  · rw [signalOf_le_signalOf_iff ordered, not_not] at kept
    obtain ⟨knee, above, -⟩ := kept
    have start := powered_le_powered (by norm_num) above.le
    have piece := lt_powered_knee
    rw [signalOf_of_le knee, signalOf_of_lt above]
    linarith

end Order

end Srgb

namespace Hlg

/-- The signal of a light, up to the knee at a twelfth and beyond. -/
noncomputable def signalOf (light : ℝ) : ℝ :=
  if light ≤ 1.0 / 12.0 then √(3.0 * light)
  else 0.17883277 * Real.log (12.0 * light - 0.28466892) + 0.55991073

section Pieces

variable {light first second : ℝ}

theorem encode_eq (nonneg : 0 ≤ light) : encode (real light) = real (signalOf light) := by
  have twelve : (12.0 : ℝ) ≠ 0 := by norm_num
  simp only [encode, signalOf, a, b, c, ofScientific_eq, real_mul, real_sub, real_div twelve,
    real_le]
  split
  · exact sqrt_real (by positivity)
  · rename_i bright
    have argument : 0 < 12.0 * light - 0.28466892 := by
      norm_num at bright ⊢
      linarith
    rw [ln_real argument, real_mul, real_add]

theorem signalOf_of_le (below : light ≤ 1 / 12) : signalOf light = √(3 * light) := by
  rw [signalOf, if_pos (by norm_num; linarith)]
  norm_num

theorem signalOf_of_lt (above : 1 / 12 < light) :
    signalOf light = 0.17883277 * Real.log (12 * light - 0.28466892) + 0.55991073 := by
  rw [signalOf, if_neg (by norm_num; linarith)]
  norm_num

/-- The square root ends at a half. -/
theorem signalOf_le_half (below : light ≤ 1 / 12) : signalOf light ≤ 1 / 2 := by
  rw [signalOf_of_le below, Real.sqrt_le_left (by norm_num)]
  linarith

/-- The logarithm starts above it. -/
theorem half_lt_signalOf (above : 1 / 12 < light) : 1 / 2 < signalOf light := by
  have argument : Real.exp ((0.5 - 0.55991073) / 0.17883277) < 12 * light - 0.28466892 := by
    linarith [exp_knee_between.2]
  have past : (0.5 - 0.55991073) / 0.17883277 < Real.log (12 * light - 0.28466892) :=
    (Real.lt_log_iff_exp_lt ((Real.exp_pos _).trans argument)).mpr argument
  rw [div_lt_iff₀ (by norm_num)] at past
  rw [signalOf_of_lt above]
  linarith

theorem signalOf_le_signalOf (ordered : first ≤ second) : signalOf first ≤ signalOf second := by
  rcases le_or_gt second (1 / 12) with below | above
  · rw [signalOf_of_le (ordered.trans below), signalOf_of_le below]
    exact Real.sqrt_le_sqrt (by linarith)
  · rcases le_or_gt first (1 / 12) with knee | beyond
    · exact (signalOf_le_half knee).trans (half_lt_signalOf above).le
    · have argument : 0 < 12 * first - 0.28466892 := by linarith
      have logarithms := Real.log_le_log argument
        (by linarith : 12 * first - 0.28466892 ≤ 12 * second - 0.28466892)
      rw [signalOf_of_lt beyond, signalOf_of_lt above]
      linarith

end Pieces

end Hlg

namespace Pq

theorem lifted_le_lifted {first second : ℝ} (nonneg : 0 ≤ first) (ordered : first ≤ second) :
    lifted first ≤ lifted second := by
  rw [lifted, lifted, div_le_div_iff₀ (divisor_pos nonneg) (divisor_pos (nonneg.trans ordered))]
  have rises : 0 ≤ (2413 / 4096 * 32 - 3424 / 4096 * (2392 / 4096 * 32)) * (second - first) :=
    mul_nonneg (by norm_num) (sub_nonneg.mpr ordered)
  linarith

theorem signalOf_le_signalOf {first second : ℝ} (ordered : first ≤ second) :
    signalOf first ≤ signalOf second := by
  have shares : max first 0 / 10000 ≤ max second 0 / 10000 :=
    div_le_div_of_nonneg_right (max_le_max_right 0 ordered) (by norm_num)
  have powers := Real.rpow_le_rpow (by positivity) shares (by norm_num : (0 : ℝ) ≤ 2610 / 16384)
  have nonneg := power_nonneg first
  exact Real.rpow_le_rpow (lifted_pos nonneg).le (lifted_le_lifted nonneg powers) (by norm_num)

end Pq

/-- More light is encoded as the same signal or a larger one, under hybrid log-gamma from black on
and under the perceptual quantizer everywhere. Under the sRGB curve this fails exactly from a light
on the line to a later one on the power piece that is still below it. Both are then closer to the
knee than `2.25e-9`, and the signal falls by less than `3e-8`. -/
theorem curves_fall_only_at_srgb_knee :
    (∀ first second : ℝ, first ≤ second →
      (Srgb.encode (real first) ≤ Srgb.encode (real second) ↔
        ¬ (first ≤ 0.0031308 ∧ 0.0031308 < second ∧
          1.055 * second ^ (1 / 2.4 : ℝ) - 0.055 < first * 12.92)) ∧
      (¬ (0.0031308 - 2.25e-9 < first ∧ first ≤ 0.0031308 ∧ 0.0031308 < second ∧
          second < 0.0031308 + 2.25e-9) →
        Srgb.encode (real first) ≤ Srgb.encode (real second)) ∧
      Srgb.encode (real first) < Srgb.encode (real second) + real 3e-8) ∧
    (∀ first second : ℝ, 0 ≤ first → first ≤ second →
      Hlg.encode (real first) ≤ Hlg.encode (real second)) ∧
    ∀ first second : ℝ, first ≤ second →
      Pq.encode (real first) ≤ Pq.encode (real second) := by
  refine ⟨fun first second ordered => ?_, fun first second nonneg ordered => ?_,
    fun first second ordered => ?_⟩
  · rw [Srgb.encode_eq, Srgb.encode_eq, real_add, real_le, real_lt]
    exact ⟨Srgb.signalOf_le_signalOf_iff ordered, Srgb.signalOf_le_signalOf ordered,
      Srgb.signalOf_lt_add ordered⟩
  · rw [Hlg.encode_eq nonneg, Hlg.encode_eq (nonneg.trans ordered), real_le]
    exact Hlg.signalOf_le_signalOf ordered
  · rw [Pq.encode_eq Unrounded.carries, Pq.encode_eq Unrounded.carries, real_le]
    exact Pq.signalOf_le_signalOf ordered

/-- Across each knee, and from below black to above the peak. -/
theorem half_encoded_above_black :
    ((0.003 : ℝ) ≤ 0.5 ∧ Srgb.encode (real 0.003) ≤ Srgb.encode (real 0.5)) ∧
    ((0 : ℝ) ≤ 1 / 12 ∧ (1 / 12 : ℝ) ≤ 1 / 2 ∧
      Hlg.encode (real (1 / 12)) ≤ Hlg.encode (real (1 / 2))) ∧
    ((-1 : ℝ) ≤ 20000 ∧ Pq.encode (real (-1)) ≤ Pq.encode (real 20000)) := by
  have across : (0.003 : ℝ) ≤ 0.5 := by norm_num
  have past : (1 / 12 : ℝ) ≤ 1 / 2 := by norm_num
  have above : (-1 : ℝ) ≤ 20000 := by norm_num
  obtain ⟨srgb, hlg, pq⟩ := curves_fall_only_at_srgb_knee
  exact ⟨⟨across, (srgb _ _ across).2.1 (by norm_num)⟩,
    ⟨by norm_num, past, hlg _ _ (by norm_num) past⟩, above, pq _ _ above⟩

/-- A light just past the knee has a smaller signal than the light at it. -/
theorem srgb_falls_past_knee :
    (0 : ℝ) ≤ 0.0031308 ∧ (0.0031308 : ℝ) ≤ 0.003130801 ∧ (0.003130801 : ℝ) ≤ 1 ∧
      Srgb.encode (real 0.003130801) < Srgb.encode (real 0.0031308) ∧
      ¬ Srgb.encode (real 0.0031308) ≤ Srgb.encode (real 0.003130801) := by
  have piece : Srgb.powered 0.003130801 ≤ 0.04044993 := by
    rw [Srgb.powered_le_iff (by norm_num) (by norm_num)]
    norm_num
  have falls : Srgb.signalOf 0.003130801 < Srgb.signalOf 0.0031308 := by
    rw [Srgb.signalOf_of_lt (by norm_num), Srgb.signalOf_of_le le_rfl]
    exact piece.trans_lt (by norm_num)
  rw [Srgb.encode_eq, Srgb.encode_eq, real_lt, real_le]
  exact ⟨by norm_num, by norm_num, by norm_num, falls, falls.not_ge⟩

end HdrGain.Transfer
