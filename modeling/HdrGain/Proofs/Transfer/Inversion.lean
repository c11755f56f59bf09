import HdrGain.Proofs.Transfer.Encoding

namespace HdrGain.Transfer

/-! # Decoding what was encoded

Each piece of a curve is undone exactly by the same piece of the other direction. Only next to a
knee does a value leave by one piece and come back by the other, since the pieces do not quite meet
there. What comes back is then off by about as much as they miss each other by. -/

open Unrounded

namespace Srgb

section Pieces

variable {light signal : ℝ}

theorem light_of_le (below : signal ≤ 0.04045) : Srgb.light signal = signal / 12.92 :=
  if_pos below

theorem light_of_lt (above : 0.04045 < signal) : Srgb.light signal = unpowered signal :=
  if_neg above.not_ge

theorem unpowered_powered (nonneg : 0 ≤ light) : unpowered (powered light) = light := by
  have root : (powered light + 0.055) / 1.055 = light ^ (1 / 2.4 : ℝ) := by
    unfold powered
    ring
  rw [unpowered, root, one_div, Real.rpow_inv_rpow nonneg (by norm_num)]

theorem powered_unpowered (lit : 0 ≤ signal) : powered (unpowered signal) = signal := by
  have base : 0 ≤ (signal + 0.055) / 1.055 := by positivity
  rw [powered, unpowered, one_div, Real.rpow_rpow_inv base (by norm_num)]
  ring

theorem unpowered_nonneg (lit : 0 ≤ signal) : 0 ≤ unpowered signal := by
  unfold unpowered
  positivity

end Pieces

/-- At the end of its line, decoding jumps up. -/
theorem powered_line_end_le : powered (0.04045 / 12.92) ≤ 0.04045 := by
  rw [powered_le_iff (by norm_num) (by norm_num)]
  norm_num

/-- How far it jumps. -/
theorem line_end_lt_powered : 0.04045 < powered 0.0031308073 := by
  rw [powered_lt_iff (by norm_num) (by norm_num)]
  norm_num

/-- Lights come back exactly but from the first signals of the power piece, which decoding takes to
be on the line. -/
theorem light_signalOf {light : ℝ} (apart : ¬ (0.0031308 < light ∧ light < 0.0031308073)) :
    Srgb.light (signalOf light) = light := by
  rcases le_or_gt light 0.0031308 with below | above
  · rw [signalOf_of_le below, light_of_le (by linarith), mul_div_cancel_right₀ _ (by norm_num)]
  · have past : 0.0031308073 ≤ light := not_lt.mp (not_and.mp apart above)
    have bright := line_end_lt_powered.trans_le (powered_le_powered (by norm_num) past)
    rw [signalOf_of_lt above, light_of_lt bright, unpowered_powered (by linarith)]

theorem abs_light_signalOf_sub_le (light : ℝ) :
    |Srgb.light (signalOf light) - light| ≤ 1 / 10 ^ 8 := by
  by_cases apart : 0.0031308 < light ∧ light < 0.0031308073
  · obtain ⟨above, near⟩ := apart
    have start := lt_powered_knee.trans_le (powered_le_powered (by norm_num) above.le)
    rw [signalOf_of_lt above]
    rcases le_or_gt (powered light) 0.04045 with line | bright
    · have least : 0.0031307977 ≤ powered light / 12.92 :=
        (le_div_iff₀ (by norm_num)).mpr (by linarith)
      have most : powered light / 12.92 ≤ 0.003130805 :=
        (div_le_iff₀ (by norm_num)).mpr (by linarith)
      rw [light_of_le line, abs_le]
      constructor <;> linarith
    · rw [light_of_lt bright, unpowered_powered (by linarith)]
      norm_num
  · rw [light_signalOf apart]
    norm_num

/-- Signals come back exactly but from the end of the line, which has lights past the knee. -/
theorem signalOf_light {signal : ℝ}
    (apart : ¬ (0.0031308 * 12.92 < signal ∧ signal ≤ 0.04045)) :
    signalOf (Srgb.light signal) = signal := by
  rcases le_or_gt signal 0.04045 with below | above
  · have line : signal ≤ 0.0031308 * 12.92 := not_lt.mp fun past => apart ⟨past, below⟩
    rw [light_of_le below, signalOf_of_le ((div_le_iff₀ (by norm_num)).mpr line),
      div_mul_cancel₀ _ (by norm_num)]
  · have lit : 0 ≤ signal := by linarith
    have past : 0.0031308 < unpowered signal := by
      by_contra dark
      have order := powered_le_powered (unpowered_nonneg lit) (not_lt.mp dark)
      have knee := powered_le_powered (by norm_num)
        (by norm_num : (0.0031308 : ℝ) ≤ 0.04045 / 12.92)
      rw [powered_unpowered lit] at order
      linarith [powered_line_end_le]
    rw [light_of_lt above, signalOf_of_lt past, powered_unpowered lit]

theorem abs_signalOf_light_sub_le (signal : ℝ) :
    |signalOf (Srgb.light signal) - signal| ≤ 1 / 10 ^ 7 := by
  by_cases apart : 0.0031308 * 12.92 < signal ∧ signal ≤ 0.04045
  · obtain ⟨past, below⟩ := apart
    have above : 0.0031308 < signal / 12.92 := (lt_div_iff₀ (by norm_num)).mpr past
    have start := lt_powered_knee.trans_le (powered_le_powered (by norm_num) above.le)
    have stop := powered_le_powered (by linarith)
      (div_le_div_of_nonneg_right below (by norm_num : (0 : ℝ) ≤ 12.92))
    have line := powered_line_end_le
    rw [light_of_le below, signalOf_of_lt above, abs_le]
    constructor <;> linarith
  · rw [signalOf_light apart]
    norm_num

end Srgb

namespace Hlg

/-- Lights come back exactly: encoding jumps up at its knee, to signals that decoding takes to be
past its own. -/
theorem light_signalOf {light : ℝ} (nonneg : 0 ≤ light) : Hlg.light (signalOf light) = light := by
  rcases le_or_gt light (1 / 12) with below | above
  · rw [light_of_le (signalOf_le_half below), signalOf_of_le below,
      Real.mul_self_sqrt (by positivity)]
    ring
  · have argument : 0 < 12 * light - 0.28466892 := by linarith
    have exponent : (signalOf light - 0.55991073) / 0.17883277 =
        Real.log (12 * light - 0.28466892) := by
      rw [signalOf_of_lt above]
      ring
    rw [light_of_lt (half_lt_signalOf above), exponent, Real.exp_log argument]
    ring

/-- Signals come back exactly but from just past the knee, where the light is lower than at it. -/
theorem signalOf_light {signal : ℝ} (nonneg : 0 ≤ signal)
    (apart : ¬ (1 / 2 < signal ∧ Hlg.light signal ≤ 1 / 12)) :
    signalOf (Hlg.light signal) = signal := by
  rcases le_or_gt signal (1 / 2) with below | above
  · have squares : signal * signal ≤ 1 / 2 * (1 / 2) := mul_self_le_mul_self nonneg below
    have square : 3 * (signal * signal / 3) = signal * signal := by ring
    rw [light_of_le below, signalOf_of_le (by linarith), square, Real.sqrt_mul_self nonneg]
  · have bright : 1 / 12 < Hlg.light signal := not_le.mp (not_and.mp apart above)
    have argument : 12 * Hlg.light signal - 0.28466892 =
        Real.exp ((signal - 0.55991073) / 0.17883277) := by
      rw [light_of_lt above]
      ring
    rw [signalOf_of_lt bright, argument, Real.log_exp]
    ring

theorem abs_signalOf_light_sub_le {signal : ℝ} (nonneg : 0 ≤ signal) :
    |signalOf (Hlg.light signal) - signal| ≤ 1 / 10 ^ 8 := by
  by_cases apart : 1 / 2 < signal ∧ Hlg.light signal ≤ 1 / 12
  · obtain ⟨above, dark⟩ := apart
    have rises := le_light_of_lt above
    have shift : 0 ≤ (signal - 1 / 2) / 0.17883277 := div_nonneg (by linarith) (by norm_num)
    have root : 1 / 2 - 1 / 10 ^ 9 ≤ signalOf (Hlg.light signal) := by
      rw [signalOf_of_le dark]
      apply Real.le_sqrt_of_sq_le
      linarith
    have half := signalOf_le_half dark
    have near : (signal - 1 / 2) / 0.17883277 ≤ 3 / 10 ^ 9 := by linarith
    rw [div_le_iff₀ (by norm_num)] at near
    rw [abs_le]
    constructor <;> linarith
  · rw [signalOf_light nonneg apart]
    norm_num

end Hlg

/-- A number that is a value up to one part in a million. -/
def IsNear (value : ℝ) (result : Unrounded) : Prop :=
  ∃ back, result = real back ∧ |back - value| ≤ 1 / 10 ^ 6

/-- From black on, what either curve encodes is decoded, and what it decodes is encoded, as what it
was to a millionth, next to the knees as well. -/
theorem directions_undo_each_other {value : ℝ} (nonneg : 0 ≤ value) :
    IsNear value (Hlg.decode (Hlg.encode (real value))) ∧
    IsNear value (Hlg.encode (Hlg.decode (real value))) ∧
    IsNear value (Srgb.decode (Srgb.encode (real value))) ∧
    IsNear value (Srgb.encode (Srgb.decode (real value))) := by
  refine ⟨⟨value, ?_, by norm_num⟩, ⟨Hlg.signalOf (Hlg.light value), ?_, ?_⟩,
    ⟨Srgb.light (Srgb.signalOf value), ?_, ?_⟩, ⟨Srgb.signalOf (Srgb.light value), ?_, ?_⟩⟩
  · rw [Hlg.encode_eq nonneg, Hlg.decode_eq, Hlg.light_signalOf nonneg]
  · rw [Hlg.decode_eq, Hlg.encode_eq (Hlg.light_nonneg value)]
  · exact (Hlg.abs_signalOf_light_sub_le nonneg).trans (by norm_num)
  · rw [Srgb.encode_eq, Srgb.decode_eq]
  · exact (Srgb.abs_light_signalOf_sub_le value).trans (by norm_num)
  · rw [Srgb.decode_eq, Srgb.encode_eq]
  · exact (Srgb.abs_signalOf_light_sub_le value).trans (by norm_num)

/-- The end of the line of the sRGB curve, which leaves by the line and comes back by the power. -/
theorem line_end_comes_back :
    (0 : ℝ) ≤ 0.04045 ∧ IsNear 0.04045 (Hlg.decode (Hlg.encode (real 0.04045))) ∧
      IsNear 0.04045 (Hlg.encode (Hlg.decode (real 0.04045))) ∧
      IsNear 0.04045 (Srgb.decode (Srgb.encode (real 0.04045))) ∧
      IsNear 0.04045 (Srgb.encode (Srgb.decode (real 0.04045))) :=
  ⟨by norm_num, directions_undo_each_other (by norm_num)⟩

end HdrGain.Transfer
