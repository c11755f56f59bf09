import HdrGain.Transfer
import HdrGain.Proofs.Scalar.Unrounded

namespace HdrGain.Transfer

open Unrounded

namespace Srgb

/-- What decoding does past the line. -/
noncomputable def unpowered (signal : ℝ) : ℝ :=
  ((signal + 0.055) / 1.055) ^ (2.4 : ℝ)

/-- The light of a signal, on the line near black and beyond. -/
noncomputable def light (signal : ℝ) : ℝ :=
  if signal ≤ 0.04045 then signal / 12.92 else unpowered signal

theorem decode_eq (signal : ℝ) : decode (real signal) = real (light signal) := by
  simp only [decode, light, unpowered, ofScientific_eq, real_le, real_add]
  split
  · exact real_div (by norm_num)
  · rename_i bright
    have shifted : 0 < signal + 0.055 := by linarith
    rw [real_div (by norm_num)]
    exact pow_real (by positivity) (by norm_num)

theorem decode_isReal (signal : ℝ) : ∃ light, decode (real signal) = real light :=
  ⟨_, decode_eq signal⟩

theorem decode_one : decode (real 1) = real 1 := by
  have base : ((1 : ℝ) + 0.055) / 1.055 = 1 := by norm_num
  rw [decode_eq, light, if_neg (by norm_num), unpowered, base, Real.one_rpow]

end Srgb

namespace Hlg

/-- The light of a signal, up to the knee at a half and beyond. -/
noncomputable def light (signal : ℝ) : ℝ :=
  if signal ≤ 0.5 then signal * signal / 3.0
  else (Real.exp ((signal - 0.55991073) / 0.17883277) + 0.28466892) / 12.0

theorem decode_eq (signal : ℝ) : decode (real signal) = real (light signal) := by
  simp only [decode, light, a, b, c, ofScientific_eq, real_le, real_mul, real_sub]
  split
  · exact real_div (by norm_num)
  · rw [real_div (by norm_num)]
    exact real_div (by norm_num)

theorem decode_half : decode (real (1 / 2)) = real (1 / 12) := by
  rw [decode_eq, light, if_pos (by norm_num)]
  norm_num

end Hlg

namespace Pq

noncomputable def light (signal : ℝ) : ℝ :=
  -2.0754572 / Real.logb 2.0 (signal * 10000.0)

theorem decodeLog_zero : decodeLog (real 0) = real 0 := by
  simp only [decodeLog, peak, ofScientific_eq, real_mul, zero_mul, log2_zero]
  rfl

theorem decodeLog_negative {signal : ℝ} (negative : signal < 0) :
    decodeLog (real signal) = nan := by
  have product : signal * 10000.0 < 0 := by linarith
  simp only [decodeLog, peak, ofScientific_eq, real_mul, log2_negative product]
  rfl

theorem decodeLog_pole {signal : ℝ} (pole : signal * 10000.0 = 1) :
    decodeLog (real signal) = bottom := by
  simp only [decodeLog, peak, ofScientific_eq, real_mul, real_neg, pole, log2_real one_pos,
    Real.logb_one]
  change (if (0 : ℝ) = 0 then toward (-2.0754572) else _) = bottom
  rw [if_pos rfl, toward, if_neg (by norm_num), if_pos (by norm_num)]

theorem decodeLog_eq {signal : ℝ} (positive : 0 < signal) (regular : signal * 10000.0 ≠ 1) :
    decodeLog (real signal) = real (light signal) := by
  have product : 0 < signal * 10000.0 := by positivity
  have slope : Real.logb 2 (signal * 10000.0) ≠ 0 :=
    Real.logb_ne_zero_of_pos_of_ne_one (by norm_num) product regular
  have base : (2.0 : ℝ) = 2 := by norm_num
  simp only [decodeLog, peak, light, ofScientific_eq, real_mul, real_neg, log2_real product, base]
  exact real_div slope

end Pq

theorem decode_bounded (transfer : HdrTransfer) (signal : ℝ) :
    (transfer.decode (real signal)).Bounded := by
  cases transfer with
  | hlg => exact .inl ⟨_, Hlg.decode_eq signal⟩
  | pq =>
      rcases lt_trichotomy signal 0 with negative | rfl | positive
      · exact .inr (.inr (Pq.decodeLog_negative negative))
      · exact .inl ⟨_, Pq.decodeLog_zero⟩
      · by_cases pole : signal * 10000.0 = 1
        · exact .inr (.inl (Pq.decodeLog_pole pole))
        · exact .inl ⟨_, Pq.decodeLog_eq positive pole⟩

end HdrGain.Transfer

namespace HdrGain.Transfer

open Unrounded

namespace Hlg

/-- Where the upper piece would begin at 0.71533108, had its constants all their places. -/
theorem exp_knee_between :
    0.7153310781 ≤ Real.exp ((0.5 - 0.55991073) / 0.17883277) ∧
      Real.exp ((0.5 - 0.55991073) / 0.17883277) ≤ 0.7153310783 := by
  have small : |(0.5 - 0.55991073) / 0.17883277| ≤ (1 : ℝ) := by
    rw [abs_le]
    constructor <;> norm_num
  have size : |((0.5 - 0.55991073) / 0.17883277 : ℝ)| = 0.05991073 / 0.17883277 := by
    rw [abs_of_neg (by norm_num)]
    norm_num
  have near := abs_le.mp (Real.exp_bound small (n := 11) (by norm_num))
  simp only [size, Finset.sum_range_succ, Finset.sum_range_zero] at near
  norm_num [Nat.factorial] at near
  constructor <;> linarith [near.1, near.2]

theorem light_of_le {signal : ℝ} (below : signal ≤ 1 / 2) : light signal = signal * signal / 3 := by
  rw [light, if_pos (by norm_num; linarith)]
  norm_num

theorem light_of_lt {signal : ℝ} (above : 1 / 2 < signal) :
    light signal = (Real.exp ((signal - 0.55991073) / 0.17883277) + 0.28466892) / 12 := by
  rw [light, if_neg (by norm_num; linarith)]
  norm_num

theorem light_nonneg (signal : ℝ) : 0 ≤ light signal := by
  rcases le_or_gt signal (1 / 2) with below | above
  · rw [light_of_le below]
    exact div_nonneg (mul_self_nonneg signal) (by norm_num)
  · rw [light_of_lt above]
    positivity

/-- Past the knee the curve starts from almost a twelfth and rises at least along a line. -/
theorem le_light_of_lt {signal : ℝ} (above : 1 / 2 < signal) :
    (0.7153310781 * (1 + (signal - 1 / 2) / 0.17883277) + 0.28466892) / 12 ≤ light signal := by
  have rise : 1 + (signal - 1 / 2) / 0.17883277 ≤
      Real.exp ((signal - 1 / 2) / 0.17883277) := by
    rw [add_comm]
    exact Real.add_one_le_exp _
  have split : Real.exp ((signal - 0.55991073) / 0.17883277) =
      Real.exp ((0.5 - 0.55991073) / 0.17883277) * Real.exp ((signal - 1 / 2) / 0.17883277) := by
    rw [← Real.exp_add]
    congr 1
    ring
  have start : 0 ≤ 1 + (signal - 1 / 2) / 0.17883277 := by
    have past : 0 ≤ (signal - 1 / 2) / 0.17883277 := div_nonneg (by linarith) (by norm_num)
    linarith
  have product := mul_le_mul exp_knee_between.1 rise start (Real.exp_nonneg _)
  rw [light_of_lt above, split]
  linarith

/-- The curve falls only from a signal at or just below the knee to one just past it. -/
theorem light_le_light {first second : ℝ} (nonneg : 0 ≤ first) (ordered : first ≤ second)
    (apart : ¬ (1 / 2 - 5e-10 < first ∧ first ≤ 1 / 2 ∧ 1 / 2 < second ∧
      second < 1 / 2 + 5e-10)) : light first ≤ light second := by
  rcases le_or_gt second (1 / 2) with below | above
  · rw [light_of_le (ordered.trans below), light_of_le below]
    have squares : first * first ≤ second * second := mul_self_le_mul_self nonneg ordered
    linarith
  · rcases le_or_gt first (1 / 2) with knee | beyond
    · have rises := le_light_of_lt above
      rw [light_of_le knee]
      by_cases far : 1 / 2 - 5e-10 < first
      · -- the first signal may be the knee itself, so the second is past the end of the drop
        have past : 1 / 2 + 5e-10 ≤ second := by
          by_contra near
          exact apart ⟨far, knee, above, not_le.mp near⟩
        have squares : first * first ≤ 1 / 2 * (1 / 2) := mul_self_le_mul_self nonneg knee
        have line : 5e-10 / 0.17883277 ≤ (second - 1 / 2) / 0.17883277 :=
          div_le_div_of_nonneg_right (by linarith) (by norm_num)
        norm_num at line rises ⊢
        linarith
      · have squares : first * first ≤ (1 / 2 - 5e-10) * (1 / 2 - 5e-10) :=
          mul_self_le_mul_self nonneg (not_lt.mp far)
        have line : 0 ≤ (second - 1 / 2) / 0.17883277 :=
          div_nonneg (by linarith) (by norm_num)
        norm_num at line squares rises ⊢
        linarith
    · rw [light_of_lt beyond, light_of_lt above]
      have exponents : Real.exp ((first - 0.55991073) / 0.17883277) ≤
          Real.exp ((second - 0.55991073) / 0.17883277) :=
        Real.exp_le_exp.mpr (div_le_div_of_nonneg_right (by linarith) (by norm_num))
      linarith

theorem light_past_knee_lt : light (1 / 2 + 1e-10) < light (1 / 2) := by
  have back : 1 - 1e-10 / 0.17883277 ≤ Real.exp (-(1e-10 / 0.17883277)) :=
    Real.one_sub_le_exp_neg _
  have start : Real.exp ((1 / 2 + 1e-10 - 0.55991073) / 0.17883277) *
      Real.exp (-(1e-10 / 0.17883277)) = Real.exp ((0.5 - 0.55991073) / 0.17883277) := by
    rw [← Real.exp_add]
    congr 1
    norm_num
  have product := mul_le_mul_of_nonneg_left back
    (Real.exp_nonneg ((1 / 2 + 1e-10 - 0.55991073) / 0.17883277))
  have knee := exp_knee_between.2
  rw [start] at product
  rw [light_of_lt (by norm_num), light_of_le le_rfl]
  norm_num at product knee ⊢
  linarith

end Hlg

namespace Pq

theorem light_pos {signal : ℝ} (positive : 0 < signal) (below : signal * 10000.0 < 1) :
    0 < light signal := by
  have product : 0 < signal * 10000.0 := by positivity
  exact div_pos_of_neg_of_neg (by norm_num) (Real.logb_neg (by norm_num) product below)

theorem light_neg {signal : ℝ} (above : 1 < signal * 10000.0) : light signal < 0 :=
  div_neg_of_neg_of_pos (by norm_num) (Real.logb_pos (by norm_num) above)

theorem light_le_light {first second : ℝ} (positive : 0 < first) (ordered : first ≤ second)
    (below : second * 10000.0 < 1) : light first ≤ light second := by
  have product : 0 < first * 10000.0 := by positivity
  have products : first * 10000.0 ≤ second * 10000.0 :=
    mul_le_mul_of_nonneg_right ordered (by norm_num)
  have falls : Real.logb 2.0 (second * 10000.0) < 0 :=
    Real.logb_neg (by norm_num) (product.trans_le products) below
  have logarithms : Real.logb 2.0 (first * 10000.0) ≤ Real.logb 2.0 (second * 10000.0) :=
    Real.logb_le_logb_of_le (by norm_num) product products
  have parts : 2.0754572 / -Real.logb 2.0 (first * 10000.0) ≤
      2.0754572 / -Real.logb 2.0 (second * 10000.0) :=
    div_le_div_of_nonneg_left (by norm_num) (by linarith) (by linarith)
  rw [div_neg, div_neg] at parts
  rw [light, light, neg_div, neg_div]
  exact parts

end Pq

end HdrGain.Transfer
