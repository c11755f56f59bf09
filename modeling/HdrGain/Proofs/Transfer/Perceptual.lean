import HdrGain.Transfer
import HdrGain.Proofs.Scalar.Checked

namespace HdrGain.Transfer.Pq

/-! # The perceptual quantizer over the real numbers

Both directions take a power, a fraction of two lines, and a power again. The fractions undo each
other, since they are the same motion of the projective line and its inverse, and so do the powers.
Between zero and the pole of the fraction no divisor vanishes and no power is taken of anything
negative. -/

/-- The fraction between the two powers, on the way from light to signals. -/
noncomputable def lifted (power : ℝ) : ℝ :=
  (3424 / 4096 + 2413 / 4096 * 32 * power) / (1 + 2392 / 4096 * 32 * power)

/-- The divisor on the way back, which is positive below the pole of that fraction. -/
noncomputable def poleGap (root : ℝ) : ℝ :=
  2413 / 4096 * 32 - 2392 / 4096 * 32 * root

/-- The fraction on the way back. Roots below that of black count as black. -/
noncomputable def lowered (root : ℝ) : ℝ :=
  max (root - 3424 / 4096) 0 / poleGap root

/-- The signal of a luminance. -/
noncomputable def signalOf (luminance : ℝ) : ℝ :=
  lifted ((max luminance 0 / 10000) ^ (2610 / 16384 : ℝ)) ^ (2523 / 4096 * 128 : ℝ)

/-- The luminance of a signal. -/
noncomputable def luminanceOf (signal : ℝ) : ℝ :=
  if signal ≤ 0 then 0
  else 10000 * lowered (signal ^ (1 / (2523 / 4096 * 128) : ℝ)) ^ (1 / (2610 / 16384) : ℝ)

/-- The signal of no light. -/
noncomputable def blackSignal : ℝ :=
  (3424 / 4096) ^ (2523 / 4096 * 128 : ℝ)

section Fractions

variable {power root : ℝ}

theorem divisor_pos (nonneg : 0 ≤ power) : 0 < 1 + 2392 / 4096 * 32 * power := by
  positivity

theorem lifted_pos (nonneg : 0 ≤ power) : 0 < lifted power := by
  unfold lifted
  positivity

theorem poleGap_pos_of_le_one (most : root ≤ 1) : 0 < poleGap root := by
  unfold poleGap
  linarith

/-- Lifting stays below the pole of lowering. -/
theorem poleGap_lifted_pos (nonneg : 0 ≤ power) : 0 < poleGap (lifted power) := by
  have divisor := divisor_pos nonneg
  have rest : poleGap (lifted power) =
      poleGap (3424 / 4096) / (1 + 2392 / 4096 * 32 * power) := by
    unfold poleGap lifted
    field_simp
    ring
  rw [rest]
  exact div_pos (poleGap_pos_of_le_one (by norm_num)) divisor

theorem lowered_lifted (nonneg : 0 ≤ power) : lowered (lifted power) = power := by
  have divisor := divisor_pos nonneg
  have pole := poleGap_lifted_pos nonneg
  have above : lifted power - 3424 / 4096 = poleGap (lifted power) * power := by
    unfold poleGap lifted
    field_simp
    ring
  rw [lowered, above, max_eq_left (mul_nonneg pole.le nonneg), mul_div_cancel_left₀ _ pole.ne']

theorem lowered_nonneg (below : 0 < poleGap root) : 0 ≤ lowered root :=
  div_nonneg (le_max_right _ _) below.le

theorem lifted_lowered (above : 3424 / 4096 ≤ root) (below : 0 < poleGap root) :
    lifted (lowered root) = root := by
  have cleared : lowered root * poleGap root = root - 3424 / 4096 := by
    rw [lowered, max_eq_left (by linarith), div_mul_cancel₀ _ below.ne']
  rw [poleGap] at cleared
  rw [lifted, div_eq_iff (divisor_pos (lowered_nonneg below)).ne']
  linear_combination cleared

theorem lowered_dark (dark : root ≤ 3424 / 4096) : lowered root = 0 := by
  rw [lowered, max_eq_right (by linarith), zero_div]

end Fractions

section Signals

variable (luminance : ℝ) {signal : ℝ}

/-- The share of the peak, with its power taken. -/
theorem power_nonneg : 0 ≤ (max luminance 0 / 10000) ^ (2610 / 16384 : ℝ) := by
  positivity

theorem signalOf_pos : 0 < signalOf luminance :=
  Real.rpow_pos_of_pos (lifted_pos (power_nonneg luminance)) _

theorem root_signalOf :
    signalOf luminance ^ (1 / (2523 / 4096 * 128) : ℝ) =
      lifted ((max luminance 0 / 10000) ^ (2610 / 16384 : ℝ)) := by
  rw [signalOf, one_div, Real.rpow_rpow_inv (lifted_pos (power_nonneg luminance)).le (by norm_num)]

theorem luminanceOf_signalOf : luminanceOf (signalOf luminance) = max luminance 0 := by
  have share : 0 ≤ max luminance 0 / 10000 := by positivity
  rw [luminanceOf, if_neg (signalOf_pos luminance).not_ge, root_signalOf,
    lowered_lifted (power_nonneg luminance), one_div, Real.rpow_rpow_inv share (by norm_num)]
  ring

theorem blackSignal_pos : 0 < blackSignal :=
  Real.rpow_pos_of_pos (by norm_num) _

theorem root_blackSignal : blackSignal ^ (1 / (2523 / 4096 * 128) : ℝ) = 3424 / 4096 := by
  rw [blackSignal, one_div, Real.rpow_rpow_inv (by norm_num) (by norm_num)]

theorem root_le_one (nonneg : 0 ≤ signal) (most : signal ≤ 1) :
    signal ^ (1 / (2523 / 4096 * 128) : ℝ) ≤ 1 :=
  Real.rpow_le_one nonneg most (by norm_num)

theorem le_root (least : blackSignal ≤ signal) :
    3424 / 4096 ≤ signal ^ (1 / (2523 / 4096 * 128) : ℝ) := by
  rw [← root_blackSignal]
  exact Real.rpow_le_rpow blackSignal_pos.le least (by norm_num)

theorem root_le_of_dark (positive : 0 < signal) (dark : signal ≤ blackSignal) :
    signal ^ (1 / (2523 / 4096 * 128) : ℝ) ≤ 3424 / 4096 := by
  rw [← root_blackSignal]
  exact Real.rpow_le_rpow positive.le dark (by norm_num)

theorem signalOf_luminanceOf (least : blackSignal ≤ signal) (most : signal ≤ 1) :
    signalOf (luminanceOf signal) = signal := by
  have positive : 0 < signal := blackSignal_pos.trans_le least
  have pole := poleGap_pos_of_le_one (root_le_one positive.le most)
  have nonneg := lowered_nonneg pole
  have lit : 0 ≤ luminanceOf signal := by
    rw [luminanceOf, if_neg positive.not_ge]
    positivity
  have share : luminanceOf signal / 10000 =
      lowered (signal ^ (1 / (2523 / 4096 * 128) : ℝ)) ^ (1 / (2610 / 16384) : ℝ) := by
    rw [luminanceOf, if_neg positive.not_ge]
    ring
  rw [signalOf, max_eq_left lit, share, one_div (2610 / 16384 : ℝ),
    Real.rpow_inv_rpow nonneg (by norm_num), lifted_lowered (le_root least) pole, one_div,
    Real.rpow_inv_rpow positive.le (by norm_num)]

theorem luminanceOf_dark (dark : signal ≤ blackSignal) : luminanceOf signal = 0 := by
  rw [luminanceOf]
  split
  · rfl
  · rename_i positive
    rw [lowered_dark (root_le_of_dark (not_le.mp positive) dark), Real.zero_rpow (by norm_num),
      mul_zero]

end Signals

section Carriers

variable {α : Type} [Scalar α] [Elementary α] {number : ℝ → α} (carries : CarriesReals number)

include carries

theorem constants_eq :
    (m1 : α) = number (2610 / 16384) ∧ (m2 : α) = number (2523 / 4096 * 128) ∧
    (c1 : α) = number (3424 / 4096) ∧ (c2 : α) = number (2413 / 4096 * 32) ∧
    (c3 : α) = number (2392 / 4096 * 32) ∧ (peak : α) = number 10000 := by
  simp only [m1, m2, c1, c2, c3, peak, carries.ofScientific]
  norm_num [carries.div, carries.mul]

theorem encode_eq (luminance : ℝ) : encode (number luminance) = number (signalOf luminance) := by
  obtain ⟨m1, m2, c1, c2, c3, peak⟩ := constants_eq carries
  have power := power_nonneg luminance
  have base : 0 ≤ max luminance 0 / 10000 := by positivity
  rw [encode, m1, m2, c1, c2, c3, peak, carries.zero, carries.one, carries.max,
    carries.div (by norm_num), carries.pow base (by norm_num), carries.mul, carries.mul,
    carries.add, carries.add, carries.div (divisor_pos power), ← lifted,
    carries.pow (lifted_pos power).le (by norm_num), signalOf]

/-- Up to the pole of the fraction. -/
theorem decode_eq {signal : ℝ} (below : 0 < poleGap (signal ^ (1 / (2523 / 4096 * 128) : ℝ))) :
    decode (number signal) = number (luminanceOf signal) := by
  obtain ⟨m1, m2, c1, c2, c3, peak⟩ := constants_eq carries
  rw [decode, luminanceOf, carries.zero]
  by_cases dark : signal ≤ 0
  · rw [if_pos ((carries.le_iff signal 0).mpr dark), if_pos dark]
  · rw [if_neg (mt (carries.le_iff signal 0).mp dark), if_neg dark, m1, m2, c1, c2, c3, peak,
      carries.one, carries.div (by norm_num), carries.div (by norm_num),
      carries.pow (not_le.mp dark).le (by norm_num)]
    dsimp only
    rw [carries.sub, carries.max, carries.mul, carries.sub, ← poleGap, carries.div below,
      ← lowered, carries.pow (lowered_nonneg below) (by norm_num), carries.mul]

theorem decode_encode (luminance : ℝ) :
    decode (encode (number luminance)) = number (max luminance 0) := by
  have pole := poleGap_lifted_pos (power_nonneg luminance)
  rw [← root_signalOf] at pole
  rw [encode_eq carries, decode_eq carries pole, luminanceOf_signalOf]

theorem encode_decode {signal : ℝ} (least : blackSignal ≤ signal) (most : signal ≤ 1) :
    encode (decode (number signal)) = number signal := by
  have root := root_le_one (blackSignal_pos.trans_le least).le most
  rw [decode_eq carries (poleGap_pos_of_le_one root), encode_eq carries,
    signalOf_luminanceOf least most]

theorem decode_dark {signal : ℝ} (dark : signal < blackSignal) :
    decode (number signal) = number 0 := by
  rcases le_or_gt signal 0 with none | positive
  · rw [decode, carries.zero, if_pos ((carries.le_iff signal 0).mpr none)]
  · have root := root_le_of_dark positive dark.le
    rw [decode_eq carries (poleGap_pos_of_le_one (root.trans (by norm_num))),
      luminanceOf_dark dark.le]

theorem pow_c1_m2 : Elementary.pow (c1 : α) m2 = number blackSignal := by
  obtain ⟨-, m2, c1, -⟩ := constants_eq carries
  rw [c1, m2, carries.pow (by norm_num) (by norm_num), blackSignal]

end Carriers

/-- Every luminance comes back from its signal, the negative ones as black and those above the peak
as they are. Every signal from that of black up to one comes back from its luminance, and below
there is no light. On the way every divisor is positive, and every power is one of a number that is
not negative; where that failed, checked scalars would be refused. -/
theorem each_direction_undoes_the_other :
    ((Elementary.pow c1 m2 : Checked) = .number blackSignal ∧
      (Elementary.pow c1 m2 : Unrounded) = .real blackSignal) ∧
    (∀ luminance : ℝ,
      decode (encode (Checked.number luminance)) = .number (max luminance 0) ∧
      decode (encode (Unrounded.real luminance)) = .real (max luminance 0)) ∧
    (∀ signal : ℝ, blackSignal ≤ signal → signal ≤ 1 →
      encode (decode (Checked.number signal)) = .number signal ∧
      encode (decode (Unrounded.real signal)) = .real signal) ∧
    ∀ signal : ℝ, signal < blackSignal →
      decode (Checked.number signal) = .number 0 ∧ decode (Unrounded.real signal) = .real 0 :=
  ⟨⟨pow_c1_m2 Checked.carries, pow_c1_m2 Unrounded.carries⟩,
    fun luminance =>
      ⟨decode_encode Checked.carries luminance, decode_encode Unrounded.carries luminance⟩,
    fun _ least most =>
      ⟨encode_decode Checked.carries least most, encode_decode Unrounded.carries least most⟩,
    fun _ dark => ⟨decode_dark Checked.carries dark, decode_dark Unrounded.carries dark⟩⟩

theorem blackSignal_between : 1 / 10 ^ 7 < blackSignal ∧ blackSignal ≤ 1 / 2 := by
  have more : ((3424 / 4096 : ℝ)) ^ (79 : ℝ) ≤ blackSignal :=
    Real.rpow_le_rpow_of_exponent_ge (by norm_num) (by norm_num) (by norm_num)
  have less : blackSignal ≤ ((3424 / 4096 : ℝ)) ^ (4 : ℝ) :=
    Real.rpow_le_rpow_of_exponent_ge (by norm_num) (by norm_num) (by norm_num)
  have whole : ((3424 / 4096 : ℝ)) ^ (79 : ℝ) = (3424 / 4096) ^ 79 := by
    exact_mod_cast Real.rpow_natCast _ 79
  have whole' : ((3424 / 4096 : ℝ)) ^ (4 : ℝ) = (3424 / 4096) ^ 4 := by
    exact_mod_cast Real.rpow_natCast _ 4
  rw [whole] at more
  rw [whole'] at less
  exact ⟨lt_of_lt_of_le (by norm_num) more, less.trans (by norm_num)⟩

theorem half_signal_comes_back :
    decode (encode (Checked.number 20000)) = .number (max 20000 0) ∧
    (blackSignal ≤ 1 / 2 ∧ (1 / 2 : ℝ) ≤ 1 ∧
      encode (decode (Checked.number (1 / 2))) = .number (1 / 2)) ∧
    (1 / 10 ^ 7 < blackSignal ∧ decode (Checked.number (1 / 10 ^ 7)) = .number 0) := by
  obtain ⟨dark, least⟩ := blackSignal_between
  obtain ⟨-, luminances, signals, black⟩ := each_direction_undoes_the_other
  exact ⟨(luminances 20000).1, ⟨least, by norm_num, (signals _ least (by norm_num)).1⟩,
    dark, (black _ dark).1⟩

end HdrGain.Transfer.Pq
