import HdrGain.GainMap
import HdrGain.Proofs.Scalar.Unrounded

namespace HdrGain.Gain

open Unrounded

/-- The gain from one luminance to another, where 1 stands for `hdrRatio`, within -1 and 1. -/
noncomputable def target (sdr hdr hdrRatio : ℝ) : ℝ :=
  max (-1) (min 1 (Real.logb hdrRatio (hdr / sdr)))

/-- The gain that the byte of `gain` stands for. -/
noncomputable def quantised (gain : ℝ) : ℝ :=
  (⌊gain * 127.5 + 127.5⌋₊ - 127.5) / 127.5

variable {sdr hdr hdrRatio gain : ℝ}

theorem target_mem (sdr hdr hdrRatio : ℝ) :
    -1 ≤ target sdr hdr hdrRatio ∧ target sdr hdr hdrRatio ≤ 1 :=
  ⟨le_max_left _ _, max_le (by norm_num) (min_le_left _ _)⟩

/-- Within the largest ratio of each other, the luminances are as far apart as their gain says. -/
theorem rpow_target (bright : 0 < sdr) (lit : 0 < hdr) (above : 1 < hdrRatio)
    (lower : sdr / hdrRatio ≤ hdr) (upper : hdr ≤ sdr * hdrRatio) :
    hdrRatio ^ target sdr hdr hdrRatio = hdr / sdr := by
  have positive : 0 < hdrRatio := one_pos.trans above
  have quotient : 0 < hdr / sdr := div_pos lit bright
  have atMost : hdr / sdr ≤ hdrRatio := by
    rw [div_le_iff₀ bright, mul_comm]
    exact upper
  have atLeast : hdrRatio⁻¹ ≤ hdr / sdr := by
    rw [le_div_iff₀ bright, mul_comm, ← div_eq_mul_inv]
    exact lower
  have high : Real.logb hdrRatio (hdr / sdr) ≤ 1 := by
    rw [Real.logb_le_iff_le_rpow above quotient, Real.rpow_one]
    exact atMost
  have low : -1 ≤ Real.logb hdrRatio (hdr / sdr) := by
    rw [Real.le_logb_iff_rpow_le above quotient, Real.rpow_neg_one]
    exact atLeast
  rw [target, min_eq_right high, max_eq_right low, Real.rpow_logb positive above.ne' quotient]

/-- A gain rounded down by less than a step falls short by less than the ratio of a step. -/
theorem mul_rpow_between (bright : 0 < sdr) (lit : 0 < hdr) (above : 1 < hdrRatio)
    (lower : sdr / hdrRatio ≤ hdr) (upper : hdr ≤ sdr * hdrRatio)
    (short : target sdr hdr hdrRatio - 2 / 255 < gain) (within : gain ≤ target sdr hdr hdrRatio) :
    hdr * hdrRatio ^ (-(2 / 255) : ℝ) < sdr * hdrRatio ^ gain ∧ sdr * hdrRatio ^ gain ≤ hdr := by
  have positive : 0 < hdrRatio := one_pos.trans above
  have reached : sdr * hdrRatio ^ target sdr hdr hdrRatio = hdr := by
    rw [rpow_target bright lit above lower upper, mul_div_cancel₀ _ bright.ne']
  constructor
  · calc hdr * hdrRatio ^ (-(2 / 255) : ℝ)
        = sdr * hdrRatio ^ (target sdr hdr hdrRatio - 2 / 255) := by
          rw [sub_eq_add_neg, Real.rpow_add positive, ← mul_assoc, reached]
      _ < sdr * hdrRatio ^ gain :=
          mul_lt_mul_of_pos_left (Real.rpow_lt_rpow_of_exponent_lt above short) bright
  · calc sdr * hdrRatio ^ gain
        ≤ sdr * hdrRatio ^ target sdr hdr hdrRatio :=
          mul_le_mul_of_nonneg_left (Real.rpow_le_rpow_of_exponent_le above.le within) bright.le
      _ = hdr := reached

theorem quantised_le (inside : -1 ≤ gain) : quantised gain ≤ gain := by
  have floor : (⌊gain * 127.5 + 127.5⌋₊ : ℝ) ≤ gain * 127.5 + 127.5 :=
    Nat.floor_le (by linarith)
  unfold quantised
  rw [div_le_iff₀ (by norm_num)]
  linarith

theorem lt_quantised (gain : ℝ) : gain - 2 / 255 < quantised gain := by
  have floor := Nat.lt_floor_add_one (gain * 127.5 + 127.5)
  unfold quantised
  rw [lt_div_iff₀ (by norm_num)]
  linarith

/-- Gains outside of -1 and 1 get the bytes at the ends. -/
theorem toNat_toByte (gain : ℝ) :
    (toByte (real gain)).toNat = ⌊(max (-1) (min 1 gain)) * 127.5 + 127.5⌋₊ := by
  have encoded : (toByte (real gain)).toNat = min 255 ⌊gain * 127.5 + 127.5⌋₊ := by
    simp only [toByte, halfRange, Scalar.toByte, ofScientific_eq, real_mul, real_add, truncate_real,
      UInt8.toNat_ofNat']
    omega
  rw [encoded]
  rcases le_total gain (-1) with low | above
  · have none : gain * 127.5 + 127.5 ≤ 0 := by linarith
    have clamped : min 1 gain ≤ -1 := (min_le_right 1 gain).trans low
    rw [Nat.floor_of_nonpos none, max_eq_left clamped]
    norm_num
  · rcases le_total gain 1 with inside | high
    · have below : ⌊gain * 127.5 + 127.5⌋₊ ≤ 255 := Nat.floor_le_of_le (by
        push_cast
        linarith)
      rw [min_eq_right below, min_eq_right inside, max_eq_right above]
    · have reached : 255 ≤ ⌊gain * 127.5 + 127.5⌋₊ := Nat.le_floor (by
        push_cast
        linarith)
      rw [min_eq_left reached, min_eq_left high]
      norm_num

theorem toByte_sunk {gain : Unrounded} (sunk : gain.Sunk) : toByte gain = 0 := by
  have level : (gain * halfRange + halfRange).Sunk := by
    unfold halfRange
    rw [ofScientific_eq]
    exact ((sunk.mul (by norm_num)).1.add _).1
  unfold toByte Scalar.toByte
  rw [level.truncate]
  rfl

theorem ratio_real (bright : 0 < sdr) (positive : 0 < hdrRatio) (hdr : ℝ) :
    ratio (real sdr) (real hdr) (real hdrRatio) =
      real (min hdrRatio (max (-hdrRatio) (hdr / sdr))) := by
  have divided : (real hdr / real sdr : Unrounded) = real (hdr / sdr) := real_div bright.ne'
  have opposite : ¬ hdrRatio < -hdrRatio := by linarith
  simp only [ratio, zero_eq, divided, real_neg, real_lt, gt_iff_lt, bright, if_true]
  rcases lt_or_ge (hdr / sdr) (-hdrRatio) with below | inside
  · rw [if_pos below, max_eq_left below.le, min_eq_right (by linarith)]
    exact if_neg opposite
  · rw [if_neg inside.not_gt, max_eq_right inside]
    rcases lt_or_ge hdrRatio (hdr / sdr) with beyond | within
    · rw [min_eq_left beyond.le]
      exact if_pos beyond
    · rw [min_eq_right within]
      exact if_neg within.not_gt

/-- Light that is there is encoded as its share of the largest ratio. -/
theorem toNat_encode_lit (bright : 0 < sdr) (above : 1 < hdrRatio) (lit : 0 < hdr) :
    (encode (real sdr) (real hdr) (real hdrRatio)).toNat =
      ⌊target sdr hdr hdrRatio * 127.5 + 127.5⌋₊ := by
  have positive : 0 < hdrRatio := one_pos.trans above
  have scale : 0 < Real.logb 2 hdrRatio := Real.logb_pos (by norm_num) above
  have quotient : 0 < hdr / sdr := div_pos lit bright
  have raised : max (-hdrRatio) (hdr / sdr) = hdr / sdr := max_eq_right (by linarith)
  have clamped : 0 < min hdrRatio (hdr / sdr) := lt_min positive quotient
  have rebased (number : ℝ) :
      Real.logb 2 number / Real.logb 2 hdrRatio = Real.logb hdrRatio number :=
    div_div_div_cancel_right₀ (Real.log_pos one_lt_two).ne' _ _
  have logarithm : Real.logb hdrRatio (min hdrRatio (hdr / sdr)) =
      min 1 (Real.logb hdrRatio (hdr / sdr)) := by
    have self : Real.logb hdrRatio hdrRatio = 1 := Real.logb_self_eq_one above
    rw [← self]
    rcases le_total hdrRatio (hdr / sdr) with beyond | within
    · rw [min_eq_left beyond, min_eq_left (Real.logb_le_logb_of_le above positive beyond)]
    · rw [min_eq_right within, min_eq_right (Real.logb_le_logb_of_le above quotient within)]
  rw [encode, encodeLog, ratio_real bright positive, raised, log2_real clamped,
    log2_real positive, real_div scale.ne', toNat_toByte, rebased, logarithm, target,
    min_eq_right (min_le_left _ _)]

/-- Light that is not there has the byte 0, also where it is less than none. -/
theorem encode_dark (bright : 0 < sdr) (above : 1 < hdrRatio) (dark : hdr ≤ 0) :
    encode (real sdr) (real hdr) (real hdrRatio) = 0 := by
  have positive : 0 < hdrRatio := one_pos.trans above
  have scale : 0 < Real.logb 2 hdrRatio := Real.logb_pos (by norm_num) above
  have quotient : hdr / sdr ≤ 0 := div_nonpos_of_nonpos_of_nonneg dark bright.le
  have clamped : min hdrRatio (max (-hdrRatio) (hdr / sdr)) ≤ 0 :=
    (min_le_right _ _).trans (max_le (by linarith) quotient)
  rw [encode, encodeLog, ratio_real bright positive, log2_real positive]
  exact toByte_sunk ((log2_sunk clamped).div scale)

theorem ratio_sunk {hdr : Unrounded} (bright : 0 < sdr) (positive : 0 < hdrRatio)
    (sunk : hdr.Sunk) :
    ratio (real sdr) hdr (real hdrRatio) = real (-hdrRatio) ∨
      ratio (real sdr) hdr (real hdrRatio) = nan := by
  have opposite : ¬ hdrRatio < -hdrRatio := by linarith
  simp only [ratio, zero_eq, real_lt, gt_iff_lt, bright, if_true, real_neg]
  rcases sunk.div bright with low | none
  · rw [low]
    have below : (bottom : Unrounded) < real (-hdrRatio) := trivial
    rw [if_pos below]
    exact .inl (if_neg opposite)
  · rw [none]
    have unordered (number : ℝ) : ¬ nan < real number ∧ ¬ real number < nan :=
      ⟨not_false, not_false⟩
    rw [if_neg (unordered _).1, if_neg (unordered _).2]
    exact .inr rfl

theorem encode_sunk {hdr : Unrounded} (bright : 0 < sdr) (above : 1 < hdrRatio)
    (sunk : hdr.Sunk) : encode (real sdr) hdr (real hdrRatio) = 0 := by
  have positive : 0 < hdrRatio := one_pos.trans above
  have scale : 0 < Real.logb 2 hdrRatio := Real.logb_pos (by norm_num) above
  have logarithm : (Elementary.log2 (ratio (real sdr) hdr (real hdrRatio))).Sunk := by
    rcases ratio_sunk bright positive sunk with low | none
    · rw [low]
      exact log2_sunk (by linarith)
    · rw [none]
      exact .inr rfl
  rw [encode, encodeLog, log2_real positive]
  exact toByte_sunk (logarithm.div scale)

theorem ofByte_eq (byte : UInt8) :
    (ofByte byte : Unrounded) = real ((byte.toNat - 127.5) / 127.5) := by
  simp only [ofByte, halfRange, ofScientific_eq, ofNat_eq, real_sub]
  exact real_div (by norm_num)

/-- What comes back of two luminances is their gain, rounded down to a step. -/
theorem ofByte_encode (bright : 0 < sdr) (above : 1 < hdrRatio) (lit : 0 < hdr) :
    (ofByte (encode (real sdr) (real hdr) (real hdrRatio)) : Unrounded) =
      real (quantised (target sdr hdr hdrRatio)) := by
  rw [ofByte_eq, toNat_encode_lit bright above lit, quantised]

/-- Applying a gain multiplies by the ratio that it stands for, black and endless light
included. -/
theorem applyLog_eq {light : Unrounded} (shining : (0.0 : Unrounded) ≤ light)
    (above : 0 < hdrRatio) (gain : ℝ) :
    applyLog light (real gain) (real (Real.logb 2 hdrRatio)) = light * real (hdrRatio ^ gain) := by
  have factor : 0 < hdrRatio ^ gain := Real.rpow_pos_of_pos above gain
  have power : (2 : ℝ) ^ (gain * Real.logb 2 hdrRatio) = hdrRatio ^ gain := by
    rw [mul_comm, Real.rpow_mul (by norm_num), Real.rpow_logb (by norm_num) (by norm_num) above]
  rw [zero_eq] at shining
  cases light with
  | real light =>
      rw [real_le] at shining
      rw [applyLog, real_mul, real_mul]
      rcases shining.lt_or_eq with lit | rfl
      · rw [log2_real lit, real_add, exp2_real, Real.rpow_add (by norm_num),
          Real.rpow_logb (by norm_num) (by norm_num) lit, power]
      · rw [log2_zero, zero_mul]
        rfl
  | top => exact (if_pos factor).symm
  | bottom => exact shining.elim
  | nan => exact shining.elim

end HdrGain.Gain
