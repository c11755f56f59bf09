import HdrGain.Proofs.Gain.Quantisation

namespace HdrGain.Gain

open Unrounded

variable {sdr first second hdrRatio : ℝ}

theorem target_le_target (bright : 0 < sdr) (above : 1 < hdrRatio) (lit : 0 < first)
    (ordered : first ≤ second) : target sdr first hdrRatio ≤ target sdr second hdrRatio := by
  have quotients : first / sdr ≤ second / sdr := div_le_div_of_nonneg_right ordered bright.le
  have logarithms : Real.logb hdrRatio (first / sdr) ≤ Real.logb hdrRatio (second / sdr) :=
    Real.logb_le_logb_of_le above (div_pos lit bright) quotients
  exact max_le_max le_rfl (min_le_min le_rfl logarithms)

theorem encode_le_encode (bright : 0 < sdr) (above : 1 < hdrRatio) (ordered : first ≤ second) :
    encode (real sdr) (real first) (real hdrRatio) ≤
      encode (real sdr) (real second) (real hdrRatio) := by
  rcases le_or_gt first 0 with dark | lit
  · rw [encode_dark bright above dark]
    exact UInt8.zero_le
  · rw [UInt8.le_iff_toNat_le, toNat_encode_lit bright above lit,
      toNat_encode_lit bright above (lit.trans_le ordered)]
    have targets := target_le_target bright above lit ordered
    exact Nat.floor_le_floor (by linarith)

/-- An HDR luminance `hdrRatio` times the SDR luminance has the largest byte. -/
theorem toNat_encode_brightest (lit : 0 < first) (above : 1 < hdrRatio) :
    (encode (real (first / hdrRatio)) (real first) (real hdrRatio)).toNat = 255 := by
  have positive : 0 < hdrRatio := one_pos.trans above
  have largest : target (first / hdrRatio) first hdrRatio = 1 := by
    rw [target, div_div_cancel₀ lit.ne', Real.logb_self_eq_one above, min_self,
      max_eq_right (by norm_num)]
  rw [toNat_encode_lit (div_pos lit positive) above lit, largest]
  norm_num

theorem encode_lt_brightest (lit : 0 < first) (above : 1 < hdrRatio) (less : second < first) :
    encode (real (first / hdrRatio)) (real second) (real hdrRatio) <
      encode (real (first / hdrRatio)) (real first) (real hdrRatio) := by
  have positive : 0 < hdrRatio := one_pos.trans above
  have bright : 0 < first / hdrRatio := div_pos lit positive
  rw [UInt8.lt_iff_toNat_lt, toNat_encode_brightest lit above]
  rcases le_or_gt second 0 with dark | also
  · rw [encode_dark bright above dark]
    decide
  · have quotient : second / (first / hdrRatio) < hdrRatio := by
      rw [div_lt_iff₀ bright, mul_div_cancel₀ _ positive.ne']
      exact less
    have logarithm : Real.logb hdrRatio (second / (first / hdrRatio)) < 1 := by
      rw [← Real.logb_self_eq_one above]
      exact Real.logb_lt_logb above (div_pos also bright) quotient
    have short : target (first / hdrRatio) second hdrRatio < 1 :=
      max_lt (by norm_num) (min_lt_of_right_lt logarithm)
    have inside := (target_mem (first / hdrRatio) second hdrRatio).1
    rw [toNat_encode_lit bright above also, Nat.floor_lt (by linarith)]
    push_cast
    linarith

/-- The bytes are ordered against every SDR luminance exactly if the light is. -/
theorem encode_le_encode_iff (above : 1 < hdrRatio) (nonneg : 0 ≤ second) :
    (∀ sdr : ℝ, 0 < sdr → encode (real sdr) (real first) (real hdrRatio) ≤
      encode (real sdr) (real second) (real hdrRatio)) ↔ first ≤ second := by
  constructor
  · intro ordered
    by_contra less
    have lit : 0 < first := nonneg.trans_lt (not_le.mp less)
    have positive : 0 < hdrRatio := one_pos.trans above
    exact absurd (ordered (first / hdrRatio) (div_pos lit positive))
      (UInt8.not_le.mpr (encode_lt_brightest lit above (not_le.mp less)))
  · intro ordered sdr bright
    exact encode_le_encode bright above ordered

end HdrGain.Gain

namespace HdrGain

/-! # Encoded gains

What byte two luminances are encoded as. The ratio of the luminances is limited before its logarithm
is taken, but only its upper limit is that of a gain: a ratio below `1 / hdrRatio` is kept, and its
gain is brought up to -1 by the byte, which has no room below 0. -/

open Unrounded

/-- The nearest number from -1 to 1. What is no number is taken for the lowest. -/
noncomputable def Unrounded.clampUnit : Unrounded → ℝ
  | real value => max (-1) (min 1 value)
  | top => 1
  | bottom | nan => -1

namespace Gain

variable {sdr hdr sdr' hdr' hdrRatio : ℝ}

theorem neg_one_le_clampUnit (gain : Unrounded) : -1 ≤ clampUnit gain := by
  cases gain with
  | real gain => exact le_max_left _ _
  | top => exact (by norm_num : (-1 : ℝ) ≤ 1)
  | bottom | nan => exact le_rfl

theorem clampUnit_log2_div (bright : 0 < sdr) (lit : 0 < hdr) (above : 1 < hdrRatio) :
    clampUnit (Elementary.log2 (real hdr / real sdr) / Elementary.log2 (real hdrRatio)) =
      target sdr hdr hdrRatio := by
  have scale : 0 < Real.logb 2 hdrRatio := Real.logb_pos one_lt_two above
  have rebased : Real.logb 2 (hdr / sdr) / Real.logb 2 hdrRatio = Real.logb hdrRatio (hdr / sdr) :=
    div_div_div_cancel_right₀ (Real.log_pos one_lt_two).ne' _ _
  rw [real_div bright.ne', log2_real (div_pos lit bright), log2_real (one_pos.trans above),
    real_div scale.ne', rebased]
  rfl

theorem clampUnit_log2_black (bright : 0 < sdr) (above : 1 < hdrRatio) :
    clampUnit (Elementary.log2 (real 0 / real sdr) / Elementary.log2 (real hdrRatio)) = -1 := by
  have scale : 0 < Real.logb 2 hdrRatio := Real.logb_pos one_lt_two above
  have lowest : (bottom / real (Real.logb 2 hdrRatio) : Unrounded) = bottom :=
    if_neg scale.not_gt
  rw [real_div bright.ne', zero_div, log2_zero, log2_real (one_pos.trans above), lowest]
  rfl

/-- No ratio of luminances gets down to the lower limit. -/
theorem ratio_of_nonneg (bright : 0 < sdr) (nonneg : 0 ≤ hdr) (above : 1 < hdrRatio) :
    ratio (real sdr) (real hdr) (real hdrRatio) = real (min hdrRatio (hdr / sdr)) := by
  have quotient : 0 ≤ hdr / sdr := div_nonneg nonneg bright.le
  rw [ratio_real bright (one_pos.trans above), max_eq_right (by linarith)]

/-- The byte is the gain within -1 and 1, in steps from 0 to 255. -/
theorem toNat_encode (bright : 0 < sdr) (nonneg : 0 ≤ hdr) (above : 1 < hdrRatio) :
    (encode (real sdr) (real hdr) (real hdrRatio)).toNat =
      ⌊127.5 * clampUnit (Elementary.log2 (real hdr / real sdr) /
        Elementary.log2 (real hdrRatio)) + 127.5⌋₊ := by
  rcases nonneg.lt_or_eq with lit | rfl
  · rw [toNat_encode_lit bright above lit, clampUnit_log2_div bright lit above, mul_comm]
  · rw [encode_dark bright above le_rfl, clampUnit_log2_black bright above]
    norm_num

theorem encode_eq_of_div_eq (bright : 0 < sdr) (bright' : 0 < sdr') (above : 1 < hdrRatio)
    (same : hdr / sdr = hdr' / sdr') :
    encode (real sdr) (real hdr) (real hdrRatio) =
      encode (real sdr') (real hdr') (real hdrRatio) := by
  have positive : 0 < hdrRatio := one_pos.trans above
  rw [encode, encodeLog, ratio_real bright positive, same, ← ratio_real bright' positive]
  rfl

/-- Against brighter SDR light the same HDR light never has the larger byte. -/
theorem encode_le_encode_of_sdr (bright : 0 < sdr) (above : 1 < hdrRatio) (nonneg : 0 ≤ hdr)
    (ordered : sdr ≤ sdr') :
    encode (real sdr') (real hdr) (real hdrRatio) ≤
      encode (real sdr) (real hdr) (real hdrRatio) := by
  have bright' : 0 < sdr' := bright.trans_le ordered
  have scaled : hdr / sdr' * sdr ≤ hdr := by
    rw [div_mul_eq_mul_div, div_le_iff₀ bright']
    exact mul_le_mul_of_nonneg_left ordered nonneg
  have same : hdr / sdr' = hdr / sdr' * sdr / sdr := (mul_div_cancel_right₀ _ bright.ne').symm
  rw [encode_eq_of_div_eq bright' bright above same]
  exact encode_le_encode bright above scaled

theorem encode_eq_last_iff (bright : 0 < sdr) (above : 1 < hdrRatio) :
    encode (real sdr) (real hdr) (real hdrRatio) = 255 ↔ hdrRatio * sdr ≤ hdr := by
  have positive : 0 < hdrRatio := one_pos.trans above
  have lit : 0 < hdrRatio * sdr := mul_pos positive bright
  have against : hdrRatio * sdr / hdrRatio = sdr := mul_div_cancel_left₀ sdr positive.ne'
  have brightest := toNat_encode_brightest lit above
  rw [against] at brightest
  constructor
  · intro last
    by_contra short
    have less := encode_lt_brightest lit above (not_le.mp short)
    rw [against, last, UInt8.lt_iff_toNat_lt, brightest] at less
    exact absurd less (by decide)
  · intro reached
    have ordered := encode_le_encode bright above reached
    rw [UInt8.le_iff_toNat_le, brightest] at ordered
    have inside := (encode (real sdr) (real hdr) (real hdrRatio)).toNat_lt
    rw [← UInt8.toNat_inj]
    change _ = 255
    omega

theorem target_swap (sdr hdr hdrRatio : ℝ) :
    target hdr sdr hdrRatio = -target sdr hdr hdrRatio := by
  have opposite : Real.logb hdrRatio (sdr / hdr) = -Real.logb hdrRatio (hdr / sdr) := by
    rw [← Real.logb_inv, inv_div]
  have ends : (-1 : ℝ) ≤ 1 := by norm_num
  calc target hdr sdr hdrRatio
      = max (-1) (min 1 (-Real.logb hdrRatio (hdr / sdr))) := by rw [target, opposite]
    _ = min 1 (max (-1) (-Real.logb hdrRatio (hdr / sdr))) := by
        rw [max_min_distrib_left, max_eq_right ends]
    _ = min (- -1) (-min 1 (Real.logb hdrRatio (hdr / sdr))) := by rw [max_neg_neg, neg_neg]
    _ = -target sdr hdr hdrRatio := min_neg_neg _ _

/-- A number from 0 to 255 and its distance from 255 are rounded down by one together, unless both
are whole. -/
theorem floor_add_floor_sub {level : ℝ} (nonneg : 0 ≤ level) (inside : level ≤ 255) :
    ⌊level⌋₊ + ⌊255 - level⌋₊ = 255 ∨ ⌊level⌋₊ + ⌊255 - level⌋₊ = 254 := by
  have below := Nat.floor_le nonneg
  have below' := Nat.floor_le (sub_nonneg.mpr inside)
  have above := Nat.lt_floor_add_one level
  have above' := Nat.lt_floor_add_one (255 - level)
  have atMost : ((⌊level⌋₊ + ⌊255 - level⌋₊ : ℕ) : ℝ) ≤ (255 : ℕ) := by
    push_cast
    linarith
  have atLeast : ((253 : ℕ) : ℝ) < (⌊level⌋₊ + ⌊255 - level⌋₊ : ℕ) := by
    push_cast
    linarith
  rw [Nat.cast_le] at atMost
  rw [Nat.cast_lt] at atLeast
  omega

/-- Exchanging the luminances turns a byte into its distance from 255, or one less. -/
theorem toNat_encode_swap (bright : 0 < sdr) (lit : 0 < hdr) (above : 1 < hdrRatio) :
    (encode (real sdr) (real hdr) (real hdrRatio)).toNat +
        (encode (real hdr) (real sdr) (real hdrRatio)).toNat = 255 ∨
      (encode (real sdr) (real hdr) (real hdrRatio)).toNat +
        (encode (real hdr) (real sdr) (real hdrRatio)).toNat = 254 := by
  obtain ⟨lower, upper⟩ := target_mem sdr hdr hdrRatio
  have mirrored : -target sdr hdr hdrRatio * 127.5 + 127.5 =
      255 - (target sdr hdr hdrRatio * 127.5 + 127.5) := by ring
  rw [toNat_encode_lit bright above lit, toNat_encode_lit lit above bright,
    target_swap sdr hdr hdrRatio, mirrored]
  exact floor_add_floor_sub (by linarith) (by linarith)

/-- Two luminances are encoded as the gain between them within -1 and 1, in steps from 0 to 255 and
rounded down. The byte is one of their ratio, follows the HDR luminance and runs against the SDR
luminance, is the last one from `hdrRatio` on, and is mirrored where they change places. -/
theorem encodes_gain_within_unit (above : 1 < hdrRatio) :
    (∀ sdr hdr : ℝ, 0 < sdr → 0 ≤ hdr →
      ratio (real sdr) (real hdr) (real hdrRatio) = real (min hdrRatio (hdr / sdr)) ∧
      ((encode (real sdr) (real hdr) (real hdrRatio)).toNat : ℤ) =
        ⌊127.5 * clampUnit (Elementary.log2 (real hdr / real sdr) /
          Elementary.log2 (real hdrRatio)) + 127.5⌋) ∧
    (∀ sdr hdr sdr' hdr' : ℝ, 0 < sdr → 0 < sdr' → hdr / sdr = hdr' / sdr' →
      encode (real sdr) (real hdr) (real hdrRatio) =
        encode (real sdr') (real hdr') (real hdrRatio)) ∧
    (∀ sdr hdr hdr' : ℝ, 0 < sdr → hdr ≤ hdr' →
      encode (real sdr) (real hdr) (real hdrRatio) ≤
        encode (real sdr) (real hdr') (real hdrRatio)) ∧
    (∀ sdr sdr' hdr : ℝ, 0 < sdr → sdr ≤ sdr' → 0 ≤ hdr →
      encode (real sdr') (real hdr) (real hdrRatio) ≤
        encode (real sdr) (real hdr) (real hdrRatio)) ∧
    (∀ sdr hdr : ℝ, 0 < sdr →
      (encode (real sdr) (real hdr) (real hdrRatio) = 255 ↔ hdrRatio * sdr ≤ hdr)) ∧
    (∀ sdr hdr : ℝ, 0 < sdr → 0 < hdr →
      (encode (real sdr) (real hdr) (real hdrRatio)).toNat +
          (encode (real hdr) (real sdr) (real hdrRatio)).toNat = 255 ∨
        (encode (real sdr) (real hdr) (real hdrRatio)).toNat +
          (encode (real hdr) (real sdr) (real hdrRatio)).toNat = 254) := by
  refine ⟨fun sdr hdr bright nonneg => ?_, fun sdr hdr sdr' hdr' bright bright' same => ?_,
    fun sdr hdr hdr' bright ordered => ?_, fun sdr sdr' hdr bright ordered nonneg => ?_,
    fun sdr hdr bright => ?_, fun sdr hdr bright lit => ?_⟩
  · refine ⟨ratio_of_nonneg bright nonneg above, ?_⟩
    rw [toNat_encode bright nonneg above, Int.natCast_floor_eq_floor]
    have lowest := neg_one_le_clampUnit
      (Elementary.log2 (real hdr / real sdr) / Elementary.log2 (real hdrRatio))
    linarith
  · exact encode_eq_of_div_eq bright bright' above same
  · exact encode_le_encode bright above ordered
  · exact encode_le_encode_of_sdr bright above nonneg ordered
  · exact encode_eq_last_iff bright above
  · exact toNat_encode_swap bright lit above

/-- Twice the light, where four times is the most, has half of the gain: 191.25 steps up, and
63.75 where the luminances change places. -/
theorem twice_of_four_times :
    1 < (4 : ℝ) ∧ (encode (real (1 / 4)) (real (1 / 2)) (real 4)).toNat = 191 ∧
      encode (real (1 / 4)) (real 1) (real 4) = 255 ∧
      (encode (real (1 / 2)) (real (1 / 4)) (real 4)).toNat ∈ [63, 64] := by
  have above : (1 : ℝ) < 4 := by norm_num
  obtain ⟨formula, _, _, _, last, swapped⟩ := encodes_gain_within_unit above
  have four : Real.logb 2 4 = 2 := by
    rw [show (4 : ℝ) = 2 ^ (2 : ℝ) by norm_num, Real.logb_rpow (by norm_num) (by norm_num)]
  have half : clampUnit (Elementary.log2 (real (1 / 2) / real (1 / 4)) /
      Elementary.log2 (real 4)) = 1 / 2 := by
    rw [real_div (by norm_num), log2_real (by norm_num), log2_real (by norm_num), four,
      real_div (by norm_num), clampUnit]
    norm_num
  have level : (encode (real (1 / 4)) (real (1 / 2)) (real 4)).toNat = 191 := by
    obtain ⟨_, floor⟩ := formula (1 / 4) (1 / 2) (by norm_num) (by norm_num)
    rw [half] at floor
    norm_num at floor
    exact_mod_cast floor
  refine ⟨above, level, (last (1 / 4) 1 (by norm_num)).mpr (by norm_num), ?_⟩
  have mirrored := swapped (1 / 4) (1 / 2) (by norm_num) (by norm_num)
  rw [level] at mirrored
  rw [List.mem_cons, List.mem_singleton]
  omega

end Gain

end HdrGain

namespace HdrGain.Gain

open Unrounded

variable {sdr hdr hdrRatio : ℝ}

/-- The gain that a byte stands for. -/
noncomputable def byteGain (byte : UInt8) : ℝ :=
  (byte.toNat - 127.5) / 127.5

theorem byteGain_mem (byte : UInt8) : -1 ≤ byteGain byte ∧ byteGain byte ≤ 1 := by
  have inside : (byte.toNat : ℝ) ≤ 255 := by exact_mod_cast Nat.le_of_lt_succ byte.toNat_lt
  have nonneg : (0 : ℝ) ≤ byte.toNat := Nat.cast_nonneg _
  unfold byteGain
  constructor
  · rw [le_div_iff₀ (by norm_num)]
    linarith
  · rw [div_le_iff₀ (by norm_num)]
    linarith

theorem floor_byteGain (byte : UInt8) : ⌊byteGain byte * 127.5 + 127.5⌋₊ = byte.toNat := by
  have level : byteGain byte * 127.5 + 127.5 = byte.toNat := by
    unfold byteGain
    ring
  rw [level, Nat.floor_natCast]

theorem apply_ofByte (bright : 0 < sdr) (above : 1 < hdrRatio) (byte : UInt8) :
    apply (real sdr) (ofByte byte) (real hdrRatio) = real (sdr * hdrRatio ^ byteGain byte) := by
  have positive : 0 < hdrRatio := one_pos.trans above
  have shining : (0.0 : Unrounded) ≤ real sdr := by
    rw [zero_eq, real_le]
    exact bright.le
  rw [apply, log2_real positive, ofByte_eq, applyLog_eq shining positive, real_mul]
  rfl

theorem target_mul_rpow (bright : 0 < sdr) (above : 1 < hdrRatio) {gain : ℝ} (lower : -1 ≤ gain)
    (upper : gain ≤ 1) : target sdr (sdr * hdrRatio ^ gain) hdrRatio = gain := by
  have positive : 0 < hdrRatio := one_pos.trans above
  rw [target, mul_div_cancel_left₀ _ bright.ne', Real.logb_rpow positive above.ne',
    min_eq_right upper, max_eq_right lower]

/-- The luminance that a byte takes an SDR luminance to is encoded as that byte. -/
theorem encode_apply_ofByte (bright : 0 < sdr) (above : 1 < hdrRatio) (byte : UInt8) :
    encode (real sdr) (apply (real sdr) (ofByte byte) (real hdrRatio)) (real hdrRatio) =
      byte := by
  obtain ⟨lower, upper⟩ := byteGain_mem byte
  have lit : 0 < sdr * hdrRatio ^ byteGain byte :=
    mul_pos bright (Real.rpow_pos_of_pos (one_pos.trans above) _)
  rw [apply_ofByte bright above, ← UInt8.toNat_inj, toNat_encode_lit bright above lit,
    target_mul_rpow bright above lower upper, floor_byteGain]

theorem byteGain_encode (bright : 0 < sdr) (lit : 0 < hdr) (above : 1 < hdrRatio) :
    byteGain (encode (real sdr) (real hdr) (real hdrRatio)) =
      quantised (target sdr hdr hdrRatio) := by
  rw [byteGain, toNat_encode_lit bright above lit, quantised]

/-- Encoding two luminances within the largest ratio of each other and applying the gain of the byte
gives back the HDR luminance, or less of it by a part below one step; applying the gain of any byte
and encoding the result gives back the byte. -/
theorem encode_and_apply_inverse (above : 1 < hdrRatio) (bright : 0 < sdr) :
    (∀ hdr, sdr / hdrRatio ≤ hdr → hdr ≤ hdrRatio * sdr →
      ∃ restored : ℝ,
        apply (real sdr) (ofByte (encode (real sdr) (real hdr) (real hdrRatio)))
          (real hdrRatio) = real restored ∧
        hdr * hdrRatio ^ (-(2 / 255) : ℝ) < restored ∧ restored ≤ hdr) ∧
    ∀ byte, encode (real sdr) (apply (real sdr) (ofByte byte) (real hdrRatio)) (real hdrRatio) =
      byte := by
  constructor
  · intro hdr lower upper
    have lit : 0 < hdr := (div_pos bright (one_pos.trans above)).trans_le lower
    refine ⟨_, apply_ofByte bright above _, ?_⟩
    rw [byteGain_encode bright lit above]
    rw [mul_comm] at upper
    exact mul_rpow_between bright lit above lower upper (lt_quantised _)
      (quantised_le (target_mem _ _ _).1)
  · exact encode_apply_ofByte bright above

/-- Where twice the light is the most, luminances that are equal lose half of a step, as there is
no byte for the gain between them. -/
theorem equal_luminances_restored :
    1 < (2 : ℝ) ∧ 0 < (1 : ℝ) ∧ (1 : ℝ) / 2 ≤ 1 ∧ (1 : ℝ) ≤ 2 * 1 ∧
      (∃ restored : ℝ,
        apply (real 1) (ofByte (encode (real 1) (real 1) (real 2))) (real 2) = real restored ∧
        1 * (2 : ℝ) ^ (-(2 / 255) : ℝ) < restored ∧ restored ≤ 1) ∧
      encode (real 1) (apply (real 1) (ofByte 127) (real 2)) (real 2) = 127 := by
  have above : (1 : ℝ) < 2 := by norm_num
  have lower : (1 : ℝ) / 2 ≤ 1 := by norm_num
  have upper : (1 : ℝ) ≤ 2 * 1 := by norm_num
  obtain ⟨restores, recovers⟩ := encode_and_apply_inverse above one_pos
  exact ⟨above, one_pos, lower, upper, restores 1 lower upper, recovers 127⟩

end HdrGain.Gain
