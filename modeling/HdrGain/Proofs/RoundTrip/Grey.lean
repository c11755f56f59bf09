import HdrGain.Proofs.Gain.Encoding
import HdrGain.Proofs.RoundTrip.Restoration
import HdrGain.Proofs.Transfer.Order

namespace HdrGain

open Unrounded

namespace Transfer

/-- The light that a signal is encoded for: none where the curve gives less than none. -/
noncomputable def brightness (transfer : HdrTransfer) (signal : ℝ) : ℝ :=
  match transfer with
  | .hlg => Hlg.light signal
  | .pq => if 0 < signal ∧ signal * 10000.0 < 1 then Pq.light signal else 0

theorem brightness_nonneg (transfer : HdrTransfer) (signal : ℝ) :
    0 ≤ brightness transfer signal := by
  cases transfer with
  | hlg => exact Hlg.light_nonneg signal
  | pq =>
      simp only [brightness]
      split
      · rename_i inside
        exact (Pq.light_pos inside.1 inside.2).le
      · exact le_rfl

/-- What is decoded is the brightness, or nothing that is encoded otherwise than no light. -/
theorem decode_cases (transfer : HdrTransfer) (signal : ℝ) :
    transfer.decode (real signal) = real (brightness transfer signal) ∨
      brightness transfer signal = 0 ∧ ((∃ dark, dark ≤ 0 ∧ transfer.decode (real signal) =
        real dark) ∨ (transfer.decode (real signal)).Sunk) := by
  cases transfer with
  | hlg => exact .inl (Hlg.decode_eq signal)
  | pq =>
      simp only [brightness]
      by_cases inside : 0 < signal ∧ signal * 10000.0 < 1
      · rw [if_pos inside]
        exact .inl (Pq.decodeLog_eq inside.1 inside.2.ne)
      · rw [if_neg inside]
        refine .inr ⟨rfl, ?_⟩
        rcases lt_trichotomy signal 0 with negative | rfl | positive
        · exact .inr (.inr (Pq.decodeLog_negative negative))
        · exact .inl ⟨0, le_rfl, Pq.decodeLog_zero⟩
        · have past : 1 ≤ signal * 10000.0 := not_lt.mp fun below => inside ⟨positive, below⟩
          rcases past.lt_or_eq with above | pole
          · exact .inl ⟨_, (Pq.light_neg above).le, Pq.decodeLog_eq positive above.ne'⟩
          · exact .inr (.inl (Pq.decodeLog_pole pole.symm))

theorem brightness_pq_le_iff {first second : ℝ} (nonneg : 0 ≤ first) (ordered : first ≤ second) :
    brightness .pq first ≤ brightness .pq second ↔
      first = 0 ∨ second < 1 / 10000 ∨ 1 / 10000 ≤ first := by
  have place (signal : ℝ) : signal * 10000.0 < 1 ↔ signal < 1 / 10000 := by
    rw [lt_div_iff₀ (by norm_num)]
    norm_num
  have bright := brightness_nonneg .pq second
  simp only [brightness, place] at bright ⊢
  constructor
  · intro kept
    by_contra! apart
    obtain ⟨lit, reached, below⟩ := apart
    have positive : 0 < first := lt_of_le_of_ne nonneg (Ne.symm lit)
    rw [if_pos ⟨positive, below⟩, if_neg fun inside => inside.2.not_ge reached] at kept
    exact kept.not_gt (Pq.light_pos positive ((place first).mpr below))
  · intro cases
    rcases cases with rfl | below | past
    · rw [if_neg fun inside => lt_irrefl _ inside.1]
      exact bright
    · rcases nonneg.lt_or_eq with positive | rfl
      · rw [if_pos ⟨positive, ordered.trans_lt below⟩, if_pos ⟨positive.trans_le ordered, below⟩]
        exact Pq.light_le_light positive ordered ((place second).mpr below)
      · rw [if_neg fun inside => lt_irrefl _ inside.1]
        exact bright
    · rw [if_neg fun inside => inside.2.not_ge past]
      exact bright

end Transfer

namespace Codec

/-- The byte for a grey HDR signal against an SDR luminance. -/
def greyByte {α : Type} [Scalar α] [Elementary α] (codec : Codec α) (sdr signal : α) : UInt8 :=
  codec.gainByte sdr (codec.luminance (codec.toSdrGamut (codec.linearise (Color.splat signal))))

variable {codec : Codec Unrounded} {config : Config Unrounded}

/-- Grey comes through conversion and luminance in proportion to its brightness. -/
theorem greyByte_eq (usable : Codec.ofConfig config = .ok codec) :
    ∃ share ratio : ℝ, 0 < share ∧ 1 < ratio ∧ ∀ sdr signal : ℝ, 0 < sdr →
      codec.greyByte (real sdr) (real signal) = Gain.encode (real sdr)
        (real (share * Transfer.brightness config.hdrTransfer signal)) (real ratio) := by
  obtain ⟨ratio, above, stands, log⟩ := exists_ratio usable
  obtain ⟨same, _⟩ := config_of_ofConfig usable
  obtain ⟨converts, _, _⟩ := parts_of_ofConfig usable
  obtain ⟨weights, weighs, positive⟩ := luminanceWeights_positive usable
  obtain ⟨shares, grey, linear⟩ := Gamut.luminance_convert converts positive
  refine ⟨shares.r + shares.g + shares.b, ratio, grey, above, fun sdr signal bright => ?_⟩
  have byte : codec.greyByte (real sdr) (real signal) = Gain.encode (real sdr)
      ((weights.map real).dot
        (codec.toSdrGamut (Color.splat (config.hdrTransfer.decode (real signal)))))
      (real ratio) := by
    rw [greyByte, gainByte, luminance, linearise, weighs, same, stands, log,
      ← log2_real (one_pos.trans above)]
    rfl
  have proportion (light : ℝ) :
      (weights.map real).dot (codec.toSdrGamut (Color.splat (real light))) =
        real ((shares.r + shares.g + shares.b) * light) := by
    rw [add_mul, add_mul]
    exact linear (Color.splat light)
  rw [byte]
  rcases Transfer.decode_cases config.hdrTransfer signal with light | ⟨none, dark | sunk⟩
  · rw [light, proportion]
  · obtain ⟨dark, nonpos, decoded⟩ := dark
    rw [decoded, proportion, none, mul_zero, Gain.encode_dark bright above le_rfl]
    exact Gain.encode_dark bright above (mul_nonpos_of_nonneg_of_nonpos grey.le nonpos)
  · rw [none, mul_zero, Gain.encode_dark bright above le_rfl]
    exact Gain.encode_sunk bright above
      (Color.dot_sunk positive (Gamut.hasSunk_convert converts (.inl sunk)))

/-- Two greys are encoded in their order against every SDR luminance exactly if their brightness is
in order. -/
theorem greyByte_le_iff (usable : Codec.ofConfig config = .ok codec) (first second : ℝ) :
    (∀ sdr : ℝ, 0 < sdr →
      codec.greyByte (real sdr) (real first) ≤ codec.greyByte (real sdr) (real second)) ↔
      Transfer.brightness config.hdrTransfer first ≤
        Transfer.brightness config.hdrTransfer second := by
  obtain ⟨share, ratio, positive, above, byte⟩ := greyByte_eq usable
  have nonneg := mul_nonneg positive.le (Transfer.brightness_nonneg config.hdrTransfer second)
  rw [← mul_le_mul_iff_of_pos_left positive, ← Gain.encode_le_encode_iff above nonneg]
  constructor
  · intro ordered sdr bright
    rw [← byte sdr first bright, ← byte sdr second bright]
    exact ordered sdr bright
  · intro ordered sdr bright
    rw [byte sdr first bright, byte sdr second bright]
    exact ordered sdr bright

/-- Which greys keep their order, whatever the ratio, the scale and the gamuts. Under hybrid
log-gamma these are all that the curve keeps in order, and so all but those from the two sides of
its knee that are closer to it than `5e-10`. Under the logarithmic stand-in for the perceptual
quantizer the darker one is black or the brighter one lies before the pole at a ten-thousandth, or
both lie behind. -/
theorem grey_ordered_exactly (usable : Codec.ofConfig config = .ok codec) {first second : ℝ}
    (nonneg : 0 ≤ first) (ordered : first ≤ second) :
    match config.hdrTransfer with
    | .hlg =>
        ((∀ sdr : ℝ, 0 < sdr →
          codec.greyByte (real sdr) (real first) ≤ codec.greyByte (real sdr) (real second)) ↔
          Transfer.Hlg.light first ≤ Transfer.Hlg.light second) ∧
        (¬ (1 / 2 - 5e-10 < first ∧ first ≤ 1 / 2 ∧ 1 / 2 < second ∧ second < 1 / 2 + 5e-10) →
          ∀ sdr : ℝ, 0 < sdr →
            codec.greyByte (real sdr) (real first) ≤ codec.greyByte (real sdr) (real second))
    | .pq =>
        (∀ sdr : ℝ, 0 < sdr →
          codec.greyByte (real sdr) (real first) ≤ codec.greyByte (real sdr) (real second)) ↔
          first = 0 ∨ second < 1 / 10000 ∨ 1 / 10000 ≤ first := by
  have exactly := greyByte_le_iff usable first second
  cases curve : config.hdrTransfer with
  | hlg =>
      rw [curve] at exactly
      exact ⟨exactly, fun apart =>
        exactly.mpr (Transfer.Hlg.light_le_light nonneg ordered apart)⟩
  | pq =>
      rw [curve, Transfer.brightness_pq_le_iff nonneg ordered] at exactly
      exact exactly

/-- A codec that leaves grey as it is. -/
theorem exists_bt709 (transfer : HdrTransfer) :
    ∃ codec : Codec Unrounded,
      Codec.ofConfig ⟨2.0, 4, .bt709, .bt709, transfer, .legacy⟩ = .ok codec ∧
      ∀ sdr signal light : ℝ, transfer.decode (real signal) = real light →
        codec.greyByte (real sdr) (real signal) =
          Gain.encode (real sdr) (real light) (real 2) := by
  have two : (2.0 : Unrounded) = real 2 := by
    rw [ofScientific_eq]
    norm_num
  have checked : Config.validate (α := Unrounded) ⟨2.0, 4, .bt709, .bt709, transfer, .legacy⟩ =
      .ok () := by
    refine Config.validate_eq_ok_iff.mpr ⟨⟨rfl, ?_⟩, Nat.succ_pos 3, rfl, rfl⟩
    rw [two, ofScientific_eq, real_le]
    norm_num
  refine ⟨_, ofConfig_eq checked rfl rfl, fun sdr signal light decoded => ?_⟩
  have luminance : Color.dot Gamut.bt709Weights (Color.splat (transfer.decode (real signal))) =
      real light := by
    rw [decoded, Gamut.bt709Weights_dot_splat]
  rw [← two, ← luminance]
  rfl

/-- Both sides of the knee, a quarter away from it. -/
theorem quarter_le_three_quarters :
    ∃ codec : Codec Unrounded,
      Codec.ofConfig ⟨2.0, 4, .bt709, .bt709, .hlg, .legacy⟩ = .ok codec ∧
      ∀ sdr : ℝ, 0 < sdr →
        codec.greyByte (real sdr) (real (1 / 4)) ≤ codec.greyByte (real sdr) (real (3 / 4)) := by
  obtain ⟨codec, usable, _⟩ := exists_bt709 .hlg
  exact ⟨codec, usable,
    (grey_ordered_exactly usable (by norm_num) (by norm_num)).2 (by norm_num)⟩

/-- A grey past the pole gets a smaller byte than a darker one before it, and a grey past the knee a
smaller byte than the grey at it. -/
theorem brighter_grey_smaller_byte :
    (∃ codec : Codec Unrounded,
      Codec.ofConfig ⟨2.0, 4, .bt709, .bt709, .pq, .legacy⟩ = .ok codec ∧
      codec.greyByte (real 1.0377286) (real (1 / 2)) <
        codec.greyByte (real 1.0377286) (real (1 / 20000))) ∧
    ∃ codec : Codec Unrounded,
      Codec.ofConfig ⟨2.0, 4, .bt709, .bt709, .hlg, .legacy⟩ = .ok codec ∧
      codec.greyByte (real (1 / 24)) (real (1 / 2 + 1e-10)) <
        codec.greyByte (real (1 / 24)) (real (1 / 2)) := by
  constructor
  · obtain ⟨codec, usable, byte⟩ := exists_bt709 .pq
    have before : Transfer.Pq.light (1 / 20000) = 2.0754572 := by
      have halved : Real.logb 2.0 (1 / 20000 * 10000.0) = -1 := by
        have product : (1 / 20000 * 10000.0 : ℝ) = 2.0⁻¹ := by norm_num
        rw [product, Real.logb_inv, Real.logb_self_eq_one (by norm_num)]
      rw [Transfer.Pq.light, halved]
      norm_num
    have behind : Transfer.Pq.light (1 / 2) < 0 := Transfer.Pq.light_neg (by norm_num)
    have halves : (1.0377286 : ℝ) = 2.0754572 / 2 := by norm_num
    refine ⟨codec, usable, ?_⟩
    rw [byte _ _ _ (Transfer.Pq.decodeLog_eq (by norm_num) (by norm_num)),
      byte _ _ _ (Transfer.Pq.decodeLog_eq (by norm_num) (by norm_num)), before, halves]
    exact Gain.encode_lt_brightest (by norm_num) one_lt_two (behind.trans (by norm_num))
  · obtain ⟨codec, usable, byte⟩ := exists_bt709 .hlg
    have knee : Transfer.Hlg.light (1 / 2) = 1 / 12 := by
      rw [Transfer.Hlg.light_of_le le_rfl]
      norm_num
    have falls := Transfer.Hlg.light_past_knee_lt
    have halves : (1 / 24 : ℝ) = 1 / 12 / 2 := by norm_num
    refine ⟨codec, usable, ?_⟩
    rw [byte _ _ _ (Transfer.Hlg.decode_eq _), byte _ _ _ (Transfer.Hlg.decode_eq _), halves]
    rw [knee] at falls ⊢
    exact Gain.encode_lt_brightest (by norm_num) one_lt_two falls

end Codec

end HdrGain
