import HdrGain.Config
import HdrGain.Proofs.Scalar.Logarithms

namespace HdrGain

open Rounding

theorem Config.exists_ratio {config : Config Float32} (accepted : config.validate = .ok ()) :
    ∃ ratio : ℚ, numberOf? config.hdrRatio = some ratio ∧ 1 < ratio := by
  obtain ⟨⟨finite, large⟩, _⟩ := Config.validate_eq_ok_iff.mp accepted
  obtain ⟨ratio, stands⟩ := isFinite_iff.mp finite
  rw [le_iff stands numberOf?_unit, not_le] at large
  exact ⟨ratio, stands, large⟩

namespace Gain

section Limits

variable {α : Type} [Scalar α]

/-- The ratio of two luminances before it is limited. -/
def quotient (sdr hdr : α) : α :=
  if sdr > 0.0 then hdr / sdr else 1.0

def limited (quotient hdrRatio : α) : α :=
  let raised := if quotient < -hdrRatio then -hdrRatio else quotient
  if raised > hdrRatio then hdrRatio else raised

/-- The upper limit without the lower one. -/
def capped (quotient hdrRatio : α) : α :=
  if quotient > hdrRatio then hdrRatio else quotient

theorem ratio_eq_limited (sdr hdr hdrRatio : α) :
    ratio sdr hdr hdrRatio = limited (quotient sdr hdr) hdrRatio := rfl

/-- The byte for two luminances whose ratio has no lower limit. -/
def encodeCapped [Elementary α] (sdr hdr hdrRatio : α) : UInt8 :=
  toByte (Elementary.log2 (capped (quotient sdr hdr) hdrRatio) / Elementary.log2 hdrRatio)

end Limits

variable {sdr hdr hdrRatio gain part : Float32} {ratio : ℚ}

theorem toByte_of_isNaN (none : gain.isNaN = true) : toByte gain = 0 := by
  rw [eq_nan none]
  decide

section Logarithm

variable [Elementary Float32] (ends : LogarithmEnds)

include ends

/-- Below the lower limit there is no gain, whether the limit is kept or not. -/
theorem isNaN_log2_of_lt (below : part < -hdrRatio) :
    (Elementary.log2 (limited part hdrRatio) / Elementary.log2 hdrRatio).isNaN = true ∧
      (Elementary.log2 (capped part hdrRatio) / Elementary.log2 hdrRatio).isNaN = true := by
  have without (none : (Elementary.log2 hdrRatio).isNaN = true) :
      (Elementary.log2 (limited part hdrRatio) / Elementary.log2 hdrRatio).isNaN = true ∧
        (Elementary.log2 (capped part hdrRatio) / Elementary.log2 hdrRatio).isNaN = true :=
    ⟨isNaN_div_of_divisor none, isNaN_div_of_divisor none⟩
  rcases isNaN_or_extended hdrRatio with none | ⟨limit, located⟩
  · exact without (ends.log2_isNaN _ none)
  · rcases lt_or_ge limit 0 with negative | nonneg
    · exact without (ends.log2_negative _ ((lt_iff_extended located extended?_zero).mpr negative))
    · -- the ratio is below zero, and what it is raised to is not above
      have opposite := extended?_neg located
      obtain ⟨⟨place, found⟩, _⟩ := exists_extended_of_lt below
      have least : -limit ≤ 0 := EReal.neg_le_zero.mpr nonneg
      have dark : place < 0 := ((lt_iff_extended found opposite).mp below).trans_le least
      have kept : capped part hdrRatio = part :=
        if_neg (mt (lt_iff_extended located found).mp (dark.trans_le nonneg).not_gt)
      have raised : limited part hdrRatio = -hdrRatio := by
        rw [limited, if_pos below]
        exact if_neg (mt (lt_iff_extended located opposite).mp (least.trans nonneg).not_gt)
      rw [kept, raised]
      refine ⟨?_, isNaN_div_of_dividend
        (ends.log2_negative _ ((lt_iff_extended found extended?_zero).mpr dark))⟩
      rcases nonneg.lt_or_eq with positive | rfl
      · exact isNaN_div_of_dividend (ends.log2_negative _
          ((lt_iff_extended opposite extended?_zero).mpr (EReal.neg_lt_zero.mpr positive)))
      · -- a limit of zero is its own opposite, and both logarithms are at the lower end
        rw [neg_zero] at opposite
        have zero {value : Float32} (nothing : extended? value = some 0) :
            Elementary.log2 value = -Float32.inf :=
          ends.log2_zero value ((le_iff_extended extended?_zero nothing).mpr le_rfl)
            ((le_iff_extended nothing extended?_zero).mpr le_rfl)
        rw [zero located, zero opposite]
        decide

/-- The lower limit changes no byte. -/
theorem encode_eq_encodeCapped (sdr hdr hdrRatio : Float32) :
    encode sdr hdr hdrRatio = encodeCapped sdr hdr hdrRatio := by
  rw [encode, encodeLog, encodeCapped, ratio_eq_limited]
  by_cases below : quotient sdr hdr < -hdrRatio
  · obtain ⟨without, within⟩ := isNaN_log2_of_lt ends below
    rw [toByte_of_isNaN without, toByte_of_isNaN within]
  · have same : limited (quotient sdr hdr) hdrRatio = capped (quotient sdr hdr) hdrRatio := by
      rw [limited, if_neg below]
      rfl
    rw [same]

end Logarithm

section Usable

variable (usable : numberOf? hdrRatio = some ratio) (above : 1 < ratio)

include usable above

/-- What has reached a usable limit is brought to it. -/
theorem capped_of_le (reached : hdrRatio ≤ part) : capped part hdrRatio = hdrRatio := by
  by_cases beyond : hdrRatio < part
  · exact if_pos beyond
  · obtain ⟨-, place, found⟩ := exists_extended_of_le reached
    have located := extended?_of_number usable
    have same : place = ((ratio : ℝ) : EReal) :=
      le_antisymm (not_lt.mp (mt (lt_iff_extended located found).mpr beyond))
        ((le_iff_extended located found).mp reached)
    rw [same] at found
    refine (if_neg beyond).trans (eq_of_extended? found located ?_)
    exact_mod_cast (zero_lt_one.trans above).ne'

theorem capped_of_nothing (nothing : part.isNaN = true ∨ part ≤ 0.0) :
    capped part hdrRatio = part := by
  refine if_neg fun beyond => ?_
  obtain ⟨-, place, found⟩ := exists_extended_of_lt beyond
  rcases nothing with none | dark
  · cases (extended?_of_isNaN none).symm.trans found
  · have least := (le_iff_extended found extended?_zero).mp dark
    have most := (lt_iff_extended (extended?_of_number usable) found).mp beyond
    have positive : (0 : EReal) < ((ratio : ℝ) : EReal) := by
      exact_mod_cast zero_lt_one.trans above
    exact (positive.trans most).not_ge least

theorem capped_one : capped 1.0 hdrRatio = 1.0 :=
  if_neg (mt (lt_iff usable numberOf?_unit).mp above.not_gt)

variable [Elementary Float32] (library : RatioLogarithm)

include library

theorem exists_log2 :
    ∃ scale, numberOf? (Elementary.log2 hdrRatio) = some scale ∧ 0 < scale := by
  obtain ⟨positive, finite⟩ := library.log2_above hdrRatio
    ((lt_iff numberOf?_unit usable).mpr above) (isFinite_iff.mpr ⟨ratio, usable⟩)
  obtain ⟨scale, stands⟩ := isFinite_iff.mp finite
  exact ⟨scale, stands, (lt_iff numberOf?_zero stands).mp positive⟩

theorem encode_of_dark (dark : ¬ 0.0 < sdr) : encode sdr hdr hdrRatio = 127 := by
  obtain ⟨scale, stands, positive⟩ := exists_log2 usable above library
  have same : quotient sdr hdr = 1.0 := if_neg dark
  rw [encode_eq_encodeCapped library.toLogarithmEnds, encodeCapped, same,
    capped_one usable above, library.log2_one, zero_div_of_pos stands positive]
  decide

/-- What has no logarithm, or the lowest, is encoded as the lowest byte. -/
theorem encode_of_nothing (lit : 0.0 < sdr)
    (nothing : (hdr / sdr).isNaN = true ∨ hdr / sdr ≤ 0.0) : encode sdr hdr hdrRatio = 0 := by
  obtain ⟨scale, stands, positive⟩ := exists_log2 usable above library
  have same : quotient sdr hdr = hdr / sdr := if_pos lit
  have lowest (none : (Elementary.log2 (hdr / sdr)).isNaN = true) :
      toByte (Elementary.log2 (hdr / sdr) / Elementary.log2 hdrRatio) = 0 :=
    toByte_of_isNaN (isNaN_div_of_dividend none)
  rw [encode_eq_encodeCapped library.toLogarithmEnds, encodeCapped, same,
    capped_of_nothing usable above nothing]
  rcases nothing with none | dark
  · exact lowest (library.log2_isNaN _ none)
  · obtain ⟨⟨place, found⟩, -⟩ := exists_extended_of_le dark
    rcases lt_or_ge place 0 with negative | nonneg
    · exact lowest (library.log2_negative _ ((lt_iff_extended found extended?_zero).mpr negative))
    · rw [library.log2_zero _ ((le_iff_extended extended?_zero found).mpr nonneg) dark,
        bottom_div_of_pos stands positive]
      decide

theorem encode_of_reached (lit : 0.0 < sdr) (reached : hdrRatio ≤ hdr / sdr) :
    encode sdr hdr hdrRatio = 255 := by
  obtain ⟨scale, stands, positive⟩ := exists_log2 usable above library
  have same : quotient sdr hdr = hdr / sdr := if_pos lit
  rw [encode_eq_encodeCapped library.toLogarithmEnds, encodeCapped, same,
    capped_of_le usable above reached, div_self_of_number stands positive.ne']
  decide

end Usable

/-- The lower limit of the ratio never counts, whatever the three floats are. Under a usable ratio
no SDR light is encoded as an equal ratio. Against any other, the byte is the lowest where the ratio
is not above zero or no number, and the highest where it has reached the limit or lies at the upper
end. -/
theorem upper_limit_alone_counts [Elementary Float32] (library : RatioLogarithm) :
    (∀ sdr hdr hdrRatio : Float32, encode sdr hdr hdrRatio = encodeCapped sdr hdr hdrRatio) ∧
      ∀ config : Config Float32, config.validate = .ok () → ∀ sdr hdr : Float32,
        (¬ 0.0 < sdr → encode sdr hdr config.hdrRatio = 127) ∧
          (0.0 < sdr → (hdr / sdr).isNaN = true ∨ hdr / sdr ≤ 0.0 →
            encode sdr hdr config.hdrRatio = 0) ∧
          (0.0 < sdr → config.hdrRatio ≤ hdr / sdr →
            encode sdr hdr config.hdrRatio = 255) := by
  refine ⟨encode_eq_encodeCapped library.toLogarithmEnds, fun config accepted sdr hdr => ?_⟩
  obtain ⟨ratio, usable, above⟩ := Config.exists_ratio accepted
  exact ⟨encode_of_dark usable above library, encode_of_nothing usable above library,
    encode_of_reached usable above library⟩

/-- Darkness, light below zero and endless light under the default ratio. -/
theorem extremes_of_default_ratio :
    ∃ _ : Elementary Float32, RatioLogarithm ∧ (default : Config Float32).validate = .ok () ∧
      encode (-1.0) Float32.nan (default : Config Float32).hdrRatio = 127 ∧
      encode 1.0 (-2.0) (default : Config Float32).hdrRatio = 0 ∧
      encode 1.0 Float32.inf (default : Config Float32).hdrRatio = 255 ∧
      encode (1.0 : Float32) (-2.0) (-0.5) = encodeCapped (1.0 : Float32) (-2.0) (-0.5) := by
  refine ⟨Chords.elementary, Chords.ratioLogarithm, rfl, ?_⟩
  let _ := Chords.elementary
  obtain ⟨same, settled⟩ := upper_limit_alone_counts Chords.ratioLogarithm
  have settled := settled default rfl
  exact ⟨(settled (-1.0) Float32.nan).1 (by decide),
    (settled 1.0 (-2.0)).2.1 (by decide) (.inr (by decide)),
    (settled 1.0 Float32.inf).2.2 (by decide) (by decide), same 1.0 (-2.0) (-0.5)⟩

end Gain

end HdrGain
