import HdrGain.Proofs.Scalar.Binary32

namespace HdrGain.Rounding

open Float.Model Float.Model.UnpackedFloat

theorem roundsTo_self {sign : Sign} {mantissa : Nat} {exponent : ℤ}
    {positive : 0 < mantissa} (canonical : Canonical (.finite sign mantissa exponent positive)) :
    RoundsTo (signed sign (mantissa * 2 ^ exponent)) (signed sign (mantissa * 2 ^ exponent)) := by
  obtain ⟨fits, least, full⟩ := canonical
  have unit : (0 : ℚ) < 2 ^ exponent := zpow_pos (by norm_num) exponent
  refine RoundsTo.signed ⟨exponent, mantissa, least, rfl, ?_, ?_, ?_, ?_⟩ sign
  · refine full.imp_left fun long => ?_
    rw [abs_of_nonneg (by positivity), zpow_add₀ (by norm_num), mul_comm]
    exact mul_le_mul_of_nonneg_right (by exact_mod_cast long) unit.le
  · rw [abs_of_nonneg (by positivity), zpow_add₀ (by norm_num), mul_comm (2 ^ exponent : ℚ)]
    exact mul_lt_mul_of_pos_right (by exact_mod_cast fits) unit
  · rw [Int.cast_natCast, sub_self, abs_zero]
    positivity
  · intro tie
    rw [Int.cast_natCast, sub_self, abs_zero] at tie
    linarith

theorem rounded_self {unpacked : UnpackedFloat} {value : ℚ} (canonical : Canonical unpacked)
    (stands : number? unpacked = some value) : Rounded unpacked value := by
  rcases number?_eq_some stands with ⟨sign, rfl, rfl⟩ |
    ⟨sign, mantissa, exponent, positive, rfl, rfl⟩
  · exact rounded_zero sign
  · exact ⟨_, stands, canonical, roundsTo_self canonical⟩

theorem rounded_round {mantissa : Nat} (positive : 0 < mantissa) (sign : Sign) (exponent : ℤ) :
    Rounded (round Format.binary32 sign mantissa exponent)
      (signed sign (mantissa * 2 ^ exponent)) := by
  obtain ⟨shift, shifted⟩ :
      ∃ shift, shift = (exponent - gridExponent mantissa exponent).toNat := ⟨_, rfl⟩
  have unfolded : round Format.binary32 sign mantissa exponent =
      roundWithAccuracy Format.binary32 sign (mantissa * 2 ^ shift) (exponent - shift)
        .exact := by
    simp only [UnpackedFloat.round, decreaseExponent, targetExponent_eq, ← shifted,
      Nat.shiftLeft_eq]
  have enough : 23 ≤ (mantissa * 2 ^ shift).log2 ∨ exponent - shift ≤ -149 := by
    by_cases finest : gridExponent mantissa exponent = -149
    · right
      omega
    · left
      have leading := leading_eq_of_coarse finest
      have places : 23 ≤ mantissa.log2 + shift := by omega
      have long : 2 ^ 23 ≤ 2 ^ (mantissa.log2 + shift) :=
        Nat.pow_le_pow_right (by decide) places
      rw [Nat.le_log2 (Nat.mul_pos positive (Nat.two_pow_pos shift)).ne']
      rw [pow_add] at long
      exact long.trans (Nat.mul_le_mul_right _ (Nat.log2_self_le positive.ne'))
  have value : (mantissa : ℚ) * 2 ^ exponent =
      (mantissa * 2 ^ shift : ℕ) * 2 ^ (exponent - shift) := by
    rw [zpow_sub₀ (by norm_num), zpow_natCast]
    push_cast
    field_simp
  rw [unfolded, value]
  exact roundWithAccuracy_spec sign .exact rfl enough

theorem rounded_normalize (mantissa exponent : ℤ) (zeroSign : Sign) :
    Rounded (UnpackedFloat.normalize Format.binary32 mantissa exponent zeroSign)
      (mantissa * 2 ^ exponent) := by
  rcases lt_trichotomy mantissa 0 with negative | rfl | positive
  · obtain ⟨magnitude, rfl⟩ : ∃ magnitude : ℕ, mantissa = -magnitude :=
      ⟨(-mantissa).toNat, by omega⟩
    have below : compare (-magnitude : ℤ) 0 = .lt := Int.compare_eq_lt.mpr negative
    simp only [UnpackedFloat.normalize, below, neg_neg, Int.toNat_natCast]
    rw [Int.cast_neg, neg_mul]
    exact rounded_round (by omega) .negative exponent
  · rw [Int.cast_zero, zero_mul]
    exact rounded_zero zeroSign
  · obtain ⟨magnitude, rfl⟩ := Int.eq_ofNat_of_zero_le positive.le
    have above : compare (magnitude : ℤ) 0 = .gt := Int.compare_eq_gt.mpr positive
    simp only [UnpackedFloat.normalize, above, Int.toNat_natCast]
    exact rounded_round (by omega) .positive exponent

/-- On a finer grid a mantissa takes more places. -/
theorem decreaseExponent_apply (sign : Sign) (mantissa : Nat) {exponent target : ℤ}
    (finer : target ≤ exponent) :
    ((sign.apply (decreaseExponent mantissa exponent target).1 : ℤ) : ℚ) * 2 ^ target =
      signed sign (mantissa * 2 ^ exponent) := by
  obtain ⟨places, rfl⟩ : ∃ places : ℕ, exponent = target + places :=
    ⟨(exponent - target).toNat, by omega⟩
  have shift : target + places - target = places := by omega
  simp only [decreaseExponent, shift, Int.toNat_natCast, Nat.shiftLeft_eq]
  rw [zpow_add₀ (by norm_num), zpow_natCast]
  cases sign with
  | positive =>
      simp only [Sign.apply, signed]
      push_cast
      ring
  | negative =>
      simp only [Sign.apply, signed]
      push_cast
      ring

theorem rounded_add {first second : UnpackedFloat} {value value' : ℚ}
    (canonical : Canonical first) (canonical' : Canonical second)
    (stands : number? first = some value) (stands' : number? second = some value') :
    Rounded (first.add Format.binary32 second) (value + value') := by
  rcases number?_eq_some stands with ⟨sign, rfl, rfl⟩ |
    ⟨sign, mantissa, exponent, positive, rfl, rfl⟩
  · rw [zero_add]
    rcases number?_eq_some stands' with ⟨sign', rfl, rfl⟩ |
      ⟨sign', mantissa', exponent', positive', rfl, rfl⟩
    · simp only [UnpackedFloat.add]
      split
      · exact rounded_zero _
      · exact rounded_zero _
    · exact rounded_self canonical' stands'
  · rcases number?_eq_some stands' with ⟨sign', rfl, rfl⟩ |
      ⟨sign', mantissa', exponent', positive', rfl, rfl⟩
    · rw [add_zero]
      exact rounded_self canonical stands
    · have aligned := decreaseExponent_apply sign mantissa (min_le_left exponent exponent')
      have aligned' := decreaseExponent_apply sign' mantissa' (min_le_right exponent exponent')
      rw [← aligned, ← aligned', ← add_mul, ← Int.cast_add]
      exact rounded_normalize _ _ .positive

theorem number?_neg (unpacked : UnpackedFloat) :
    number? unpacked.neg = (number? unpacked).map (- ·) := by
  cases unpacked with
  | notANumber | infinity sign => rfl
  | zero sign => exact congrArg some neg_zero.symm
  | finite sign mantissa exponent positive =>
      cases sign with
      | positive => rfl
      | negative => exact congrArg some (neg_neg _).symm

theorem canonical_neg {unpacked : UnpackedFloat} (canonical : Canonical unpacked) :
    Canonical unpacked.neg := by
  cases unpacked <;> exact canonical

theorem sub_eq_add (first second : UnpackedFloat) :
    first.sub Format.binary32 second = first.add Format.binary32 second.neg := by
  have apply_neg (sign : Sign) (value : ℤ) : (-sign).apply value = -sign.apply value := by
    cases sign with
    | positive => rfl
    | negative => exact (neg_neg value).symm
  cases first <;> cases second <;> try rfl
  simp only [UnpackedFloat.sub, UnpackedFloat.add, UnpackedFloat.neg, apply_neg]
  rfl

theorem numberOf?_add {first second : Float32} {value value' : ℚ}
    (stands : numberOf? first = some value) (stands' : numberOf? second = some value')
    (bound : |value + value'| ≤ 2 ^ 127) :
    ∃ result, numberOf? (first + second) = some result ∧ RoundsTo (value + value') result :=
  (rounded_add (canonical_unpack _) (canonical_unpack _) stands stands').numberOf?_pack bound

theorem numberOf?_sub {first second : Float32} {value value' : ℚ}
    (stands : numberOf? first = some value) (stands' : numberOf? second = some value')
    (bound : |value - value'| ≤ 2 ^ 127) :
    ∃ result, numberOf? (first - second) = some result ∧ RoundsTo (value - value') result := by
  have stands'' : number? second.toModel.unpack.neg = some (-value') := by
    rw [number?_neg, show number? second.toModel.unpack = some value' from stands']
    rfl
  have rounded := rounded_add (canonical_unpack first.toModel)
    (canonical_neg (canonical_unpack second.toModel)) stands stands''
  rw [← sub_eq_add, ← sub_eq_add_neg] at rounded
  exact rounded.numberOf?_pack bound

end HdrGain.Rounding
