import HdrGain.Proofs.Scalar.Sums

namespace HdrGain.Rounding

open Float.Model Float.Model.UnpackedFloat

/-- A larger exponent outweighs every mantissa. -/
theorem magnitude_lt_of_exponent_lt {mantissa mantissa' : Nat} {exponent exponent' : ℤ}
    (short : mantissa < 2 ^ 24) (least : -149 ≤ exponent)
    (full : 2 ^ 23 ≤ mantissa' ∨ exponent' = -149) (less : exponent < exponent') :
    (mantissa : ℚ) * 2 ^ exponent < mantissa' * 2 ^ exponent' := by
  have long : ((2 ^ 23 : ℕ) : ℚ) ≤ mantissa' :=
    Nat.cast_le.mpr (full.resolve_right (by omega))
  have unit : (0 : ℚ) < 2 ^ exponent := zpow_pos (by norm_num) exponent
  calc (mantissa : ℚ) * 2 ^ exponent
      < (2 ^ 24 : ℕ) * 2 ^ exponent :=
        mul_lt_mul_of_pos_right (Nat.cast_lt.mpr short) unit
    _ = (2 ^ 23 : ℕ) * 2 ^ (exponent + 1) := by
        rw [zpow_add₀ (by norm_num)]
        norm_num
        ring
    _ ≤ (2 ^ 23 : ℕ) * 2 ^ exponent' :=
        mul_le_mul_of_nonneg_left (zpow_le_zpow_right₀ (by norm_num) (by omega)) (by positivity)
    _ ≤ mantissa' * 2 ^ exponent' := mul_le_mul_of_nonneg_right long (by positivity)

theorem compare_magnitudes {sign sign' : Sign} {mantissa mantissa' : Nat} {exponent exponent' : ℤ}
    {positive : 0 < mantissa} {positive' : 0 < mantissa'}
    (canonical : Canonical (.finite sign mantissa exponent positive))
    (canonical' : Canonical (.finite sign' mantissa' exponent' positive')) :
    (compare exponent exponent').then (compare mantissa mantissa') =
      compare ((mantissa : ℚ) * 2 ^ exponent) (mantissa' * 2 ^ exponent') := by
  obtain ⟨short, least, full⟩ := canonical
  obtain ⟨short', least', full'⟩ := canonical'
  rcases lt_trichotomy exponent exponent' with less | rfl | greater
  · rw [compare_lt_iff_lt.mpr less,
      compare_lt_iff_lt.mpr (magnitude_lt_of_exponent_lt short least full' less)]
    rfl
  · have unit : (0 : ℚ) < 2 ^ exponent := zpow_pos (by norm_num) exponent
    rw [compare_eq_iff_eq.mpr rfl]
    change compare mantissa mantissa' = _
    rcases lt_trichotomy mantissa mantissa' with less | rfl | greater
    · rw [compare_lt_iff_lt.mpr less,
        compare_lt_iff_lt.mpr (mul_lt_mul_of_pos_right (Nat.cast_lt.mpr less) unit)]
    · rw [compare_eq_iff_eq.mpr rfl, compare_eq_iff_eq.mpr rfl]
    · rw [compare_gt_iff_gt.mpr greater,
        compare_gt_iff_gt.mpr (mul_lt_mul_of_pos_right (Nat.cast_lt.mpr greater) unit)]
  · rw [compare_gt_iff_gt.mpr greater,
      compare_gt_iff_gt.mpr (magnitude_lt_of_exponent_lt short' least' full greater)]
    rfl

theorem compare_neg_neg (first second : ℚ) :
    compare (-first) (-second) = (compare first second).swap := by
  rcases lt_trichotomy first second with less | rfl | greater
  · rw [compare_lt_iff_lt.mpr less, compare_gt_iff_gt.mpr (neg_lt_neg less)]
    rfl
  · rw [compare_eq_iff_eq.mpr rfl, compare_eq_iff_eq.mpr rfl]
    rfl
  · rw [compare_gt_iff_gt.mpr greater, compare_lt_iff_lt.mpr (neg_lt_neg greater)]
    rfl

theorem compare_eq {first second : UnpackedFloat} {value value' : ℚ}
    (canonical : Canonical first) (canonical' : Canonical second)
    (stands : number? first = some value) (stands' : number? second = some value') :
    first.compare second = some (compare value value') := by
  rcases number?_eq_some stands with ⟨sign, rfl, rfl⟩ |
    ⟨sign, mantissa, exponent, positive, rfl, rfl⟩
  · rcases number?_eq_some stands' with ⟨sign', rfl, rfl⟩ |
      ⟨sign', mantissa', exponent', positive', rfl, rfl⟩
    · rw [compare_eq_iff_eq.mpr rfl]
      rfl
    · have magnitude : (0 : ℚ) < mantissa' * 2 ^ exponent' := by positivity
      cases sign' with
      | positive => exact congrArg some (compare_lt_iff_lt.mpr magnitude).symm
      | negative => exact congrArg some (compare_gt_iff_gt.mpr (neg_lt_zero.mpr magnitude)).symm
  · have magnitude : (0 : ℚ) < mantissa * 2 ^ exponent := by positivity
    rcases number?_eq_some stands' with ⟨sign', rfl, rfl⟩ |
      ⟨sign', mantissa', exponent', positive', rfl, rfl⟩
    · cases sign with
      | positive => exact congrArg some (compare_gt_iff_gt.mpr magnitude).symm
      | negative => exact congrArg some (compare_lt_iff_lt.mpr (neg_lt_zero.mpr magnitude)).symm
    · have magnitude' : (0 : ℚ) < mantissa' * 2 ^ exponent' := by positivity
      have magnitudes := compare_magnitudes canonical canonical'
      cases sign with
      | positive =>
          cases sign' with
          | positive => exact congrArg some magnitudes
          | negative =>
              exact congrArg some
                (compare_gt_iff_gt.mpr ((neg_lt_zero.mpr magnitude').trans magnitude)).symm
      | negative =>
          cases sign' with
          | positive =>
              exact congrArg some
                (compare_lt_iff_lt.mpr ((neg_lt_zero.mpr magnitude).trans magnitude')).symm
          | negative =>
              rw [signed, signed, compare_neg_neg, ← magnitudes]
              rfl

section Floats

variable {first second value : Float32} {number number' : ℚ}

theorem lt_iff_compare :
    first < second ↔
      (first.toModel.unpack.compare second.toModel.unpack == some .lt) = true := by
  change decide ((first.toModel.lt second.toModel) = true) = true ↔ _
  rw [decide_eq_true_iff]
  rfl

theorem le_iff_compare :
    first ≤ second ↔
      ((first.toModel.unpack.compare second.toModel.unpack).any (·.isLE)) = true := by
  change decide ((first.toModel.le second.toModel) = true) = true ↔ _
  rw [decide_eq_true_iff]
  rfl

theorem lt_iff (stands : numberOf? first = some number)
    (stands' : numberOf? second = some number') : first < second ↔ number < number' := by
  have compared := compare_eq (canonical_unpack _) (canonical_unpack _) stands stands'
  rw [lt_iff_compare, compared, ← compare_lt_iff_lt]
  cases compare number number' <;> decide

theorem le_iff (stands : numberOf? first = some number)
    (stands' : numberOf? second = some number') : first ≤ second ↔ number ≤ number' := by
  have compared := compare_eq (canonical_unpack _) (canonical_unpack _) stands stands'
  rw [le_iff_compare, compared, ← compare_le_iff_le]
  cases compare number number' <;> decide

theorem isFinite_iff : value.isFinite = true ↔ ∃ number, numberOf? value = some number := by
  change value.toModel.unpack.isFinite = true ↔
    ∃ number, number? value.toModel.unpack = some number
  cases value.toModel.unpack with
  | notANumber | infinity sign =>
      constructor
      · intro finite
        cases finite
      · intro finite
        obtain ⟨_, stands⟩ := finite
        cases stands
  | zero sign => exact ⟨fun _ => ⟨0, rfl⟩, fun _ => rfl⟩
  | finite sign mantissa exponent positive =>
      exact ⟨fun _ => ⟨_, number?_finite sign mantissa exponent positive⟩, fun _ => rfl⟩

theorem toNat_unpackExponent :
    (@unpackExponent Format.binary32 value.toBits.toBitVec).toNat =
      value.toBits.toNat % 0x80000000 / 0x800000 := by
  change (value.toBits.toNat >>> 23) % 2 ^ 8 = _
  rw [Nat.shiftRight_eq_div_pow]
  omega

/-- Only the largest exponent is not one of a finite float. -/
theorem exponent_eq_iff :
    value.toBits.toNat % 0x80000000 / 0x800000 = 255 ↔ value.isFinite = false := by
  rw [← toNat_unpackExponent]
  change _ ↔ (UnpackedFloat.unpack Format.binary32 value.toBits.toBitVec).isFinite = false
  have top : @unpackExponent Format.binary32 value.toBits.toBitVec = -1#_ ↔
      (@unpackExponent Format.binary32 value.toBits.toBitVec).toNat = 255 :=
    ⟨fun same => by rw [same]; rfl, fun same => BitVec.eq_of_toNat_eq same⟩
  unfold UnpackedFloat.unpack
  dsimp only
  split
  · rename_i largest
    refine iff_of_true (top.mp largest) ?_
    split <;> rfl
  · rename_i smaller
    refine iff_of_false (mt top.mpr smaller) ?_
    split
    · split <;> exact nofun
    · exact nofun

theorem isNaN_of_number (stands : numberOf? value = some number) : value.isNaN = false := by
  change value.toModel.unpack.isNaN = false
  rcases number?_eq_some stands with ⟨sign, unpacked, _⟩ |
    ⟨sign, mantissa, exponent, positive, unpacked, _⟩ <;>
    rw [unpacked] <;> rfl

/-- What is at most a number, and at least one, is a number. -/
theorem exists_number_of_between (stands : numberOf? first = some number)
    (stands' : numberOf? second = some number') (above : first ≤ value) (below : value ≤ second) :
    ∃ between, numberOf? value = some between ∧ number ≤ between ∧ between ≤ number' := by
  suffices finite : ∃ between, numberOf? value = some between by
    obtain ⟨between, found⟩ := finite
    exact ⟨between, found, (le_iff stands found).mp above, (le_iff found stands').mp below⟩
  rw [le_iff_compare] at above below
  have firstFinite := number?_eq_some stands
  have secondFinite := number?_eq_some stands'
  unfold numberOf?
  cases unpacked : value.toModel.unpack with
  | zero sign => exact ⟨0, rfl⟩
  | finite sign mantissa exponent positive =>
      exact ⟨_, number?_finite sign mantissa exponent positive⟩
  | notANumber =>
      rw [unpacked] at below
      cases below
  | infinity sign =>
      rw [unpacked] at above below
      cases sign with
      | positive =>
          rcases secondFinite with ⟨_, zero, _⟩ | ⟨_, _, _, _, finite, _⟩
          · rw [zero] at below
            cases below
          · rw [finite] at below
            cases below
      | negative =>
          rcases firstFinite with ⟨sign, zero, _⟩ | ⟨sign, _, _, _, finite, _⟩
          · rw [zero] at above
            cases above
          · rw [finite] at above
            cases sign <;> cases above

end Floats

end HdrGain.Rounding
