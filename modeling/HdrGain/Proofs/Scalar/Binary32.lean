import HdrGain.Proofs.Scalar.Rounding
import HdrGain.Scalar

namespace HdrGain.Rounding

open Float.Model Float.Model.UnpackedFloat

theorem toNat_implicit_append (mantissa : BitVec 23) :
    (1#1 ++ mantissa).toNat = 2 ^ 23 + mantissa.toNat := by
  rw [BitVec.toNat_append, ← Nat.shiftLeft_add_eq_or_of_lt mantissa.isLt]
  rfl

theorem canonical_unpack (model : Float32.Model) : Canonical model.unpack := by
  unfold Float32.Model.unpack UnpackedFloat.unpack
  have fraction : (@unpackMantissa Format.binary32 model.toBits.toBitVec).toNat <
      2 ^ 23 := BitVec.isLt _
  dsimp only
  split
  · split <;> trivial
  · split
    · split
      · trivial
      · rename_i subnormal _
        refine ⟨by omega, ?_, .inr ?_⟩ <;> rw [subnormal] <;> rfl
    · rename_i normal
      have nonzero : (@unpackExponent Format.binary32 model.toBits.toBitVec).toNat ≠ 0 :=
        fun zero => normal (BitVec.eq_of_toNat_eq zero)
      have bias : Format.binary32.exponentBias = 127 := rfl
      refine ⟨?_, ?_, .inl ?_⟩
      · rw [toNat_implicit_append]
        omega
      · omega
      · rw [toNat_implicit_append]
        omega

theorem unpack_packComponents_normal {mantissa field : Nat} (sign : Sign)
    (positive : 0 < mantissa) (full : 2 ^ 23 ≤ mantissa) (fits : mantissa < 2 ^ 24)
    (field_pos : 0 < field) (field_lt : field < 255) :
    UnpackedFloat.unpack Format.binary32 (packComponents Format.binary32 sign
      (BitVec.ofNat Format.binary32.exponentBits field)
      (BitVec.ofNat Format.binary32.mantissaBitsWithoutImplicit mantissa)) =
        .finite sign mantissa (field - 150) positive := by
  have fieldValue : (BitVec.ofNat Format.binary32.exponentBits field).toNat = field :=
    Nat.mod_eq_of_lt (show field < 256 by omega)
  have finite : BitVec.ofNat Format.binary32.exponentBits field ≠ -1#_ := by
    intro top
    rw [top] at fieldValue
    change 255 = field at fieldValue
    omega
  have nonzero : BitVec.ofNat Format.binary32.exponentBits field ≠ 0#_ := by
    intro zero
    rw [zero] at fieldValue
    change 0 = field at fieldValue
    omega
  have fraction : (1#1 ++ BitVec.ofNat 23 mantissa).toNat = mantissa := by
    rw [toNat_implicit_append, BitVec.toNat_ofNat]
    omega
  have bias : Format.binary32.exponentBias = 127 := rfl
  simp only [UnpackedFloat.unpack, unpackMantissa_packComponents, unpackExponent_packComponents,
    unpackSign_packComponents, Sign.ofBitVec_toBitVec, finite, nonzero, if_false, fieldValue,
    fraction, bias]
  congr 1

theorem unpack_packComponents_subnormal {mantissa : Nat} (sign : Sign)
    (positive : 0 < mantissa) (short : mantissa < 2 ^ 23) :
    UnpackedFloat.unpack Format.binary32 (packComponents Format.binary32 sign
      (BitVec.ofNat Format.binary32.exponentBits 0)
      (BitVec.ofNat Format.binary32.mantissaBitsWithoutImplicit mantissa)) =
        .finite sign mantissa (-149) positive := by
  have fraction : (BitVec.ofNat 23 mantissa).toNat = mantissa := Nat.mod_eq_of_lt short
  have nonzero : BitVec.ofNat Format.binary32.mantissaBitsWithoutImplicit mantissa ≠ 0#_ := by
    intro zero
    have none := congrArg BitVec.toNat zero
    change (BitVec.ofNat 23 mantissa).toNat = 0 at none
    omega
  have finite : BitVec.ofNat Format.binary32.exponentBits 0 ≠ -1#_ := by decide
  simp only [UnpackedFloat.unpack, unpackMantissa_packComponents, unpackExponent_packComponents,
    unpackSign_packComponents, Sign.ofBitVec_toBitVec, finite, nonzero, if_false, if_true,
    dif_neg, not_false_iff, fraction]
  rfl

-- Above the largest exponent `pack` makes an infinity.
theorem unpack_pack_finite {sign : Sign} {mantissa : Nat} {exponent : ℤ}
    {positive : 0 < mantissa} (canonical : Canonical (.finite sign mantissa exponent positive))
    (bound : exponent ≤ 104) :
    (Float32.Model.pack (.finite sign mantissa exponent positive)).unpack =
      .finite sign mantissa exponent positive := by
  obtain ⟨fits, least, full⟩ := canonical
  obtain ⟨field, biased⟩ : ∃ field : ℕ, exponent + (127 : ℕ) + (23 : ℕ) = field :=
    ⟨_, (Int.toNat_of_nonneg (by omega)).symm⟩
  have inRange : ¬ 2 ^ Format.binary32.exponentBits ≤ field + 1 := by
    change ¬ 256 ≤ field + 1
    omega
  have bias : Format.binary32.exponentBias = 127 := rfl
  change UnpackedFloat.unpack Format.binary32
    (UnpackedFloat.pack Format.binary32 (.finite sign mantissa exponent positive)) = _
  simp only [UnpackedFloat.pack, bias, biased, Int.toNat_natCast, inRange, if_false]
  by_cases normal : 2 ^ 23 ≤ mantissa
  · have places : mantissa.log2 + 1 = Format.binary32.mantissaBits := by
      rw [(Nat.log2_eq_iff (by omega)).mpr ⟨normal, fits⟩]
      rfl
    have unbiased : (field : ℤ) - 150 = exponent := by omega
    rw [if_pos places,
      unpack_packComponents_normal sign positive normal fits (by omega) (by omega), unbiased]
  · have finest : exponent = -149 := full.resolve_left normal
    have short : mantissa < 2 ^ 23 := Nat.lt_of_not_le normal
    have places : mantissa.log2 + 1 ≠ Format.binary32.mantissaBits := by
      have few := log2_lt_of_lt (by decide) short
      change mantissa.log2 + 1 ≠ 24
      omega
    rw [if_neg places, unpack_packComponents_subnormal sign positive short, finest]

/-- The number that a float stands for, if it is finite. -/
def numberOf? (value : Float32) : Option ℚ :=
  number? value.toModel.unpack

theorem number?_eq_some {unpacked : UnpackedFloat} {number : ℚ}
    (stands : number? unpacked = some number) :
    (∃ sign, unpacked = .zero sign ∧ number = 0) ∨
      ∃ sign mantissa exponent positive, unpacked = .finite sign mantissa exponent positive ∧
        number = signed sign (mantissa * 2 ^ exponent) := by
  cases unpacked with
  | notANumber => cases stands
  | infinity sign => cases stands
  | zero sign =>
      cases stands
      exact .inl ⟨sign, rfl, rfl⟩
  | finite sign mantissa exponent positive =>
      rw [number?_finite] at stands
      cases stands
      exact .inr ⟨sign, mantissa, exponent, positive, rfl, rfl⟩

theorem abs_signed (sign : Sign) (magnitude : ℚ) : |signed sign magnitude| = |magnitude| := by
  cases sign with
  | positive => rfl
  | negative => exact abs_neg magnitude

theorem exponent_le_of_number {sign : Sign} {mantissa : Nat} {exponent : ℤ}
    {positive : 0 < mantissa} (canonical : Canonical (.finite sign mantissa exponent positive))
    (bound : |signed sign (mantissa * 2 ^ exponent)| ≤ 2 ^ (127 : ℤ)) : exponent ≤ 104 := by
  by_contra large
  have full : 2 ^ 23 ≤ mantissa := canonical.2.2.resolve_right (by omega)
  have fullCast : ((2 ^ 23 : ℕ) : ℚ) ≤ mantissa := Nat.cast_le.mpr full
  have scale : (2 : ℚ) ^ (105 : ℤ) ≤ 2 ^ exponent := zpow_le_zpow_right₀ (by norm_num) (by omega)
  have reached : ((2 ^ 23 : ℕ) : ℚ) * 2 ^ (105 : ℤ) ≤ mantissa * 2 ^ exponent :=
    mul_le_mul fullCast scale (by positivity) (by positivity)
  rw [abs_signed, abs_of_nonneg (by positivity)] at bound
  have contradictory := reached.trans bound
  norm_num at contradictory

/-- A rounded number is the number of the float that it is packed into, unless it overflows. -/
theorem numberOf?_pack {unpacked : UnpackedFloat} {value result : ℚ}
    (canonical : Canonical unpacked) (stands : number? unpacked = some result)
    (rounds : RoundsTo value result) (bound : |value| ≤ 2 ^ 127) :
    numberOf? (.ofModel (Float32.Model.pack unpacked)) = some result := by
  rcases number?_eq_some stands with ⟨sign, rfl, rfl⟩ |
    ⟨sign, mantissa, exponent, positive, rfl, rfl⟩
  · cases sign <;> rfl
  · have small := exponent_le_of_number canonical
      (rounds.abs_le_two_zpow 127 (by decide) (by exact_mod_cast bound))
    rw [numberOf?, unpack_pack_finite canonical small]
    exact stands

theorem signed_mul (sign sign' : Sign) (magnitude magnitude' : ℚ) :
    signed (sign * sign') (magnitude * magnitude') =
      signed sign magnitude * signed sign' magnitude' := by
  cases sign with
  | negative =>
      cases sign' with
      | negative => exact (neg_mul_neg _ _).symm
      | positive => exact (neg_mul _ _).symm
  | positive =>
      cases sign' with
      | negative => exact (mul_neg _ _).symm
      | positive => rfl

theorem signed_div (sign sign' : Sign) (magnitude magnitude' : ℚ) :
    signed (sign / sign') (magnitude / magnitude') =
      signed sign magnitude / signed sign' magnitude' := by
  cases sign with
  | negative =>
      cases sign' with
      | negative => exact (neg_div_neg_eq _ _).symm
      | positive => exact (neg_div _ _).symm
  | positive =>
      cases sign' with
      | negative => exact (div_neg _).symm
      | positive => rfl

/-- `unpacked` is the canonical float that `value` is rounded to. -/
def Rounded (unpacked : UnpackedFloat) (value : ℚ) : Prop :=
  ∃ result, number? unpacked = some result ∧ Canonical unpacked ∧ RoundsTo value result

theorem rounded_zero (sign : Sign) : Rounded (.zero sign) 0 :=
  ⟨0, rfl, trivial, RoundsTo.zero⟩

theorem Rounded.numberOf?_pack {unpacked : UnpackedFloat} {value : ℚ}
    (rounded : Rounded unpacked value) (bound : |value| ≤ 2 ^ 127) :
    ∃ result, numberOf? (.ofModel (Float32.Model.pack unpacked)) = some result ∧
      RoundsTo value result := by
  obtain ⟨result, stands, canonical, rounds⟩ := rounded
  exact ⟨result, Rounding.numberOf?_pack canonical stands rounds bound, rounds⟩

theorem rounded_mul {first second : UnpackedFloat} {value value' : ℚ}
    (canonical : Canonical first) (canonical' : Canonical second)
    (stands : number? first = some value) (stands' : number? second = some value') :
    Rounded (first.mul Format.binary32 second) (value * value') := by
  rcases number?_eq_some stands with ⟨sign, rfl, rfl⟩ |
    ⟨sign, mantissa, exponent, positive, rfl, rfl⟩
  · rw [zero_mul]
    rcases number?_eq_some stands' with ⟨sign', rfl, rfl⟩ |
      ⟨sign', mantissa', exponent', positive', rfl, rfl⟩
    · exact rounded_zero _
    · exact rounded_zero _
  · rcases number?_eq_some stands' with ⟨sign', rfl, rfl⟩ |
      ⟨sign', mantissa', exponent', positive', rfl, rfl⟩
    · rw [mul_zero]
      exact rounded_zero _
    · have enough : 23 ≤ (mantissa * mantissa').log2 ∨ exponent + exponent' ≤ -149 := by
        obtain ⟨_, _, full | finest⟩ := canonical
        · left
          rw [Nat.le_log2 (Nat.mul_pos positive positive').ne']
          exact full.trans (Nat.le_mul_of_pos_right mantissa positive')
        · obtain ⟨_, _, full' | finest'⟩ := canonical'
          · left
            rw [Nat.le_log2 (Nat.mul_pos positive positive').ne']
            exact full'.trans (Nat.le_mul_of_pos_left mantissa' positive)
          · right
            omega
      have product : signed sign (mantissa * 2 ^ exponent) *
          signed sign' (mantissa' * 2 ^ exponent') =
            signed (sign * sign') ((mantissa * mantissa' : ℕ) * 2 ^ (exponent + exponent')) := by
        rw [← signed_mul, zpow_add₀ (by norm_num), Nat.cast_mul, mul_mul_mul_comm]
      rw [product]
      exact roundWithAccuracy_spec (sign * sign') .exact rfl enough

theorem numberOf?_mul {first second : Float32} {value value' : ℚ}
    (stands : numberOf? first = some value) (stands' : numberOf? second = some value')
    (bound : |value * value'| ≤ 2 ^ 127) :
    ∃ result, numberOf? (first * second) = some result ∧ RoundsTo (value * value') result :=
  (rounded_mul (canonical_unpack _) (canonical_unpack _) stands stands').numberOf?_pack bound

theorem standsFor_quotient (numerator : Nat) {denominator : Nat} (positive : 0 < denominator) :
    StandsFor (ExtendedMantissa.ofMantissaAndAccuracy (numerator / denominator)
        (accuracyOfFraction (numerator % denominator) denominator))
      (numerator / denominator : ℚ) := by
  have divided : ((denominator * (numerator / denominator) + numerator % denominator : ℕ) : ℚ) =
      numerator := by rw [Nat.div_add_mod]
  have remainder : numerator % denominator < denominator := Nat.mod_lt _ positive
  generalize numerator / denominator = quotient at divided ⊢
  generalize numerator % denominator = rest at divided remainder ⊢
  have unit : (0 : ℚ) < denominator := Nat.cast_pos.mpr positive
  have value : (numerator / denominator : ℚ) = quotient + rest / denominator := by
    rw [← divided]
    push_cast
    field_simp
  have below : (rest : ℚ) / denominator < 1 := (div_lt_one unit).mpr (Nat.cast_lt.mpr remainder)
  rw [value]
  unfold accuracyOfFraction
  by_cases exact : rest = 0
  · rw [if_pos exact, exact]
    simp [StandsFor, ExtendedMantissa.ofMantissaAndAccuracy]
  · have above : 0 < (rest : ℚ) / denominator :=
      div_pos (Nat.cast_pos.mpr (Nat.pos_of_ne_zero exact)) unit
    rw [if_neg exact]
    rcases lt_trichotomy (2 * rest) denominator with less | equal | greater
    · have half : (rest : ℚ) / denominator < 1 / 2 := by
        rw [div_lt_div_iff₀ unit (by norm_num)]
        have lessCast : ((2 * rest : ℕ) : ℚ) < denominator := Nat.cast_lt.mpr less
        push_cast at lessCast
        linarith
      rw [Nat.compare_eq_lt.mpr less]
      exact ⟨by linarith, by linarith⟩
    · have half : (rest : ℚ) / denominator = 1 / 2 := by
        rw [div_eq_div_iff unit.ne' (by norm_num)]
        have equalCast : ((2 * rest : ℕ) : ℚ) = denominator := congrArg _ equal
        push_cast at equalCast
        linarith
      rw [Nat.compare_eq_eq.mpr equal]
      exact congrArg _ half
    · have half : 1 / 2 < (rest : ℚ) / denominator := by
        rw [div_lt_div_iff₀ (by norm_num) unit]
        have greaterCast : (denominator : ℚ) < (2 * rest : ℕ) := Nat.cast_lt.mpr greater
        push_cast at greaterCast
        linarith
      rw [Nat.compare_eq_gt.mpr greater]
      exact ⟨by linarith, by linarith⟩

/-- The dividend is given enough places for a quotient of full length. -/
theorem divCore_spec {mantissa mantissa' : Nat} (exponent exponent' : ℤ)
    (positive : 0 < mantissa) (positive' : 0 < mantissa') :
    ∃ shift : ℕ, ∃ target : ℤ, exponent - exponent' = target + shift ∧
      divCore Format.binary32 mantissa exponent mantissa' exponent' =
        (mantissa * 2 ^ shift / mantissa', target,
          accuracyOfFraction (mantissa * 2 ^ shift % mantissa') mantissa') ∧
      (23 ≤ (mantissa * 2 ^ shift / mantissa').log2 ∨ target ≤ -149) := by
  have wanted : Format.binary32.targetExponent
      (totalExponent mantissa exponent - totalExponent mantissa' exponent') =
        max (mantissa.log2 + exponent - (mantissa'.log2 + exponent') - 24) (-149) := by
    simp only [Format.targetExponent, totalExponent, Format.mantissaBits, Format.minExponent]
    omega
  obtain ⟨target, chosen⟩ : ∃ target, target = min (exponent - exponent')
      (max (mantissa.log2 + exponent - (mantissa'.log2 + exponent') - 24) (-149)) := ⟨_, rfl⟩
  obtain ⟨shift, shifted⟩ : ∃ shift : ℕ, exponent - exponent' - target = shift :=
    ⟨_, (Int.toNat_of_nonneg (by omega)).symm⟩
  refine ⟨shift, target, by omega, ?_, ?_⟩
  · simp only [divCore, wanted, ← chosen, shifted, Int.toNat_natCast, Nat.shiftLeft_eq]
  · by_cases finest : target ≤ -149
    · exact .inr finest
    · left
      have places : mantissa'.log2 + 24 ≤ mantissa.log2 + shift := by omega
      have lower : 2 ^ (mantissa.log2 + shift) ≤ mantissa * 2 ^ shift := by
        rw [pow_add]
        exact Nat.mul_le_mul_right _ (Nat.log2_self_le positive.ne')
      have upper : 2 ^ 23 * mantissa' ≤ 2 ^ (mantissa'.log2 + 24) := by
        rw [show mantissa'.log2 + 24 = 23 + (mantissa'.log2 + 1) by omega, pow_add]
        exact Nat.mul_le_mul_left _ Nat.lt_log2_self.le
      have full : 2 ^ 23 ≤ mantissa * 2 ^ shift / mantissa' := by
        rw [Nat.le_div_iff_mul_le positive']
        exact (upper.trans (Nat.pow_le_pow_right (by decide) places)).trans lower
      have nonzero : mantissa * 2 ^ shift / mantissa' ≠ 0 := by
        intro zero
        rw [zero] at full
        cases full
      rw [Nat.le_log2 nonzero]
      exact full

theorem rounded_div {first second : UnpackedFloat} {value value' : ℚ}
    (stands : number? first = some value) (stands' : number? second = some value')
    (nonzero : value' ≠ 0) : Rounded (first.div Format.binary32 second) (value / value') := by
  rcases number?_eq_some stands' with ⟨sign', rfl, rfl⟩ |
    ⟨sign', mantissa', exponent', positive', rfl, rfl⟩
  · exact absurd rfl nonzero
  · rcases number?_eq_some stands with ⟨sign, rfl, rfl⟩ |
      ⟨sign, mantissa, exponent, positive, rfl, rfl⟩
    · rw [zero_div]
      exact rounded_zero _
    · obtain ⟨shift, target, shifted, core, enough⟩ :=
        divCore_spec exponent exponent' positive positive'
      have quotient : signed sign (mantissa * 2 ^ exponent) /
          signed sign' (mantissa' * 2 ^ exponent') =
            signed (sign / sign') ((mantissa * 2 ^ shift : ℕ) / mantissa' * 2 ^ target) := by
        have split : exponent = target + shift + exponent' := by omega
        have unit : (mantissa' : ℚ) ≠ 0 := Nat.cast_ne_zero.mpr positive'.ne'
        rw [← signed_div, split, zpow_add₀ (by norm_num), zpow_add₀ (by norm_num), zpow_natCast]
        congr 1
        push_cast
        field_simp
      have unfolded : UnpackedFloat.div Format.binary32 (.finite sign mantissa exponent positive)
          (.finite sign' mantissa' exponent' positive') =
            roundWithAccuracy Format.binary32 (sign / sign') (mantissa * 2 ^ shift / mantissa')
              target (accuracyOfFraction (mantissa * 2 ^ shift % mantissa') mantissa') := by
        simp only [UnpackedFloat.div, core]
      rw [quotient, unfolded]
      exact roundWithAccuracy_spec (sign / sign') _ (standsFor_quotient _ positive') enough

theorem numberOf?_div {first second : Float32} {value value' : ℚ}
    (stands : numberOf? first = some value) (stands' : numberOf? second = some value')
    (nonzero : value' ≠ 0) (bound : |value / value'| ≤ 2 ^ 127) :
    ∃ result, numberOf? (first / second) = some result ∧ RoundsTo (value / value') result :=
  (rounded_div stands stands' nonzero).numberOf?_pack bound

theorem rounded_ofNat (count : Nat) :
    Rounded (UnpackedFloat.ofNat Format.binary32 count) count := by
  rcases Nat.eq_zero_or_pos count with rfl | positive
  · exact rounded_zero _
  · obtain ⟨shift, shifted⟩ : ∃ shift, shift = (0 - gridExponent count 0).toNat := ⟨_, rfl⟩
    have unfolded : UnpackedFloat.ofNat Format.binary32 count =
        roundWithAccuracy Format.binary32 .positive (count * 2 ^ shift) (0 - shift) .exact := by
      have above : compare (count : ℤ) 0 = .gt := Int.compare_eq_gt.mpr (by omega)
      simp only [UnpackedFloat.ofNat, UnpackedFloat.ofInt, UnpackedFloat.normalize, above,
        UnpackedFloat.round, decreaseExponent, targetExponent_eq, Int.toNat_natCast, ← shifted,
        Nat.shiftLeft_eq]
    have enough : 23 ≤ (count * 2 ^ shift).log2 := by
      have places : 23 ≤ count.log2 + shift := by
        by_cases finest : gridExponent count 0 = -149
        · omega
        · have leading := leading_eq_of_coarse finest
          omega
      have leading : 2 ^ 23 ≤ 2 ^ (count.log2 + shift) :=
        Nat.pow_le_pow_right (by decide) places
      rw [Nat.le_log2 (Nat.mul_pos positive (Nat.two_pow_pos shift)).ne']
      rw [pow_add] at leading
      exact leading.trans (Nat.mul_le_mul_right _ (Nat.log2_self_le positive.ne'))
    have value : (count : ℚ) = (count * 2 ^ shift : ℕ) * 2 ^ (0 - shift : ℤ) := by
      rw [zero_sub, zpow_neg, zpow_natCast]
      push_cast
      field_simp
    rw [unfolded, value]
    exact roundWithAccuracy_spec .positive .exact rfl (.inl enough)

theorem numberOf?_one : numberOf? (Float32.ofBits 0x3F800000) = some 1 := by
  have unpacked : (Float32.ofBits 0x3F800000).toModel.unpack =
      .finite .positive (2 ^ 23) (-23) (by decide) := by rfl
  unfold numberOf?
  rw [unpacked, number?_finite]
  norm_num [signed]

theorem rounded_ofScientific {count : Nat} (positive : 0 < count) :
    Rounded (UnpackedFloat.ofScientific Format.binary32 count 0) count := by
  have unfolded : UnpackedFloat.ofScientific Format.binary32 count 0 =
      roundWithAccuracy Format.binary32 .positive (count * 2 ^ 24) (-24) .exact := by
    unfold UnpackedFloat.ofScientific
    rw [dif_neg positive.ne', if_neg (by decide), if_neg (by
      have power : (2 ^ Format.binary32.exponentBits : ℤ) = 256 := rfl
      omega), if_pos (le_refl _)]
    simp [UnpackedFloat.mul, Nat.shiftLeft_eq, Format.mantissaBits]
    rfl
  have enough : 23 ≤ (count * 2 ^ 24).log2 := by
    rw [Nat.le_log2 (by omega)]
    omega
  have value : (count : ℚ) = (count * 2 ^ 24 : ℕ) * 2 ^ (-24 : ℤ) := by
    rw [zpow_neg]
    push_cast
    field_simp
  rw [unfolded, value]
  exact roundWithAccuracy_spec .positive .exact rfl (.inl enough)

theorem numberOf?_ofNat {count : Nat} (bound : count ≤ 2 ^ 127) :
    ∃ result, numberOf? (Float32.ofNat count) = some result ∧ RoundsTo count result := by
  have boundCast : |(count : ℚ)| ≤ 2 ^ 127 := by
    rw [abs_of_nonneg (Nat.cast_nonneg _)]
    exact_mod_cast bound
  -- Small counts are converted exactly and then multiplied by the zeroth power of ten; only the
  -- larger ones are rounded on the way.
  by_cases small : count < 2 ^ 23
  · have short : Float32.ofNat count =
        count.toUInt64.toFloat32 * Float32.ofBits 0x3F800000 := by
      change Float32.ofScientific count false 0 = _
      unfold Float32.ofScientific
      rw [dif_pos ⟨small, by decide⟩]
      rfl
    have kept : count.toUInt64.toNat = count := by
      change count % 2 ^ 64 = count
      omega
    have whole : Rounded (UnpackedFloat.ofNat Format.binary32 count.toUInt64.toNat) count := by
      rw [kept]
      exact rounded_ofNat count
    obtain ⟨result, stands, rounds⟩ := whole.numberOf?_pack boundCast
    have exact : result = count := by
      have placed : (count : ℚ) = (count : ℤ) * 2 ^ (0 : ℤ) := by simp
      rw [placed] at rounds ⊢
      exact rounds.eq_of_fits (by rw [Nat.abs_cast]; omega) (by decide)
    subst exact
    have product := numberOf?_mul stands numberOf?_one (by rw [mul_one]; exact boundCast)
    rw [mul_one] at product
    rw [short]
    exact product
  · have long : Float32.ofNat count = .ofModel (Float32.Model.pack
        (UnpackedFloat.ofScientific Format.binary32 count 0)) := by
      change Float32.ofScientific count false 0 = _
      unfold Float32.ofScientific
      rw [dif_neg (by omega)]
      rfl
    rw [long]
    exact (rounded_ofScientific (by omega)).numberOf?_pack boundCast

theorem numberOf?_ofNat_between {count places : Nat} (inside : count ≤ 2 ^ places)
    (places_le : places ≤ 127) :
    ∃ result, numberOf? (Scalar.ofNat count) = some result ∧ 0 ≤ result ∧
      result ≤ 2 ^ places ∧ (0 < count → 1 ≤ result) := by
  obtain ⟨result, stands, rounds⟩ :=
    numberOf?_ofNat (inside.trans (Nat.pow_le_pow_right (by decide) places_le))
  exact ⟨result, stands, rounds.nonneg (Nat.cast_nonneg _), rounds.natCast_le inside,
    fun positive => rounds.one_le (by exact_mod_cast positive)⟩

theorem floor_mul_zpow (mantissa : Nat) (exponent : ℤ) :
    ⌊(mantissa * 2 ^ exponent : ℚ)⌋₊ = mantissa * 2 ^ exponent.toNat / 2 ^ (-exponent).toNat := by
  rcases le_total 0 exponent with up | down
  · obtain ⟨places, rfl⟩ := Int.eq_ofNat_of_zero_le up
    have none : (-(places : ℤ)).toNat = 0 := by omega
    rw [none, pow_zero, Nat.div_one, Int.toNat_natCast, zpow_natCast]
    exact_mod_cast Nat.floor_natCast (R := ℚ) (mantissa * 2 ^ places)
  · obtain ⟨places, rfl⟩ : ∃ places : ℕ, exponent = -places := ⟨(-exponent).toNat, by omega⟩
    have none : (-(places : ℤ)).toNat = 0 := by omega
    rw [none, pow_zero, mul_one, neg_neg, Int.toNat_natCast, zpow_neg, zpow_natCast,
      ← div_eq_mul_inv]
    exact_mod_cast Nat.floor_div_eq_div (K := ℚ) mantissa (2 ^ places)

theorem roundToInt_eq (sign : Sign) (mantissa : Nat) (exponent : ℤ) :
    roundToInt sign mantissa exponent = sign.apply ⌊(mantissa * 2 ^ exponent : ℚ)⌋₊ := by
  have places : (0 - (exponent - (exponent.toNat : ℤ))).toNat = (-exponent).toNat := by omega
  simp only [roundToInt, decreaseExponent, shiftToExponent, sub_zero, places, shiftRight_mantissa,
    mantissa_ofMantissaAndAccuracy, Nat.shiftLeft_eq, floor_mul_zpow]

theorem truncate_eq {value : Float32} {number : ℚ} (stands : numberOf? value = some number) :
    Scalar.truncate value = min ⌊number⌋₊ (2 ^ 64 - 1) := by
  have converted : (value.toModel.unpack.toInt 0 (UInt64.size - 1)).toNat = ⌊number⌋₊ := by
    rcases number?_eq_some stands with ⟨sign, unpacked, rfl⟩ |
      ⟨sign, mantissa, exponent, positive, unpacked, rfl⟩
    · rw [unpacked, Nat.floor_zero]
      rfl
    · rw [unpacked]
      change (roundToInt sign mantissa exponent).toNat = _
      rw [roundToInt_eq]
      have magnitude : (0 : ℚ) ≤ mantissa * 2 ^ exponent := by positivity
      cases sign with
      | positive => exact Int.toNat_natCast _
      | negative =>
          have below : signed .negative (mantissa * 2 ^ exponent) ≤ 0 := neg_nonpos.mpr magnitude
          rw [Nat.floor_of_nonpos below]
          exact Int.toNat_neg_natCast _
  change (UInt64.ofNatClamp (value.toModel.unpack.toInt 0 (UInt64.size - 1)).toNat).toNat = _
  rw [converted]
  unfold UInt64.ofNatClamp
  split
  · rename_i fits
    change ⌊number⌋₊ = _
    have range : UInt64.size = 2 ^ 64 := rfl
    omega
  · rename_i large
    have range : UInt64.size = 2 ^ 64 := rfl
    change UInt64.size - 1 = _
    omega

end HdrGain.Rounding
