import HdrGain.Proofs.Scalar.Comparison

namespace HdrGain.Rounding

open Float.Model Float.Model.UnpackedFloat

/-- The three fields of a float make up its bits. -/
theorem packComponents_fields (bits : BitVec Format.binary32.numBits) :
    packComponents Format.binary32 (.ofBitVec (unpackSign bits)) (unpackExponent bits)
      (unpackMantissa bits) = bits := by
  simp only [packComponents, Sign.toBitVec_ofBitVec, unpackSign, unpackExponent, unpackMantissa,
    BitVec.extractLsb]
  ext place bound
  grind

theorem packComponents_of_fields {bits : BitVec Format.binary32.numBits}
    {exponent : BitVec Format.binary32.exponentBits}
    {mantissa : BitVec Format.binary32.mantissaBitsWithoutImplicit}
    (exponents : unpackExponent bits = exponent) (mantissas : unpackMantissa bits = mantissa) :
    packComponents Format.binary32 (.ofBitVec (unpackSign bits)) exponent mantissa = bits := by
  rw [← exponents, ← mantissas, packComponents_fields]

theorem pack_of_short {sign : Sign} {mantissa : Nat} {exponent : ℤ} {positive : 0 < mantissa}
    (short : mantissa < 2 ^ 23) (least : exponent = -149) :
    UnpackedFloat.pack Format.binary32 (.finite sign mantissa exponent positive) =
      packComponents Format.binary32 sign (BitVec.ofNat _ 0) (BitVec.ofNat _ mantissa) := by
  have places : mantissa.log2 + 1 ≠ Format.binary32.mantissaBits := by
    have few := log2_lt_of_lt (by decide) short
    change _ ≠ 24
    omega
  subst least
  simp only [UnpackedFloat.pack]
  rw [if_neg (by decide), if_neg places]

theorem pack_of_full {sign : Sign} {mantissa field : Nat} {exponent : ℤ} {positive : 0 < mantissa}
    (full : 2 ^ 23 ≤ mantissa) (fits : mantissa < 2 ^ 24) (finite : field < 255)
    (biased : exponent = field - 150) :
    UnpackedFloat.pack Format.binary32 (.finite sign mantissa exponent positive) =
      packComponents Format.binary32 sign (BitVec.ofNat _ field) (BitVec.ofNat _ mantissa) := by
  have places : mantissa.log2 + 1 = Format.binary32.mantissaBits := by
    rw [(Nat.log2_eq_iff (by omega)).mpr ⟨full, fits⟩]
    rfl
  have unbiased : (exponent + Format.binary32.exponentBias +
      Format.binary32.mantissaBitsWithoutImplicit : ℤ).toNat = field := by
    change (exponent + (127 : ℕ) + (23 : ℕ) : ℤ).toNat = field
    omega
  have inRange : ¬ 2 ^ Format.binary32.exponentBits ≤ field + 1 := by
    change ¬ 256 ≤ _
    omega
  simp only [UnpackedFloat.pack, unbiased]
  rw [if_neg inRange, if_pos places]

theorem pack_unpack_bits {bits : BitVec Format.binary32.numBits}
    (valid : Format.binary32.Valid bits) :
    UnpackedFloat.pack Format.binary32 (UnpackedFloat.unpack Format.binary32 bits) = bits := by
  have fraction : (unpackMantissa bits).toNat < 2 ^ 23 := BitVec.isLt _
  have field : (unpackExponent bits).toNat < 2 ^ 8 := BitVec.isLt _
  unfold UnpackedFloat.unpack
  dsimp only
  split
  · rename_i largest
    split
    · rename_i whole
      exact packComponents_of_fields largest whole
    · rename_i broken
      exact (valid.eq_packedNaN largest broken).symm
  · rename_i finite
    split
    · rename_i least
      split
      · rename_i whole
        exact packComponents_of_fields least whole
      · have finest : ((unpackExponent bits).toNat - (Format.binary32.exponentBias +
            Format.binary32.mantissaBitsWithoutImplicit) + 1 : ℤ) = -149 := by
          rw [least]
          rfl
        rw [pack_of_short fraction finest]
        refine packComponents_of_fields least ?_
        rw [BitVec.ofNat_toNat, BitVec.setWidth_eq]
    · have notLargest : (unpackExponent bits).toNat ≠ 255 := fun same =>
        finite (BitVec.eq_of_toNat_eq same)
      have below : (unpackExponent bits).toNat < 255 := by omega
      have mantissa : (1#1 ++ unpackMantissa bits).toNat = 2 ^ 23 + (unpackMantissa bits).toNat :=
        toNat_implicit_append _
      have full : 2 ^ 23 ≤ (1#1 ++ unpackMantissa bits).toNat := by omega
      have fits : (1#1 ++ unpackMantissa bits).toNat < 2 ^ 24 := by omega
      refine (pack_of_full full fits below rfl).trans ?_
      rw [mantissa]
      refine packComponents_of_fields ?_ (BitVec.eq_of_toNat_eq ?_)
      · rw [BitVec.ofNat_toNat, BitVec.setWidth_eq]
      · change _ = (2 ^ 23 + (unpackMantissa bits).toNat) % 2 ^ 23
        omega

/-- Only one float unpacks to what a float unpacks to. -/
theorem pack_unpack (value : Float32) :
    .ofModel (Float32.Model.pack value.toModel.unpack) = value := by
  obtain ⟨bits, valid⟩ := value
  refine congrArg Float32.ofModel ?_
  rw [Float32.Model.mk.injEq]
  exact congrArg UInt32.ofBitVec (pack_unpack_bits valid)

/-- An operation gives the float that its unpacked result comes from. -/
theorem pack_of_unpack {unpacked : UnpackedFloat} {value : Float32}
    (same : unpacked = value.toModel.unpack) :
    .ofModel (Float32.Model.pack unpacked) = value := by
  rw [same, pack_unpack]

theorem signed_inj {sign sign' : Sign} {magnitude magnitude' : ℚ} (positive : 0 < magnitude)
    (positive' : 0 < magnitude') (same : signed sign magnitude = signed sign' magnitude') :
    sign = sign' ∧ magnitude = magnitude' := by
  cases sign with
  | positive =>
      cases sign' with
      | positive => exact ⟨rfl, same⟩
      | negative => exact absurd (positive.trans_eq same) (by simp only [signed]; linarith)
  | negative =>
      cases sign' with
      | positive => exact absurd (positive'.trans_eq same.symm) (by simp only [signed]; linarith)
      | negative => exact ⟨rfl, neg_injective same⟩

/-- Every number but zero is what one canonical float stands for. -/
theorem eq_of_number? {first second : UnpackedFloat} {number : ℚ} (canonical : Canonical first)
    (canonical' : Canonical second) (stands : number? first = some number)
    (stands' : number? second = some number) (nonzero : number ≠ 0) : first = second := by
  obtain ⟨sign, mantissa, exponent, positive, rfl, rfl⟩ :=
    (number?_eq_some stands).resolve_left fun ⟨_, _, vanishes⟩ => nonzero vanishes
  obtain ⟨sign', mantissa', exponent', positive', rfl, same⟩ :=
    (number?_eq_some stands').resolve_left fun ⟨_, _, vanishes⟩ => nonzero vanishes
  obtain ⟨rfl, magnitudes⟩ := signed_inj (by positivity) (by positivity) same
  have compared := compare_magnitudes canonical canonical'
  rw [compare_eq_iff_eq.mpr magnitudes, Ordering.then_eq_eq, compare_eq_iff_eq,
    compare_eq_iff_eq] at compared
  obtain ⟨rfl, rfl⟩ := compared
  rfl

/-- The number of a float is rounded to that float. -/
theorem Rounded.eq_of_finite {unpacked : UnpackedFloat} {sign : Sign} {mantissa : Nat}
    {exponent : ℤ} {positive : 0 < mantissa}
    (rounded : Rounded unpacked (signed sign (mantissa * 2 ^ exponent)))
    (canonical : Canonical (.finite sign mantissa exponent positive)) :
    unpacked = .finite sign mantissa exponent positive := by
  obtain ⟨result, stands, canonical', rounds⟩ := rounded
  have placed : signed sign (mantissa * 2 ^ exponent) =
      (sign.apply mantissa : ℤ) * (2 : ℚ) ^ exponent := by
    cases sign with
    | positive => simp only [signed, Sign.apply, Int.cast_natCast]
    | negative => simp only [signed, Sign.apply, Int.cast_neg, Int.cast_natCast, neg_mul]
  have short : |sign.apply (mantissa : ℤ)| ≤ 2 ^ 24 := by
    have fits := canonical.1
    cases sign with
    | positive => simp only [Sign.apply, Nat.abs_cast]; omega
    | negative => simp only [Sign.apply, abs_neg, Nat.abs_cast]; omega
  have exact : result = signed sign (mantissa * 2 ^ exponent) := by
    rw [placed] at rounds ⊢
    exact rounds.eq_of_fits short canonical.2.1
  have magnitude : (0 : ℚ) < mantissa * 2 ^ exponent := by positivity
  have nonzero : signed sign (mantissa * 2 ^ exponent) ≠ 0 := by
    rw [← abs_pos, abs_signed, abs_of_pos magnitude]
    exact magnitude
  rw [exact] at stands
  exact eq_of_number? canonical' canonical stands (number?_finite _ _ _ _) nonzero

section Numbers

variable {first second value : Float32} {number : ℚ}

/-- What a float other than a zero unpacks to. -/
theorem exists_unpack (stands : numberOf? value = some number) (nonzero : number ≠ 0) :
    ∃ sign mantissa exponent positive,
      value.toModel.unpack = .finite sign mantissa exponent positive ∧
        number = signed sign (mantissa * 2 ^ exponent) := by
  rcases number?_eq_some stands with ⟨_, _, zero⟩ | finite
  · exact absurd zero nonzero
  · exact finite

theorem exists_unpack_of_pos (stands : numberOf? value = some number) (positive : 0 < number) :
    ∃ mantissa exponent above,
      value.toModel.unpack = .finite .positive mantissa exponent above ∧
        number = mantissa * 2 ^ exponent := by
  obtain ⟨sign, mantissa, exponent, above, unpacked, rfl⟩ := exists_unpack stands positive.ne'
  cases sign with
  | negative =>
      have magnitude : (0 : ℚ) < mantissa * 2 ^ exponent := by positivity
      simp only [signed] at positive
      linarith
  | positive => exact ⟨mantissa, exponent, above, unpacked, rfl⟩

theorem unpack_of_zero (stands : numberOf? value = some 0) :
    ∃ sign, value.toModel.unpack = .zero sign := by
  rcases number?_eq_some stands with ⟨sign, unpacked, _⟩ |
    ⟨sign, mantissa, exponent, positive, _, zero⟩
  · exact ⟨sign, unpacked⟩
  · have magnitude : (0 : ℚ) < mantissa * 2 ^ exponent := by positivity
    have none : |(0 : ℚ)| = mantissa * 2 ^ exponent := by
      rw [zero, abs_signed, abs_of_pos magnitude]
    rw [abs_zero] at none
    exact absurd none magnitude.ne

/-- Every number but zero has one float. -/
theorem eq_of_numberOf? (stands : numberOf? first = some number)
    (stands' : numberOf? second = some number) (nonzero : number ≠ 0) : first = second := by
  rw [← pack_unpack first, ← pack_unpack second,
    eq_of_number? (canonical_unpack _) (canonical_unpack _) stands stands' nonzero]

theorem add_of_zero (stands : numberOf? first = some number) (nonzero : number ≠ 0)
    (none : numberOf? second = some 0) : first + second = first := by
  obtain ⟨sign, mantissa, exponent, positive, unpacked, _⟩ := exists_unpack stands nonzero
  obtain ⟨sign', zero⟩ := unpack_of_zero none
  have kept : first.toModel.unpack.add Format.binary32 second.toModel.unpack =
      first.toModel.unpack := by
    rw [unpacked, zero]
    rfl
  exact pack_of_unpack kept

theorem sub_self_of_number (stands : numberOf? value = some number) (nonzero : number ≠ 0) :
    value - value = 0.0 := by
  obtain ⟨sign, mantissa, exponent, positive, unpacked, _⟩ := exists_unpack stands nonzero
  have none : value.toModel.unpack.sub Format.binary32 value.toModel.unpack =
      .zero .positive := by
    rw [unpacked]
    simp only [UnpackedFloat.sub, sub_self]
    rfl
  exact pack_of_unpack none

theorem zero_div_of_pos (stands : numberOf? value = some number) (positive : 0 < number) :
    0.0 / value = (0.0 : Float32) := by
  obtain ⟨mantissa, exponent, above, unpacked, _⟩ := exists_unpack_of_pos stands positive
  have none : (0.0 : Float32).toModel.unpack.div Format.binary32 value.toModel.unpack =
      .zero .positive := by
    rw [unpacked]
    rfl
  exact pack_of_unpack none

end Numbers

end HdrGain.Rounding
