import HdrGain.Proofs.Scalar.Magnitude

namespace HdrGain

open Rounding Float.Model Float.Model.UnpackedFloat

/-! # Special cases of logarithms and powers

What the IEEE standard and the C library promise of logarithms and powers of 32-bit floats at the
ends of their ranges. Nothing is said about how exact they are in between. -/

structure SpecialCases [Elementary Float32] : Prop where
  log2_zero (light : Float32) : 0.0 ≤ light → light ≤ 0.0 → Elementary.log2 light = -Float32.inf
  log2_infinite (light : Float32) : 0.0 < light → light.isInf = true →
    Elementary.log2 light = Float32.inf
  log2_negative (light : Float32) : light < 0.0 → (Elementary.log2 light).isNaN = true
  /-- The smallest float above zero is `2 ^ -149`, and the largest is below `2 ^ 128`. -/
  log2_positive (light : Float32) : 0.0 < light → light.isFinite = true →
    -149.0 ≤ Elementary.log2 light ∧ Elementary.log2 light ≤ 128.0
  exp2_isNaN_iff (power : Float32) :
    (Elementary.exp2 power).isNaN = true ↔ power.isNaN = true
  /-- A power may overflow or vanish, but the base keeps it from being negative or no number. -/
  pow_positive (base exponent : Float32) : 0.0 < base → base.isFinite = true →
    exponent.isFinite = true → 0.0 ≤ Elementary.pow base exponent

namespace Rounding

variable {first second value : Float32} {number number' : ℚ}

theorem numberOf?_zero : numberOf? 0.0 = some 0 := rfl

section Signs

theorem unpack_zero : (0.0 : Float32).toModel.unpack = .zero .positive := rfl

theorem unpack_of_isNaN (none : value.isNaN = true) : value.toModel.unpack = .notANumber := by
  change value.toModel.unpack.isNaN = true at none
  cases unpacked : value.toModel.unpack with
  | notANumber => rfl
  | infinity sign | zero sign | finite sign mantissa exponent positive =>
      rw [unpacked] at none
      cases none

theorem unpack_of_pos (above : 0.0 < value) :
    value.toModel.unpack = .infinity .positive ∨ ∃ mantissa exponent positive,
      value.toModel.unpack = .finite .positive mantissa exponent positive := by
  rw [lt_iff_compare, unpack_zero] at above
  cases unpacked : value.toModel.unpack with
  | notANumber =>
      rw [unpacked] at above
      cases above
  | zero sign =>
      rw [unpacked] at above
      cases sign <;> cases above
  | infinity sign =>
      rw [unpacked] at above
      cases sign with
      | positive => exact .inl rfl
      | negative => cases above
  | finite sign mantissa exponent positive =>
      rw [unpacked] at above
      cases sign with
      | positive => exact .inr ⟨mantissa, exponent, positive, rfl⟩
      | negative => cases above

theorem unpack_of_neg (below : value < 0.0) :
    value.toModel.unpack = .infinity .negative ∨ ∃ mantissa exponent positive,
      value.toModel.unpack = .finite .negative mantissa exponent positive := by
  rw [lt_iff_compare, unpack_zero] at below
  cases unpacked : value.toModel.unpack with
  | notANumber =>
      rw [unpacked] at below
      cases below
  | zero sign =>
      rw [unpacked] at below
      cases sign <;> cases below
  | infinity sign =>
      rw [unpacked] at below
      cases sign with
      | positive => cases below
      | negative => exact .inl rfl
  | finite sign mantissa exponent positive =>
      rw [unpacked] at below
      cases sign with
      | positive => cases below
      | negative => exact .inr ⟨mantissa, exponent, positive, rfl⟩

/-- What is at least zero is one of the zeros or above it. -/
theorem zero_or_pos (above : 0.0 ≤ value) :
    (value ≤ 0.0 ∧ ∃ sign, value.toModel.unpack = .zero sign) ∨ 0.0 < value := by
  rw [le_iff_compare, unpack_zero] at above ⊢
  rw [lt_iff_compare, unpack_zero]
  cases unpacked : value.toModel.unpack with
  | zero sign => exact .inl ⟨by cases sign <;> decide, sign, rfl⟩
  | notANumber =>
      rw [unpacked] at above
      cases above
  | infinity sign | finite sign mantissa exponent positive =>
      rw [unpacked] at above
      cases sign with
      | positive => exact .inr rfl
      | negative => cases above

theorem not_neg_of_nonneg (above : 0.0 ≤ value) : ¬ value < 0.0 := by
  intro below
  rcases zero_or_pos above with ⟨_, sign, zero⟩ | positive
  · rcases unpack_of_neg below with endless | ⟨_, _, _, finite⟩
    · cases zero.symm.trans endless
    · cases zero.symm.trans finite
  · rcases unpack_of_pos positive with endless | ⟨_, _, _, finite⟩ <;>
      rcases unpack_of_neg below with endless' | ⟨_, _, _, finite'⟩
    · cases endless.symm.trans endless'
    · cases endless.symm.trans finite'
    · cases finite.symm.trans endless'
    · cases finite.symm.trans finite'

theorem isNaN_of_nonneg (above : 0.0 ≤ value) : value.isNaN = false := by
  change value.toModel.unpack.isNaN = false
  rcases zero_or_pos above with ⟨_, sign, zero⟩ | positive
  · rw [zero]
    rfl
  · rcases unpack_of_pos positive with endless | ⟨_, _, _, finite⟩
    · rw [endless]
      rfl
    · rw [finite]
      rfl

end Signs

section NaN

theorem isNaN_of_within {places : ℕ} (within : Within value places) : value.isNaN = false := by
  obtain ⟨_, stands, _⟩ := within
  exact isNaN_of_number stands

theorem isNaN_pack_of_notANumber {unpacked : UnpackedFloat} (none : unpacked = .notANumber) :
    (Float32.ofModel (Float32.Model.pack unpacked)).isNaN = true := by
  rw [none]
  rfl

theorem isNaN_add_of_isNaN (none : first.isNaN = true) : (first + second).isNaN = true := by
  have kept : first.toModel.unpack.add Format.binary32 second.toModel.unpack = .notANumber := by
    rw [unpack_of_isNaN none]
    cases second.toModel.unpack <;> rfl
  exact isNaN_pack_of_notANumber kept

/-- No number makes up for an infinity. -/
theorem isNaN_add_of_infinity {sign : Sign} (unpacked : first.toModel.unpack = .infinity sign)
    (stands : numberOf? second = some number) : (first + second).isNaN = false := by
  have kept : first.toModel.unpack.add Format.binary32 second.toModel.unpack =
      .infinity sign := by
    rw [unpacked]
    rcases number?_eq_some stands with ⟨_, second, _⟩ | ⟨_, _, _, _, second, _⟩ <;> rw [second] <;>
      rfl
  change (Float32.Model.pack
    (first.toModel.unpack.add Format.binary32 second.toModel.unpack)).unpack.isNaN = false
  rw [kept]
  cases sign <;> rfl

/-- Past the largest exponent there is only an infinity. -/
theorem pack_of_large {sign : Sign} {mantissa : Nat} {exponent : ℤ} {positive : 0 < mantissa}
    (large : 104 < exponent) :
    Float32.Model.pack (.finite sign mantissa exponent positive) =
      Float32.Model.pack (.infinity sign) := by
  have beyond : 2 ^ Format.binary32.exponentBits ≤
      (exponent + Format.binary32.exponentBias +
        Format.binary32.mantissaBitsWithoutImplicit).toNat + 1 := by
    change 256 ≤ (exponent + (127 : ℕ) + (23 : ℕ)).toNat + 1
    omega
  simp only [Float32.Model.pack, UnpackedFloat.pack, beyond, if_true]

/-- Packing may make an infinity, but never what is no number. -/
theorem isNaN_pack {unpacked : UnpackedFloat} (canonical : Canonical unpacked)
    (stands : number? unpacked = some number) :
    (Float32.ofModel (Float32.Model.pack unpacked)).isNaN = false := by
  change (Float32.Model.pack unpacked).unpack.isNaN = false
  rcases number?_eq_some stands with ⟨sign, rfl, _⟩ |
    ⟨sign, mantissa, exponent, positive, rfl, _⟩
  · cases sign <;> rfl
  · by_cases small : exponent ≤ 104
    · rw [unpack_pack_finite canonical small]
      rfl
    · rw [pack_of_large (not_le.mp small)]
      cases sign <;> rfl

theorem isNaN_mul (stands : numberOf? first = some number)
    (stands' : numberOf? second = some number') : (first * second).isNaN = false := by
  obtain ⟨_, product, canonical, _⟩ :=
    rounded_mul (canonical_unpack _) (canonical_unpack _) stands stands'
  exact isNaN_pack canonical product

end NaN

theorem exponent_le_of_unpack {sign : Sign} {mantissa : Nat} {exponent : ℤ}
    {positive : 0 < mantissa}
    (unpacked : value.toModel.unpack = .finite sign mantissa exponent positive) :
    exponent ≤ 104 := by
  unfold Float32.Model.unpack UnpackedFloat.unpack at unpacked
  have field : (@unpackExponent Format.binary32 value.toModel.toBits.toBitVec).toNat < 256 :=
    BitVec.isLt _
  have bias : Format.binary32.exponentBias = 127 := rfl
  dsimp only at unpacked
  split at unpacked
  · split at unpacked <;> cases unpacked
  · rename_i finite
    have notLargest : (@unpackExponent Format.binary32 value.toModel.toBits.toBitVec).toNat ≠ 255 :=
      fun same => finite (BitVec.eq_of_toNat_eq same)
    split at unpacked
    · split at unpacked
      · cases unpacked
      · rename_i subnormal _
        cases unpacked
        rw [subnormal]
        decide
    · cases unpacked
      omega

theorem numberOf?_leastLog : numberOf? (-149.0) = some (-149) := by
  have unpacked : (-149.0 : Float32).toModel.unpack =
      .finite .negative 9764864 (-16) (by decide) := by rfl
  rw [numberOf?_of_unpack unpacked]
  norm_num [signed]

theorem numberOf?_mostLog : numberOf? 128.0 = some 128 := by
  have unpacked : (128.0 : Float32).toModel.unpack =
      .finite .positive 8388608 (-16) (by decide) := by rfl
  rw [numberOf?_of_unpack unpacked]
  norm_num [signed]

theorem within_log (above : -149.0 ≤ value) (below : value ≤ 128.0) : Within value 8 :=
  .of_between numberOf?_leastLog numberOf?_mostLog above below (by norm_num) (by norm_num)

end Rounding

/-! A library of whole places: a logarithm is the place of the leading digit, and a power of two is
one of a whole exponent. Everything else is built from these. It meets the special cases. -/

namespace WholePlaces

def log2 (light : Float32) : Float32 :=
  match light.toModel.unpack with
  | .zero _ => -Float32.inf
  | .infinity .positive => Float32.inf
  | .finite .positive mantissa exponent _ =>
      .ofModel (.pack (.ofInt Format.binary32 (mantissa.log2 + exponent)))
  | _ => Float32.nan

def exp2 (power : Float32) : Float32 :=
  match power.toModel.unpack with
  | .notANumber => Float32.nan
  | .infinity .positive => Float32.inf
  | .infinity .negative => 0.0
  | .zero _ | .finite .positive _ _ _ => Scalar.ofNat (2 ^ min 127 (Scalar.truncate power))
  | .finite .negative _ _ _ => 1.0 / Scalar.ofNat (2 ^ min 127 (Scalar.truncate (-power)))

def pow (base exponent : Float32) : Float32 :=
  exp2 (exponent * log2 base)

@[reducible] def elementary : Elementary Float32 where
  sqrt value := pow value 0.5
  ln value := log2 value * 0.6931472
  exp power := exp2 (power * 1.442695)
  log2 := log2
  exp2 := exp2
  pow := pow

variable {light power : Float32}

theorem exists_log2 (bright : 0.0 < light) (finite : light.isFinite = true) :
    ∃ number, numberOf? (log2 light) = some number ∧ -149 ≤ number ∧ number ≤ 128 := by
  rcases unpack_of_pos bright with endless | ⟨mantissa, exponent, positive, unpacked⟩
  · change light.toModel.unpack.isFinite = true at finite
    rw [endless] at finite
    cases finite
  · have canonical := canonical_unpack light.toModel
    rw [unpacked] at canonical
    obtain ⟨short, least, _⟩ := canonical
    have most := exponent_le_of_unpack unpacked
    have leading := log2_lt_of_lt (by decide) short
    obtain ⟨place, reached⟩ : ∃ place : ℤ, mantissa.log2 + exponent = place := ⟨_, rfl⟩
    have magnitude : |(place : ℚ) * 2 ^ (0 : ℤ)| ≤ 2 ^ 127 := by
      have inside : |(place : ℚ)| ≤ (149 : ℤ) := by
        rw [← Int.cast_abs, Int.cast_le]
        exact abs_le.mpr ⟨by omega, by omega⟩
      rw [zpow_zero, mul_one]
      exact inside.trans (by norm_num)
    obtain ⟨number, stands, rounds⟩ :=
      (rounded_normalize place 0 .positive).numberOf?_pack magnitude
    have exact := rounds.eq_of_fits (abs_le.mpr ⟨by omega, by omega⟩) (by decide)
    rw [zpow_zero, mul_one] at exact
    have found : log2 light = .ofModel (.pack (.ofInt Format.binary32 place)) := by
      rw [log2, unpacked, ← reached]
    refine ⟨number, ?_, ?_, ?_⟩
    · rw [found]
      exact stands
    · rw [exact]
      exact_mod_cast (by omega : -149 ≤ place)
    · rw [exact]
      exact_mod_cast (by omega : place ≤ 128)

theorem exists_power (places : Nat) :
    ∃ number, numberOf? (Scalar.ofNat (2 ^ min 127 places)) = some number ∧ 1 ≤ number := by
  obtain ⟨number, stands, _, _, above⟩ := numberOf?_ofNat_between
    (Nat.pow_le_pow_right (by decide) (Nat.min_le_left 127 places)) (le_refl 127)
  exact ⟨number, stands, above (Nat.two_pow_pos _)⟩

theorem exp2_nonneg (isNumber : power.isNaN = false) : 0.0 ≤ exp2 power := by
  have whole (places : Nat) : (0.0 : Float32) ≤ Scalar.ofNat (2 ^ min 127 places) := by
    obtain ⟨_, stands, above⟩ := exists_power places
    exact (le_iff numberOf?_zero stands).mpr (zero_le_one.trans above)
  change power.toModel.unpack.isNaN = false at isNumber
  unfold exp2
  cases unpacked : power.toModel.unpack with
  | notANumber =>
      rw [unpacked] at isNumber
      cases isNumber
  | zero sign => exact whole _
  | infinity sign =>
      cases sign with
      | positive => exact (by decide : (0.0 : Float32) ≤ Float32.inf)
      | negative => exact (by decide : (0.0 : Float32) ≤ 0.0)
  | finite sign mantissa exponent positive =>
      cases sign with
      | positive => exact whole _
      | negative =>
          obtain ⟨divisor, stands, above⟩ := exists_power (Scalar.truncate (-power))
          have nonneg : (0 : ℚ) ≤ 1 / divisor := by positivity
          have bounded : |1 / divisor| ≤ 2 ^ 127 := by
            rw [abs_of_nonneg nonneg]
            exact (div_le_self zero_le_one above).trans (by norm_num)
          obtain ⟨quotient, found, rounds⟩ :=
            numberOf?_div numberOf?_unit stands (by positivity) bounded
          exact (le_iff numberOf?_zero found).mpr (rounds.nonneg nonneg)

theorem exp2_isNaN_iff : (exp2 power).isNaN = true ↔ power.isNaN = true := by
  constructor
  · intro none
    by_contra isNumber
    rw [isNaN_of_nonneg (exp2_nonneg (Bool.eq_false_iff.mpr isNumber))] at none
    cases none
  · intro none
    rw [exp2, unpack_of_isNaN none]
    exact (by decide : Float32.nan.isNaN = true)

theorem specialCases : @SpecialCases elementary := by
  let _ := elementary
  refine ⟨fun light above below => ?_, fun light bright endless => ?_, fun light below => ?_,
    fun light bright finite => ?_, fun power => exp2_isNaN_iff,
    fun base exponent bright finite finite' => ?_⟩
  · change log2 light = _
    rcases zero_or_pos above with ⟨_, sign, zero⟩ | bright
    · rw [log2, zero]
    · rw [le_iff_compare, unpack_zero] at below
      rcases unpack_of_pos bright with unpacked | ⟨_, _, _, unpacked⟩ <;> rw [unpacked] at below <;>
        cases below
  · change log2 light = _
    rcases unpack_of_pos bright with unpacked | ⟨_, _, _, unpacked⟩
    · rw [log2, unpacked]
    · change light.toModel.unpack.isInf = true at endless
      rw [unpacked] at endless
      cases endless
  · change (log2 light).isNaN = true
    have none : Float32.nan.isNaN = true := by decide
    rcases unpack_of_neg below with unpacked | ⟨_, _, _, unpacked⟩ <;> rw [log2, unpacked] <;>
      exact none
  · obtain ⟨number, stands, above, below⟩ := exists_log2 bright finite
    exact ⟨(le_iff numberOf?_leastLog stands).mpr above,
      (le_iff stands numberOf?_mostLog).mpr below⟩
  · obtain ⟨_, stands, _⟩ := exists_log2 bright finite
    obtain ⟨_, stands'⟩ := isFinite_iff.mp finite'
    exact exp2_nonneg (isNaN_mul stands' stands)

end WholePlaces

end HdrGain
