import HdrGain.Proofs.Binary.Nearest
import HdrGain.Proofs.Scalar.Products

namespace HdrGain

namespace Rounding

open Float.Model Float.Model.UnpackedFloat

/-- The float that is nearest to a number. From the middle past the largest float on it is
endless. -/
structure IsNearest (value : ℚ) (float : Float32) : Prop where
  within : |value| < overflowLimit →
    ∃ number, numberOf? float = some number ∧ RoundsTo value number
  above : overflowLimit ≤ value → float = Float32.inf
  below : value ≤ -overflowLimit → float = -Float32.inf

theorem pack_infinity (sign : Sign) :
    Float32.ofModel (.pack (.infinity sign)) =
      match sign with
      | .positive => Float32.inf
      | .negative => -Float32.inf := by
  cases sign <;> rfl

theorem Rounded.isNearest {unpacked : UnpackedFloat} {value : ℚ}
    (rounded : Rounded unpacked value) : IsNearest value (.ofModel (.pack unpacked)) := by
  have finite := rounded.isFinite_iff
  obtain ⟨result, stands, canonical, rounds⟩ := rounded
  rcases number?_eq_some stands with ⟨sign, rfl, rfl⟩ |
    ⟨sign, mantissa, exponent, positive, rfl, rfl⟩
  · have small : |value| < overflowLimit := finite.mp (by cases sign <;> rfl)
    obtain ⟨lower, upper⟩ := abs_lt.mp small
    refine ⟨fun _ => ⟨0, ?_, rounds⟩, fun above => absurd above upper.not_ge,
      fun below => absurd below lower.not_ge⟩
    cases sign <;> rfl
  · by_cases small : exponent ≤ 104
    · have unpacks := unpack_pack_finite canonical small
      have bound : |value| < overflowLimit := finite.mp (by
        change (Float32.Model.pack _).unpack.isFinite = true
        rw [unpacks]
        rfl)
      obtain ⟨lower, upper⟩ := abs_lt.mp bound
      refine ⟨fun _ => ⟨_, ?_, rounds⟩, fun above => absurd above upper.not_ge,
        fun below => absurd below lower.not_ge⟩
      rw [numberOf?, unpacks, number?_finite]
    · have magnitude : (0 : ℚ) < mantissa * 2 ^ exponent := by positivity
      rw [pack_of_large (not_le.mp small)] at finite ⊢
      rw [pack_infinity]
      have large : ¬ |value| < overflowLimit := fun bound => by
        have contrary := finite.mpr bound
        cases sign <;> cases contrary
      have limit : (0 : ℚ) < overflowLimit := by norm_num [overflowLimit]
      refine ⟨fun bound => absurd bound large, fun above => ?_, fun below => ?_⟩
      · cases sign with
        | positive => rfl
        | negative =>
            have nonneg := rounds.nonneg (limit.le.trans above)
            exact absurd magnitude (not_lt.mpr (neg_nonneg.mp nonneg))
      · cases sign with
        | negative => rfl
        | positive =>
            have nonneg := rounds.neg.nonneg (limit.le.trans (le_neg.mpr below))
            exact absurd magnitude (not_lt.mpr (neg_nonneg.mp nonneg))

section Near

variable {value result number : ℚ}

/-- What is close to a float is rounded on the grid of this float or on the next finer one. -/
theorem RoundsTo.exists_grid {steps exponent : ℤ} (rounds : RoundsTo value result)
    (placed : number = steps * 2 ^ exponent) (least : -149 ≤ exponent) (short : |steps| < 2 ^ 24)
    (full : 2 ^ 23 ≤ |steps| ∨ exponent = -149) (near : |value - number| < 2 ^ exponent / 4) :
    ∃ spacing nearest place : ℤ, result = nearest * 2 ^ spacing ∧ number = place * 2 ^ spacing ∧
      |value - result| ≤ 2 ^ spacing / 2 ∧ exponent ≤ spacing + 1 := by
  obtain ⟨spacing, nearest, finest, rounded, long, bounded, close, _⟩ := rounds
  have step : (0 : ℚ) < 2 ^ exponent := zpow_pos two_pos exponent
  have size : |number| = (|steps| : ℤ) * 2 ^ exponent := by
    rw [placed, abs_mul, abs_of_pos step, Int.cast_abs]
  have fine : spacing ≤ exponent := by
    rcases long with long | rfl
    · have counted : ((|steps| : ℤ) : ℚ) ≤ 2 ^ 24 - 1 := by
        exact_mod_cast Int.le_sub_one_of_lt short
      have product := mul_le_mul_of_nonneg_right counted step.le
      have upper : |value| < 2 ^ (exponent + 24) := by
        have triangle := abs_sub_abs_le_abs_sub value number
        rw [two_zpow_past]
        linarith
      have below := (zpow_lt_zpow_iff_right₀ one_lt_two).mp (long.trans_lt upper)
      omega
    · exact least
  have coarse : exponent ≤ spacing + 1 := by
    rcases full with full | rfl
    · have counted : (2 ^ 23 : ℚ) ≤ (|steps| : ℤ) := by exact_mod_cast full
      have product := mul_le_mul_of_nonneg_right counted step.le
      have lower : 2 ^ (exponent + 22) < |value| := by
        have triangle := abs_sub_abs_le_abs_sub number value
        rw [abs_sub_comm] at triangle
        rw [zpow_add₀ two_ne_zero, mul_comm, zpow_ofNat]
        linarith
      have above := (zpow_lt_zpow_iff_right₀ one_lt_two).mp (lower.trans bounded)
      omega
    · omega
  refine ⟨spacing, nearest, steps * 2 ^ (exponent - spacing).toNat, rounded, ?_, close, coarse⟩
  have gap : exponent = (exponent - spacing).toNat + spacing := by omega
  rw [placed]
  nth_rewrite 1 [gap]
  rw [zpow_add₀ two_ne_zero, zpow_natCast]
  push_cast
  ring

theorem RoundsTo.eq_of_near {steps exponent : ℤ} (rounds : RoundsTo value result)
    (placed : number = steps * 2 ^ exponent) (least : -149 ≤ exponent) (short : |steps| < 2 ^ 24)
    (full : 2 ^ 23 ≤ |steps| ∨ exponent = -149) (near : |value - number| < 2 ^ exponent / 4) :
    result = number := by
  obtain ⟨spacing, nearest, place, rfl, rfl, close, coarse⟩ :=
    rounds.exists_grid placed least short full near
  have unit : (0 : ℚ) < 2 ^ spacing := zpow_pos two_pos spacing
  have wide : (2 : ℚ) ^ exponent ≤ 2 * 2 ^ spacing := by
    rw [← zpow_one_add₀ two_ne_zero]
    exact zpow_le_zpow_right₀ one_le_two (by omega)
  have apart : |((nearest - place : ℤ) : ℚ)| * 2 ^ spacing < 1 * 2 ^ spacing :=
    calc |((nearest - place : ℤ) : ℚ)| * 2 ^ spacing
        = |(nearest : ℚ) * 2 ^ spacing - place * 2 ^ spacing| := by
          rw [← sub_mul, abs_mul, abs_of_pos unit, Int.cast_sub]
      _ ≤ |(nearest : ℚ) * 2 ^ spacing - value| + |value - place * 2 ^ spacing| := abs_sub_le _ _ _
      _ < 1 * 2 ^ spacing := by
          rw [abs_sub_comm _ value]
          linarith
  have same : |nearest - place| < 1 := by exact_mod_cast lt_of_mul_lt_mul_right apart unit.le
  rw [sub_eq_zero.mp (Int.abs_lt_one_iff.mp same)]

/-- What is far nearer to a float than to any other is read as this float. -/
theorem IsNearest.eq_of_near {float exact : Float32} (nearest : IsNearest value float)
    (stands : numberOf? exact = some number) (nonzero : number ≠ 0)
    (near : |value - number| ≤ |number| / 2 ^ 27 + 2 ^ (-152 : ℤ)) : float = exact := by
  obtain ⟨sign, mantissa, exponent, positive, unpacked, placed⟩ := exists_unpack stands nonzero
  have canonical : Canonical (.finite sign mantissa exponent positive) := by
    rw [← unpacked]
    exact canonical_unpack _
  have most := exponent_le_of_unpack unpacked
  obtain ⟨short, least, full⟩ := canonical
  have step : (0 : ℚ) < 2 ^ exponent := zpow_pos two_pos exponent
  obtain ⟨steps, whole, magnitude⟩ :
      ∃ steps : ℤ, number = steps * 2 ^ exponent ∧ |steps| = mantissa := by
    cases sign with
    | positive => exact ⟨mantissa, by rw [placed]; rfl, abs_of_nonneg (by positivity)⟩
    | negative =>
        refine ⟨-mantissa, ?_, by rw [abs_neg, abs_of_nonneg (by positivity)]⟩
        rw [placed, Int.cast_neg, neg_mul]
        rfl
  have size : |number| ≤ (2 ^ 24 - 1) * 2 ^ exponent := by
    have counted : (mantissa : ℚ) ≤ 2 ^ 24 - 1 := by
      have last : (mantissa : ℤ) ≤ 2 ^ 24 - 1 := by omega
      exact_mod_cast last
    rw [placed, abs_signed, abs_of_nonneg (by positivity)]
    exact mul_le_mul_of_nonneg_right counted step.le
  have tiny : (2 : ℚ) ^ (-152 : ℤ) ≤ 2 ^ exponent / 8 := by
    have eighth : (2 : ℚ) ^ exponent / 8 = 2 ^ (exponent - 3) := by
      rw [zpow_sub₀ two_ne_zero]
      norm_num
    rw [eighth]
    exact zpow_le_zpow_right₀ one_le_two (by omega)
  have close : |value - number| < 2 ^ exponent / 4 := by linarith
  have bound : |value| < overflowLimit := by
    have largest : (2 : ℚ) ^ exponent ≤ 2 ^ (104 : ℤ) := zpow_le_zpow_right₀ one_le_two most
    have triangle := abs_sub_abs_le_abs_sub value number
    unfold overflowLimit
    norm_num at largest ⊢
    linarith
  obtain ⟨found, stands', rounds⟩ := nearest.within bound
  rw [rounds.eq_of_near whole least (by omega) (by omega) close] at stands'
  exact eq_of_numberOf? stands' stands nonzero

end Near

end Rounding

namespace Binary

open Rounding Float.Model Float.Model.UnpackedFloat

def signOf (negative : Bool) : Sign :=
  if negative then .negative else .positive

section Bits

variable {negative : Bool} {bits field mantissa : ℕ}

/-- The three fields of a float, one after the other. -/
theorem ofNat_eq_packComponents (negative : Bool) (field_lt : field < 256) (mantissa : ℕ) :
    BitVec.ofNat 32 (field * 0x800000 + mantissa % 0x800000 + if negative then 0x80000000 else 0) =
      packComponents Format.binary32 (signOf negative) (BitVec.ofNat _ field)
        (BitVec.ofNat _ mantissa) := by
  apply BitVec.eq_of_toNat_eq
  have fraction : (BitVec.ofNat 23 mantissa).toNat = mantissa % 0x800000 := BitVec.toNat_ofNat ..
  have exponent : (BitVec.ofNat 8 field).toNat = field := Nat.mod_eq_of_lt field_lt
  change (BitVec.ofNat 32 _).toNat =
    ((signOf negative).toBitVec ++ BitVec.ofNat 8 field ++ BitVec.ofNat 23 mantissa).toNat
  rw [BitVec.toNat_append, BitVec.toNat_append, ← Nat.shiftLeft_add_eq_or_of_lt (BitVec.isLt _),
    ← Nat.shiftLeft_add_eq_or_of_lt (BitVec.isLt _), fraction, exponent, BitVec.toNat_ofNat,
    Nat.shiftLeft_eq, Nat.shiftLeft_eq]
  have short := Nat.mod_lt mantissa (show 0 < 0x800000 by decide)
  cases negative with
  | false =>
      rw [if_neg Bool.false_ne_true]
      change _ = (0 * 2 ^ 8 + field) * 2 ^ 23 + _
      omega
  | true =>
      rw [if_pos rfl]
      change _ = (1 * 2 ^ 8 + field) * 2 ^ 23 + _
      omega

theorem toFloat32_of_unpack {unpacked : UnpackedFloat}
    (unpacks : UnpackedFloat.unpack Format.binary32
      (BitVec.ofNat 32 (bits + if negative then 0x80000000 else 0)) = unpacked) :
    toFloat32 negative bits = .ofModel (.pack unpacked) := by
  rw [← unpacks]
  rfl

theorem toFloat32_infinity (negative : Bool) :
    toFloat32 negative 0x7f800000 = .ofModel (.pack (.infinity (signOf negative))) := by
  cases negative <;> rfl

theorem toFloat32_full (negative : Bool) (positive : 0 < mantissa) (full : 2 ^ 23 ≤ mantissa)
    (fits : mantissa < 2 ^ 24) (field_pos : 0 < field) (field_lt : field < 255) :
    toFloat32 negative (field * 0x800000 + (mantissa - 0x800000)) =
      .ofModel (.pack (.finite (signOf negative) mantissa (field - 150) positive)) := by
  have fraction : mantissa % 0x800000 = mantissa - 0x800000 := by omega
  have bits := ofNat_eq_packComponents negative (show field < 256 by omega) mantissa
  rw [fraction] at bits
  refine toFloat32_of_unpack ?_
  rw [bits]
  exact unpack_packComponents_normal (signOf negative) positive full fits field_pos field_lt

/-- The bits of the steps of a grid. A step past the last mantissa carries into the exponent, and a
step past the last exponent is kept from going past infinity. -/
theorem toFloat32_settle (negative : Bool) {steps : ℕ} {exponent : ℤ} (few : steps ≤ 2 ^ 24)
    (least : -149 ≤ exponent) (full : 2 ^ 23 ≤ steps ∨ exponent = -149) :
    toFloat32 negative (min 0x7f800000 ((exponent + 149).toNat * 0x800000 + steps)) =
      .ofModel (.pack (settle (signOf negative) steps exponent)) := by
  obtain ⟨place, rfl⟩ : ∃ place : ℕ, exponent = place - 149 := ⟨(exponent + 149).toNat, by omega⟩
  rw [show ((place : ℤ) - 149 + 149).toNat = place by omega]
  unfold settle
  split
  · subst steps
    obtain rfl : place = 0 := by omega
    cases negative <;> rfl
  · rename_i nonzero
    have positive := Nat.pos_of_ne_zero nonzero
    split
    · rename_i fits
      rcases Nat.lt_or_ge steps (2 ^ 23) with short | long
      · obtain rfl : place = 0 := by omega
        have bits := ofNat_eq_packComponents negative (show 0 < 256 by decide) steps
        rw [Nat.mod_eq_of_lt (show steps < 0x800000 from short)] at bits
        rw [Nat.min_eq_right (by omega)]
        refine toFloat32_of_unpack ?_
        rw [bits]
        exact unpack_packComponents_subnormal (signOf negative) positive short
      · rcases Nat.lt_or_ge place 254 with small | large
        · have joined : place * 0x800000 + steps =
              (place + 1) * 0x800000 + (steps - 0x800000) := by omega
          rw [Nat.min_eq_right (by omega), joined,
            toFloat32_full negative positive long fits (Nat.succ_pos place) (by omega)]
          congr 3
          omega
        · rw [Nat.min_eq_left (by omega), toFloat32_infinity, pack_of_large (by omega)]
    · obtain rfl : steps = 2 ^ 24 := by omega
      rcases Nat.lt_or_ge place 253 with small | large
      · have joined : place * 0x800000 + 2 ^ 24 = (place + 2) * 0x800000 + (2 ^ 23 - 0x800000) := by
          omega
        rw [Nat.min_eq_right (by omega), joined,
          toFloat32_full negative (by decide) (le_refl _) (by decide) (Nat.succ_pos _) (by omega)]
        congr 3
        omega
      · rw [Nat.min_eq_left (by omega), toFloat32_infinity, pack_of_large (by omega)]

end Bits

section Nearest

variable {num den : ℕ}

/-- Of two whole numbers that are equally near the even one is taken. -/
theorem roundQuotient_even (positive : 0 < den)
    (tie : 2 * roundQuotient num den * den = 2 * num + den ∨
      2 * num = 2 * roundQuotient num den * den + den) :
    roundQuotient num den % 2 = 0 := by
  have parts := Nat.div_add_mod num den
  have rest := Nat.mod_lt num positive
  have upper : 2 * (num / den + 1) * den = 2 * (den * (num / den)) + 2 * den := by ring
  have lower : 2 * (num / den) * den = 2 * (den * (num / den)) := by ring
  unfold roundQuotient at tie ⊢
  dsimp only at tie ⊢
  split_ifs at tie ⊢ <;> omega

theorem mantissa_even (precision : Precision) (positive : 0 < num) (positive' : 0 < den)
    (tie : |(num : ℚ) / den - (precision.nearest num den).value| =
      2 ^ precision.place num den / 2) :
    (precision.nearest num den).mantissa % 2 = 0 := by
  have scaledPos : 0 < (precision.scaled num den).2 := Precision.scaled_pos precision num positive'
  have quotient := Precision.scaled_div precision num positive'
  have unit : (0 : ℚ) < 2 ^ precision.place num den := zpow_pos two_pos _
  rw [Precision.nearest_eq positive, Magnitude.value] at tie
  rw [Precision.nearest_eq positive]
  dsimp only at tie ⊢
  refine roundQuotient_even scaledPos ?_
  generalize precision.scaled num den = parts at *
  generalize roundQuotient parts.1 parts.2 = rounded at *
  have denPos : (0 : ℚ) < parts.2 := Nat.cast_pos.mpr scaledPos
  have value : (num : ℚ) / den = parts.1 / parts.2 * 2 ^ precision.place num den := by
    rw [quotient, div_mul_cancel₀ _ unit.ne']
  have half : |(parts.1 : ℚ) / parts.2 - rounded| = 1 / 2 := by
    rw [value, ← sub_mul, abs_mul, abs_of_pos unit] at tie
    exact mul_right_cancel₀ unit.ne' (tie.trans (by ring))
  rcases (abs_eq (by norm_num)).mp half with above | below
  · right
    have cast : (2 * parts.1 : ℚ) = 2 * rounded * parts.2 + parts.2 := by
      rw [sub_eq_iff_eq_add, div_eq_iff denPos.ne'] at above
      linarith
    exact_mod_cast cast
  · left
    have cast : (2 * rounded * parts.2 : ℚ) = 2 * parts.1 + parts.2 := by
      rw [sub_eq_iff_eq_add, div_eq_iff denPos.ne'] at below
      linarith
    exact_mod_cast cast

/-- Rounding to the precision of a single float is what operations on floats do. -/
theorem roundsTo_nearest (num : ℕ) (positive' : 0 < den) :
    RoundsTo (num / den) (single.nearest num den).value ∧
      (single.nearest num den).mantissa ≤ 2 ^ 24 ∧ -149 ≤ (single.nearest num den).exponent ∧
      (2 ^ 23 ≤ (single.nearest num den).mantissa ∨ (single.nearest num den).exponent = -149) := by
  rcases Nat.eq_zero_or_pos num with rfl | positive
  · have none : single.nearest 0 den = ⟨0, -149⟩ := rfl
    rw [none, Magnitude.value, Nat.cast_zero, zero_div, zero_mul]
    exact ⟨RoundsTo.zero, by decide, by decide, .inr rfl⟩
  obtain ⟨leading, next⟩ := leadingPlace_bounds positive positive'
  have near : |(single.nearest num den).value - num / den| ≤ 2 ^ single.place num den / 2 :=
    Precision.abs_nearest_sub_le positive positive'
  have even := mantissa_even single positive positive'
  have exponent : (single.nearest num den).exponent = single.place num den := by
    rw [Precision.nearest_eq positive]
  have value : (single.nearest num den).value =
      (single.nearest num den).mantissa * 2 ^ single.place num den := by
    rw [Magnitude.value, exponent]
  have place : single.place num den = max (-149) (leadingPlace num den - 23) := rfl
  rw [exponent, value]
  rw [value] at near even
  generalize (single.nearest num den).mantissa = mantissa at *
  generalize single.place num den = spacing at *
  have quotient : (0 : ℚ) < num / den := (zpow_pos two_pos _).trans_le leading
  have unit : (0 : ℚ) < 2 ^ spacing := zpow_pos two_pos spacing
  have upper : (num : ℚ) / den < 2 ^ spacing * 2 ^ 24 := by
    refine next.trans_le ?_
    rw [← zpow_natCast, ← zpow_add₀ two_ne_zero]
    exact zpow_le_zpow_right₀ one_le_two (by push_cast; omega)
  have lower : 2 ^ spacing * 2 ^ 23 ≤ (num : ℚ) / den ∨ spacing = -149 := by
    rcases le_or_gt (leadingPlace num den - 23) (-149) with fine | coarse
    · exact .inr (by omega)
    · refine .inl (le_trans ?_ leading)
      rw [← zpow_natCast, ← zpow_add₀ two_ne_zero]
      exact zpow_le_zpow_right₀ one_le_two (by push_cast; omega)
  obtain ⟨less, more⟩ := abs_le.mp near
  refine ⟨⟨spacing, mantissa, by omega, rfl, ?_, ?_, ?_, fun tie => ?_⟩, ?_, by omega, ?_⟩
  · rw [abs_of_pos quotient, zpow_add₀ two_ne_zero]
    exact_mod_cast lower
  · rw [abs_of_pos quotient, zpow_add₀ two_ne_zero]
    exact_mod_cast upper
  · rw [abs_sub_comm]
    exact_mod_cast near
  · exact_mod_cast even (by exact_mod_cast tie)
  · have short : (mantissa : ℚ) < 2 ^ 24 + 1 := by
      by_contra long
      have product : 2 ^ spacing * (2 ^ 24 + 1) ≤ mantissa * (2 : ℚ) ^ spacing := by
        rw [mul_comm (mantissa : ℚ)]
        exact mul_le_mul_of_nonneg_left (not_lt.mp long) unit.le
      linarith
    exact Nat.lt_succ_iff.mp (by exact_mod_cast short)
  · refine lower.imp_left fun full => ?_
    have long : (2 ^ 23 - 1 : ℚ) < mantissa := by
      by_contra short
      have product : mantissa * (2 : ℚ) ^ spacing ≤ 2 ^ spacing * (2 ^ 23 - 1) := by
        rw [mul_comm (mantissa : ℚ)]
        exact mul_le_mul_of_nonneg_left (not_lt.mp short) unit.le
      linarith
    have cast : (2 ^ 23 : ℚ) < mantissa + 1 := by linarith
    exact Nat.lt_succ_iff.mp (by exact_mod_cast cast)

theorem toFloat32_singleBits (negative : Bool) (num den : ℕ) (positive' : 0 < den) :
    toFloat32 negative (singleBits num den) = .ofModel (.pack
      (settle (signOf negative) (single.nearest num den).mantissa
        (single.nearest num den).exponent)) := by
  obtain ⟨_, few, least, full⟩ := roundsTo_nearest num positive'
  exact toFloat32_settle negative few least full

theorem isNearest_toFloat32 (negative : Bool) (num : ℕ) (positive' : 0 < den) :
    IsNearest (signed (signOf negative) (num / den)) (toFloat32 negative (singleBits num den)) := by
  obtain ⟨rounds, few, least, full⟩ := roundsTo_nearest num positive'
  rw [toFloat32_singleBits negative num den positive']
  refine Rounded.isNearest ⟨_, number?_settle _ few, canonical_settle _ least full, ?_⟩
  exact rounds.signed _

/-- What is rounded to zero keeps its sign. -/
theorem toFloat32_eq_of_zero (negative : Bool) (num : ℕ) (positive' : 0 < den)
    (none : numberOf? (toFloat32 negative (singleBits num den)) = some 0) :
    toFloat32 negative (singleBits num den) = if negative then -0.0 else 0.0 := by
  obtain ⟨_, _, least, full⟩ := roundsTo_nearest num positive'
  have canonical := canonical_settle (signOf negative) least full
  rw [toFloat32_singleBits negative num den positive'] at none ⊢
  rcases Nat.eq_zero_or_pos (single.nearest num den).mantissa with zero | steps
  · rw [settle, dif_pos zero]
    cases negative <;> rfl
  · obtain ⟨sign, mantissa, exponent, positive, settled⟩ :
        ∃ sign mantissa exponent positive, settle (signOf negative)
          (single.nearest num den).mantissa (single.nearest num den).exponent =
            .finite sign mantissa exponent positive := by
      rw [settle, dif_neg steps.ne']
      split
      · exact ⟨_, _, _, steps, rfl⟩
      · exact ⟨_, _, _, by decide, rfl⟩
    rw [settled] at canonical none
    rcases le_or_gt exponent 104 with small | large
    · rw [numberOf?, unpack_pack_finite canonical small, number?_finite] at none
      have magnitude : (0 : ℚ) < mantissa * 2 ^ exponent := by positivity
      have lost : signed sign (mantissa * 2 ^ exponent) = 0 := Option.some.inj none
      rw [← abs_eq_zero, abs_signed, abs_of_pos magnitude] at lost
      exact absurd lost magnitude.ne'
    · rw [pack_of_large large] at none
      cases sign <;> cases none

end Nearest

end Binary

end HdrGain
