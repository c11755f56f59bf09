import HdrGain.Proofs.Binary.Closeness
import HdrGain.Proofs.Binary.Numbers
import HdrGain.Proofs.Json.Grammar
import HdrGain.Proofs.Json.Significands

namespace HdrGain

namespace Json.Numeral

open Rounding Binary

/-- The number that a numeral stands for, but for its sign. -/
def magnitude (numeral : Numeral) : ℚ :=
  numeral.decimal.digits * 10 ^ numeral.decimal.power

def value (numeral : Numeral) : ℚ :=
  if numeral.negative then -numeral.magnitude else numeral.magnitude

/-- The float that a numeral is read as. It is nearest to a number that is the value up to the
errors of few operations on doubles, and that is the value itself where the numeral is whole and
fits a word. A zero has the sign that is written. -/
structure Means (numeral : Numeral) (float : Float32) : Prop where
  nearest : ∃ found : ℚ, IsNearest found float ∧
    |found - numeral.value| ≤ |numeral.value| / 2 ^ 49 + 2 ^ (-1074 : ℤ) ∧
    (numeral.fraction = none → numeral.exponent = none →
      -2 ^ 63 ≤ numeral.value → numeral.value < 2 ^ 64 → found = numeral.value)
  zero : numberOf? float = some 0 → float = if numeral.negative then -0.0 else 0.0

variable {numeral : Numeral} {float : Float32}

theorem value_eq_signed : numeral.value = signed (signOf numeral.negative) numeral.magnitude := by
  rw [value, signOf]
  cases numeral.negative <;> rfl

theorem magnitude_nonneg : 0 ≤ numeral.magnitude := by
  unfold magnitude
  positivity

theorem abs_signed_sub (sign : Float.Model.UnpackedFloat.Sign) (first second : ℚ) :
    |signed sign first - signed sign second| = |first - second| := by
  cases sign with
  | positive => rfl
  | negative =>
      change |-first - -second| = _
      rw [neg_sub_neg, abs_sub_comm]

theorem digital_of_spells {text : List Char} (spelled : SpellsNumeral numeral text) :
    ∀ digit ∈ numeral.whole ++ numeral.fraction.getD [], digit.isDigit = true := by
  obtain ⟨_, whole, decimals, _⟩ := spelled
  intro digit inside
  rcases List.mem_append.mp inside with inside | inside
  · exact whole.1.2 digit inside
  · cases decimals with
    | absent => cases inside
    | present digital => exact digital.2 digit inside

/-- What a float stands for is read as this float. -/
theorem Means.eq {exact : Float32} (means : numeral.Means float)
    (stands : numberOf? exact = some numeral.value) (nonzero : numeral.value ≠ 0) :
    float = exact := by
  obtain ⟨found, nearest, near, _⟩ := means.nearest
  have fewer : |numeral.value| / 2 ^ 49 ≤ |numeral.value| / 2 ^ 27 := by gcongr <;> norm_num
  have finer : (2 : ℚ) ^ (-1074 : ℤ) ≤ 2 ^ (-152 : ℤ) := zpow_le_zpow_right₀ one_le_two (by decide)
  exact nearest.eq_of_near stands nonzero (near.trans (add_le_add fewer finer))

section Words

theorem magnitude_of_whole (point : numeral.fraction = none) (power : numeral.exponent = none) :
    numeral.magnitude = digitsValue numeral.whole := by
  rw [magnitude, decimal, point, power, Option.getD_none, Option.getD_none, List.append_nil,
    List.length_nil, Nat.cast_zero, sub_zero, zpow_zero, mul_one]

theorem isWord_iff :
    numeral.isWord = true ↔ numeral.fraction = none ∧ numeral.exponent = none ∧
      if numeral.negative then 0 < digitsValue numeral.whole ∧ digitsValue numeral.whole ≤ 2 ^ 63
      else digitsValue numeral.whole < 2 ^ 64 := by
  unfold isWord isWhole
  dsimp only
  rw [Bool.and_eq_true, Bool.and_eq_true, Option.isNone_iff_eq_none, Option.isNone_iff_eq_none,
    and_assoc]
  cases numeral.negative with
  | false =>
      simp only [Bool.false_eq_true, if_false, decide_eq_true_eq]
      rfl
  | true => simp only [if_true, decide_eq_true_eq, Nat.reducePow]

theorem means_of_isWord (word : numeral.isWord = true) :
    numeral.Means
      (toFloat32 numeral.negative (singleBits (digitsValue numeral.whole) 1)) := by
  obtain ⟨point, power, _⟩ := isWord_iff.mp word
  have nearest := isNearest_toFloat32 numeral.negative (digitsValue numeral.whole) one_pos
  rw [Nat.cast_one, div_one, ← magnitude_of_whole point power, ← value_eq_signed] at nearest
  refine ⟨⟨_, nearest, ?_, fun _ _ _ _ => rfl⟩,
    toFloat32_eq_of_zero numeral.negative _ one_pos⟩
  rw [sub_self, abs_zero]
  positivity

theorem digits_eq_zero_of_broken (broken : numeral.isWord ≠ true) (point : numeral.fraction = none)
    (power : numeral.exponent = none) (least : -2 ^ 63 ≤ numeral.value)
    (most : numeral.value < 2 ^ 64) : numeral.decimal.digits = 0 := by
  have digits : numeral.decimal.digits = digitsValue numeral.whole := by
    rw [decimal, point, Option.getD_none, List.append_nil]
  rw [ne_eq, isWord_iff] at broken
  unfold value at least most
  rw [magnitude_of_whole point power] at least most
  rw [digits]
  split_ifs at broken least most with negative
  · have small : digitsValue numeral.whole ≤ 2 ^ 63 := by exact_mod_cast neg_le_neg_iff.mp least
    by_contra nonzero
    exact broken ⟨point, power, Nat.pos_of_ne_zero nonzero, small⟩
  · exact absurd ⟨point, power, by exact_mod_cast most⟩ broken

end Words

section Significands

variable (digital : ∀ digit ∈ numeral.whole ++ numeral.fraction.getD [], digit.isDigit = true)

include digital

theorem near_significand :
    numeral.significand.1 < addressLimit ∧
      Near 1 0 numeral.magnitude (numeral.significand.1 * 10 ^ numeral.significand.2) := by
  obtain ⟨places, word, power, gap, small, upper, lower⟩ := exists_significand digital
  refine ⟨word, ?_⟩
  have unit : (0 : ℚ) < 10 ^ numeral.decimal.power := zpow_pos (by norm_num) _
  have scaled : (numeral.significand.1 : ℚ) * 10 ^ numeral.significand.2 =
      numeral.significand.1 * 10 ^ places * 10 ^ numeral.decimal.power := by
    rw [power, zpow_add₀ (by norm_num), zpow_natCast]
    ring
  have part : (gap : ℚ) * 2 ^ 60 ≤ numeral.decimal.digits := by exact_mod_cast small
  have above : (numeral.significand.1 : ℚ) * 10 ^ places ≤ numeral.decimal.digits + gap := by
    exact_mod_cast upper
  have below : (numeral.decimal.digits : ℚ) ≤ numeral.significand.1 * 10 ^ places + gap := by
    exact_mod_cast lower
  have close : |(numeral.significand.1 : ℚ) * 10 ^ places - numeral.decimal.digits| ≤
      numeral.decimal.digits / 2 ^ 53 := by
    have positive : (0 : ℚ) ≤ gap := Nat.cast_nonneg gap
    rw [abs_le]
    constructor <;> linarith
  rw [Near, scaled, magnitude, ← sub_mul, abs_mul, abs_of_pos unit, Nat.cast_one, one_mul, add_zero,
    mul_div_right_comm]
  exact mul_le_mul_of_nonneg_right close unit.le

theorem near_of_double? {scaled : Binary.Magnitude} (success : numeral.double? = some scaled) :
    |scaled.value - numeral.magnitude| ≤ numeral.magnitude / 2 ^ 49 + 2 ^ (-1074 : ℤ) ∧
      scaled.value < 2 ^ 1024 := by
  obtain ⟨word, near⟩ := near_significand digital
  obtain ⟨further, bounded⟩ := Double.near_of_scale? word success
  have nonneg : 0 ≤ numeral.magnitude := magnitude_nonneg
  have both := near.trans further nonneg le_rfl (by norm_num) (by norm_num)
  have place : 2 * halfPlace = 2 ^ (-1074 : ℤ) := (zpow_one_add₀ two_ne_zero (-1075 : ℤ)).symm
  rw [Near, mul_zero, zero_add, place] at both
  refine ⟨le_trans both (add_le_add ?_ le_rfl), bounded⟩
  push_cast
  linarith

theorem means_of_double? {scaled : Binary.Magnitude} (success : numeral.double? = some scaled)
    (broken : numeral.isWord ≠ true) :
    numeral.Means (toFloat32 numeral.negative (singleBits scaled.num scaled.den)) := by
  obtain ⟨near, _⟩ := near_of_double? digital success
  have nearest := isNearest_toFloat32 numeral.negative scaled.num scaled.den_pos
  rw [scaled.num_div_den] at nearest
  refine ⟨⟨_, nearest, ?_, fun point power least most => ?_⟩,
    toFloat32_eq_of_zero numeral.negative scaled.num scaled.den_pos⟩
  · rwa [value_eq_signed, abs_signed_sub, abs_signed, abs_of_nonneg magnitude_nonneg]
  · -- of the whole numbers between these bounds only a zero with a sign is no word
    have zero := digits_eq_zero_of_broken broken point power least most
    rw [double?, significand_eq (by rw [zero]; decide), zero, decimal, point, power] at success
    cases success
    rw [value_eq_signed, magnitude, zero, Double.value_ofNat (by decide), Nat.cast_zero, zero_mul]

theorem means_of_float32? (read : numeral.float32? = some float) : numeral.Means float := by
  unfold float32? at read
  split at read
  · rename_i word
    cases read
    exact means_of_isWord word
  · rename_i broken
    obtain ⟨scaled, success, same⟩ := Option.bind_eq_some_iff.mp read
    cases same
    exact means_of_double? digital success broken

end Significands

end Json.Numeral

end HdrGain
