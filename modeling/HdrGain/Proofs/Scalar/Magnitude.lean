import HdrGain.Proofs.Scalar.Comparison

namespace HdrGain.Rounding

open Float.Model Float.Model.UnpackedFloat

/-- A number of at most `2 ^ places`. -/
def Within (value : Float32) (places : ℕ) : Prop :=
  ∃ number, numberOf? value = some number ∧ |number| ≤ 2 ^ places

/-- Zero, or a number from a `2 ^ low`-th to `2 ^ high`. -/
def Clear (value : Float32) (low high : ℕ) : Prop :=
  ∃ number, numberOf? value = some number ∧ |number| ≤ 2 ^ high ∧
    (number = 0 ∨ 2 ^ (-low : ℤ) ≤ |number|)

section Bounds

variable {first second value : Float32} {places places' low low' high high' : ℕ}

theorem numberOf?_of_unpack {sign : Sign} {mantissa : Nat} {exponent : ℤ} {positive : 0 < mantissa}
    (unpacked : value.toModel.unpack = .finite sign mantissa exponent positive) :
    numberOf? value = some (signed sign (mantissa * 2 ^ exponent)) := by
  rw [numberOf?, unpacked, number?_finite]

theorem numberOf?_unit : numberOf? 1.0 = some 1 := by
  have unpacked : (1.0 : Float32).toModel.unpack =
      .finite .positive 8388608 (-23) (by decide) := by rfl
  rw [numberOf?_of_unpack unpacked]
  norm_num [signed]

theorem within_one : Within 1.0 0 :=
  ⟨1, numberOf?_unit, by norm_num⟩

theorem Within.exists_number (within : Within value places) :
    ∃ number, numberOf? value = some number := by
  obtain ⟨number, stands, _⟩ := within
  exact ⟨number, stands⟩

theorem Within.mono (within : Within value places) (wider : places ≤ places') :
    Within value places' := by
  obtain ⟨number, stands, bound⟩ := within
  exact ⟨number, stands, bound.trans (pow_le_pow_right₀ (by norm_num) wider)⟩

theorem Within.of_rounds {exact : ℚ} (rounded : ∃ result, numberOf? value = some result ∧
    RoundsTo exact result) (bound : |exact| ≤ 2 ^ places) : Within value places := by
  obtain ⟨result, stands, rounds⟩ := rounded
  exact ⟨result, stands, rounds.abs_le_two_pow bound⟩

theorem Within.of_between {least most : ℚ} (stands : numberOf? first = some least)
    (stands' : numberOf? second = some most) (above : first ≤ value) (below : value ≤ second)
    (low : -2 ^ places ≤ least) (high : most ≤ 2 ^ places) : Within value places := by
  obtain ⟨number, found, lower, upper⟩ := exists_number_of_between stands stands' above below
  exact ⟨number, found, abs_le.mpr ⟨low.trans lower, upper.trans high⟩⟩

theorem two_pow_le_largest (small : places ≤ 127) : (2 : ℚ) ^ places ≤ 2 ^ 127 :=
  pow_le_pow_right₀ (by norm_num) small

theorem Within.abs_le {number : ℚ} (within : Within value places)
    (stands : numberOf? value = some number) : |number| ≤ 2 ^ places := by
  obtain ⟨_, same, bound⟩ := within
  cases stands.symm.trans same
  exact bound

theorem abs_add_le_of_within {number number' : ℚ} (stands : numberOf? first = some number)
    (stands' : numberOf? second = some number') (within : Within first places)
    (within' : Within second places) : |number + number'| ≤ 2 ^ (places + 1) := by
  rw [pow_succ]
  linarith [abs_add_le number number', within.abs_le stands, within'.abs_le stands']

theorem abs_sub_le_of_within {number number' : ℚ} (stands : numberOf? first = some number)
    (stands' : numberOf? second = some number') (within : Within first places)
    (within' : Within second places) : |number - number'| ≤ 2 ^ (places + 1) := by
  rw [pow_succ]
  linarith [abs_sub number number', within.abs_le stands, within'.abs_le stands']

theorem Within.add (within : Within first places) (within' : Within second places)
    (small : places + 1 ≤ 127) : Within (first + second) (places + 1) := by
  obtain ⟨number, stands⟩ := within.exists_number
  obtain ⟨number', stands'⟩ := within'.exists_number
  have sum := abs_add_le_of_within stands stands' within within'
  exact .of_rounds (numberOf?_add stands stands' (sum.trans (two_pow_le_largest small))) sum

theorem Within.sub (within : Within first places) (within' : Within second places)
    (small : places + 1 ≤ 127) : Within (first - second) (places + 1) := by
  obtain ⟨number, stands⟩ := within.exists_number
  obtain ⟨number', stands'⟩ := within'.exists_number
  have difference := abs_sub_le_of_within stands stands' within within'
  exact .of_rounds (numberOf?_sub stands stands' (difference.trans (two_pow_le_largest small)))
    difference

theorem Within.mul (within : Within first places) (within' : Within second places')
    (small : places + places' ≤ 127) : Within (first * second) (places + places') := by
  obtain ⟨number, stands, bound⟩ := within
  obtain ⟨number', stands', bound'⟩ := within'
  have product : |number * number'| ≤ 2 ^ (places + places') := by
    rw [abs_mul, pow_add]
    exact mul_le_mul bound bound' (abs_nonneg _) (by positivity)
  exact .of_rounds (numberOf?_mul stands stands' (product.trans (two_pow_le_largest small)))
    product

/-- Dividing by one or more makes no number larger. -/
theorem numberOf?_div_of_one_le {number divisor : ℚ} (stands : numberOf? first = some number)
    (bound : |number| ≤ 2 ^ places) (stands' : numberOf? second = some divisor)
    (least : 1 ≤ divisor) (small : places ≤ 127) :
    |number / divisor| ≤ 2 ^ places ∧
      ∃ result, numberOf? (first / second) = some result ∧ RoundsTo (number / divisor) result := by
  have quotient : |number / divisor| ≤ 2 ^ places := by
    rw [abs_div, abs_of_pos (one_pos.trans_le least)]
    exact (div_le_self (abs_nonneg _) least).trans bound
  exact ⟨quotient, numberOf?_div stands stands' (one_pos.trans_le least).ne'
    (quotient.trans (two_pow_le_largest small))⟩

theorem Within.div {divisor : ℚ} (within : Within first places)
    (stands' : numberOf? second = some divisor) (least : 1 ≤ divisor)
    (small : places ≤ 127) :
    Within (first / second) places := by
  obtain ⟨number, stands, bound⟩ := within
  obtain ⟨quotient, rounded⟩ := numberOf?_div_of_one_le stands bound stands' least small
  exact .of_rounds rounded quotient

theorem Within.ofNat {count : Nat} (inside : count ≤ 2 ^ places)
    (small : places ≤ 127) :
    Within (Scalar.ofNat count) places := by
  have bound : |(count : ℚ)| ≤ 2 ^ places := by
    rw [abs_of_nonneg (Nat.cast_nonneg _)]
    exact_mod_cast inside
  exact .of_rounds (numberOf?_ofNat (inside.trans (Nat.pow_le_pow_right (by decide) small))) bound

theorem Clear.of_unpack {mantissa : Nat} {exponent : ℤ} {positive : 0 < mantissa}
    (unpacked : value.toModel.unpack = .finite .positive mantissa exponent positive)
    (bound : (mantissa : ℚ) * 2 ^ exponent ≤ 2 ^ high)
    (away : 2 ^ (-low : ℤ) ≤ (mantissa : ℚ) * 2 ^ exponent) : Clear value low high := by
  have magnitude : |(mantissa : ℚ) * 2 ^ exponent| = mantissa * 2 ^ exponent :=
    abs_of_nonneg (by positivity)
  exact ⟨_, numberOf?_of_unpack unpacked, magnitude.trans_le bound,
    .inr (away.trans_eq magnitude.symm)⟩

theorem Clear.within (clear : Clear value low high) : Within value high := by
  obtain ⟨number, stands, bound, _⟩ := clear
  exact ⟨number, stands, bound⟩

theorem Clear.mono (clear : Clear value low high) (finer : low ≤ low') (wider : high ≤ high') :
    Clear value low' high' := by
  obtain ⟨number, stands, bound, away⟩ := clear
  refine ⟨number, stands, bound.trans (pow_le_pow_right₀ (by norm_num) wider),
    away.imp_right fun far => ?_⟩
  exact (zpow_le_zpow_right₀ (by norm_num) (by omega)).trans far

theorem Clear.of_rounds {exact : ℚ} (bound : |exact| ≤ 2 ^ high) (small : low ≤ 149)
    (away : exact = 0 ∨ 2 ^ (-low : ℤ) ≤ |exact|)
    (rounded : ∃ result, numberOf? value = some result ∧ RoundsTo exact result) :
    Clear value low high := by
  obtain ⟨result, stands, rounds⟩ := rounded
  refine ⟨result, stands, rounds.abs_le_two_pow bound, ?_⟩
  rcases away with rfl | far
  · exact .inl rounds.eq_zero
  · exact .inr (rounds.two_zpow_le_abs _ (by omega) far)

theorem Clear.ofNat {count : Nat} (inside : count ≤ 2 ^ high) (large : high ≤ 127) :
    Clear (Scalar.ofNat count) 0 high := by
  have magnitude : |(count : ℚ)| = count := abs_of_nonneg (Nat.cast_nonneg _)
  refine .of_rounds (by rw [magnitude]; exact_mod_cast inside) (by decide) ?_
    (numberOf?_ofNat (inside.trans (Nat.pow_le_pow_right (by decide) large)))
  rw [magnitude]
  rcases Nat.eq_zero_or_pos count with rfl | positive
  · exact .inl Nat.cast_zero
  · right
    rw [Nat.cast_zero, neg_zero, zpow_zero]
    exact_mod_cast positive

theorem Clear.mul (clear : Clear first low high) (clear' : Clear second low' high')
    (large : high + high' ≤ 127) (small : low + low' ≤ 149) :
    Clear (first * second) (low + low') (high + high') := by
  obtain ⟨number, stands, bound, away⟩ := clear
  obtain ⟨number', stands', bound', away'⟩ := clear'
  have product : |number * number'| ≤ 2 ^ (high + high') := by
    rw [abs_mul, pow_add]
    exact mul_le_mul bound bound' (abs_nonneg _) (by positivity)
  refine .of_rounds product small ?_
    (numberOf?_mul stands stands' (product.trans (two_pow_le_largest large)))
  rcases away with rfl | far
  · exact .inl (zero_mul _)
  · rcases away' with rfl | far'
    · exact .inl (mul_zero _)
    · have split : (-(low + low' : ℕ) : ℤ) = -low + -low' := by
        push_cast
        ring
      right
      rw [abs_mul, split, zpow_add₀ (by norm_num)]
      exact mul_le_mul far far' (by positivity) (abs_nonneg _)

/-- A quotient is as far from zero as its dividend, less the places of the divisor. -/
theorem two_zpow_le_abs_div {number divisor : ℚ} (far : 2 ^ (-low : ℤ) ≤ |number|)
    (least : 1 ≤ divisor) (most : divisor ≤ 2 ^ places) :
    2 ^ (-(low + places : ℕ) : ℤ) ≤ |number / divisor| := by
  have positive : 0 < divisor := one_pos.trans_le least
  have split : (2 : ℚ) ^ (-(low + places : ℕ) : ℤ) = 2 ^ (-low : ℤ) / 2 ^ places := by
    rw [div_eq_mul_inv, ← zpow_natCast, ← zpow_neg, ← zpow_add₀ (by norm_num)]
    congr 1
    push_cast
    ring
  rw [abs_div, abs_of_pos positive, split]
  exact div_le_div₀ (abs_nonneg _) far positive most

theorem Clear.div {divisor : ℚ} (clear : Clear first low high)
    (stands' : numberOf? second = some divisor) (least : 1 ≤ divisor)
    (most : divisor ≤ 2 ^ places) (large : high ≤ 127)
    (small : low + places ≤ 149) :
    Clear (first / second) (low + places) high := by
  obtain ⟨number, stands, bound, away⟩ := clear
  obtain ⟨quotient, rounded⟩ := numberOf?_div_of_one_le stands bound stands' least large
  refine .of_rounds quotient small ?_ rounded
  rcases away with rfl | far
  · exact .inl (zero_div _)
  · exact .inr (two_zpow_le_abs_div far least most)

/-- A float that is not too close to zero lies on a grid that is not too fine. -/
theorem Clear.onGrid (clear : Clear value low high) :
    ∃ steps : ℤ, numberOf? value = some ((steps : ℚ) * 2 ^ (-(low + 23 : ℕ) : ℤ)) := by
  obtain ⟨number, stands, _, away⟩ := clear
  have canonical := canonical_unpack value.toModel
  rcases number?_eq_some stands with ⟨sign, unpacked, rfl⟩ |
    ⟨sign, mantissa, exponent, positive, unpacked, rfl⟩
  · refine ⟨0, ?_⟩
    rw [stands, Int.cast_zero, zero_mul]
  · rw [unpacked] at canonical
    obtain ⟨short, _, _⟩ := canonical
    have magnitude : (0 : ℚ) < mantissa * 2 ^ exponent := by positivity
    rw [abs_signed, abs_of_pos magnitude] at away
    have far : (2 : ℚ) ^ (-low : ℤ) < 2 ^ (24 + exponent) := by
      refine (away.resolve_left ?_).trans_lt ?_
      · cases sign with
        | positive => exact magnitude.ne'
        | negative => exact neg_ne_zero.mpr magnitude.ne'
      · rw [zpow_add₀ (by norm_num)]
        exact mul_lt_mul_of_pos_right (by exact_mod_cast short) (by positivity)
    have exponents := (zpow_lt_zpow_iff_right₀ (by norm_num)).mp far
    obtain ⟨places, coarse⟩ : ∃ places : ℕ, exponent = places + (-(low + 23 : ℕ) : ℤ) :=
      ⟨(exponent + (low + 23 : ℕ)).toNat, by omega⟩
    have onGrid : (mantissa : ℚ) * 2 ^ exponent =
        (((mantissa * 2 ^ places : ℕ) : ℤ) : ℚ) * 2 ^ (-(low + 23 : ℕ) : ℤ) := by
      rw [coarse, zpow_add₀ (by norm_num), zpow_natCast]
      push_cast
      ring
    rw [stands, onGrid]
    cases sign with
    | positive => exact ⟨_, rfl⟩
    | negative =>
        refine ⟨-((mantissa * 2 ^ places : ℕ) : ℤ), ?_⟩
        rw [Int.cast_neg, neg_mul]
        rfl

theorem grid_away (steps : ℤ) (places : ℕ) :
    (steps : ℚ) * 2 ^ (-places : ℤ) = 0 ∨
      2 ^ (-places : ℤ) ≤ |(steps : ℚ) * 2 ^ (-places : ℤ)| := by
  by_cases none : steps = 0
  · left
    rw [none, Int.cast_zero, zero_mul]
  · right
    have unit : (0 : ℚ) < 2 ^ (-places : ℤ) := by positivity
    have one_le : (1 : ℚ) ≤ |(steps : ℚ)| := by exact_mod_cast Int.one_le_abs none
    rw [abs_mul, abs_of_pos unit]
    exact le_mul_of_one_le_left unit.le one_le

theorem Clear.add (clear : Clear first low high) (clear' : Clear second low high)
    (large : high + 1 ≤ 127) (small : low + 23 ≤ 149) :
    Clear (first + second) (low + 23) (high + 1) := by
  obtain ⟨steps, stands⟩ := clear.onGrid
  obtain ⟨steps', stands'⟩ := clear'.onGrid
  have sum := abs_add_le_of_within stands stands' clear.within clear'.within
  refine .of_rounds sum small ?_
    (numberOf?_add stands stands' (sum.trans (two_pow_le_largest large)))
  rw [← add_mul, ← Int.cast_add]
  exact grid_away _ _

theorem Clear.sub (clear : Clear first low high) (clear' : Clear second low high)
    (large : high + 1 ≤ 127) (small : low + 23 ≤ 149) :
    Clear (first - second) (low + 23) (high + 1) := by
  obtain ⟨steps, stands⟩ := clear.onGrid
  obtain ⟨steps', stands'⟩ := clear'.onGrid
  have difference := abs_sub_le_of_within stands stands' clear.within clear'.within
  refine .of_rounds difference small ?_
    (numberOf?_sub stands stands' (difference.trans (two_pow_le_largest large)))
  rw [← sub_mul, ← Int.cast_sub]
  exact grid_away _ _

end Bounds

end HdrGain.Rounding
