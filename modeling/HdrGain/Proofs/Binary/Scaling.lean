import HdrGain.Proofs.Binary.Nearest

namespace HdrGain.Binary.Double

/-! # The error of scaling

A power of ten is rounded to a double once and the scaled number a second time. Where the power is
small the first is exact, and where the result is a double so is the second. -/

/-- What the two roundings are off by at most, relative to the scaled number. -/
def slack : ℚ := 17 / 16 / 2 ^ 52

variable {first second : Magnitude}

theorem num_pos (positive : 0 < first.value) : 0 < first.num := by
  refine Nat.pos_of_ne_zero fun zero => ?_
  have value := first.num_div_den
  rw [zero, Nat.cast_zero, zero_div] at value
  exact positive.ne value

theorem value_ofNat {number : ℕ} (short : number < 2 ^ 53) : (ofNat number).value = number := by
  rcases Nat.eq_zero_or_pos number with rfl | positive
  · norm_num [ofNat, Precision.nearest, Magnitude.value]
  · have same : ((number : ℕ) : ℚ) / (1 : ℕ) = number * 2 ^ (0 : ℤ) := by norm_num
    rw [ofNat, Precision.nearest_value_eq positive one_pos short (by decide) same]
    norm_num

theorem mul_quotient (first second : Magnitude) :
    ((first.num * second.num : ℕ) : ℚ) / (first.den * second.den : ℕ) =
      first.value * second.value := by
  rw [Nat.cast_mul, Nat.cast_mul, mul_div_mul_comm, first.num_div_den, second.num_div_den]

theorem div_quotient (first second : Magnitude) :
    ((first.num * second.den : ℕ) : ℚ) / (first.den * second.num : ℕ) =
      first.value / second.value := by
  rw [Nat.cast_mul, Nat.cast_mul, ← first.num_div_den, ← second.num_div_den, div_div_div_eq]

theorem abs_mul_sub_le (positive : 0 < first.value) (positive' : 0 < second.value)
    (normal : (2 : ℚ) ^ (-1021 : ℤ) ≤ first.value * second.value) :
    |(mul first second).value - first.value * second.value| ≤
      first.value * second.value / 2 ^ 53 := by
  have near := Precision.abs_nearest_sub_le_mul double
    (Nat.mul_pos (num_pos positive) (num_pos positive'))
    (Nat.mul_pos first.den_pos second.den_pos) (by decide) (by rwa [mul_quotient])
  rwa [mul_quotient] at near

theorem abs_div_sub_le (positive : 0 < first.value) (positive' : 0 < second.value)
    (normal : (2 : ℚ) ^ (-1021 : ℤ) ≤ first.value / second.value) :
    |(div first second).value - first.value / second.value| ≤
      first.value / second.value / 2 ^ 53 := by
  have near := Precision.abs_nearest_sub_le_mul double
    (Nat.mul_pos (num_pos positive) second.den_pos)
    (Nat.mul_pos first.den_pos (num_pos positive')) (by decide) (by rwa [div_quotient])
  rwa [div_quotient] at near

theorem abs_tenTo_sub_le (power : ℕ) :
    |(tenTo power).value - 10 ^ power| ≤ 10 ^ power / 2 ^ 53 := by
  have same : ((10 ^ power : ℕ) : ℚ) / (1 : ℕ) = 10 ^ power := by norm_num
  have normal : (2 : ℚ) ^ (-1021 : ℤ) ≤ 10 ^ power :=
    le_trans (zpow_le_one_of_nonpos₀ one_le_two (by decide)) (one_le_pow₀ (by norm_num))
  have near := Precision.abs_nearest_sub_le_mul double (Nat.pow_pos (show 0 < 10 by decide))
    one_pos (by decide) (by rwa [same])
  rwa [same] at near

theorem value_tenTo {power : ℕ} (small : power ≤ 15) : (tenTo power).value = 10 ^ power := by
  have short : 10 ^ power < 2 ^ 53 :=
    lt_of_le_of_lt (Nat.pow_le_pow_right (by decide) small) (by norm_num)
  have value := value_ofNat short
  exact_mod_cast value

theorem tenTo_bounds (power : ℕ) :
    (1 - 1 / 2 ^ 53) * 10 ^ power ≤ (tenTo power).value ∧
      (tenTo power).value ≤ (1 + 1 / 2 ^ 53) * 10 ^ power := by
  have near := abs_le.mp (abs_tenTo_sub_le power)
  constructor
  · linarith [near.1]
  · linarith [near.2]

theorem tenTo_pos (power : ℕ) : 0 < (tenTo power).value := by
  have lower := (tenTo_bounds power).1
  have positive : (0 : ℚ) < 10 ^ power := by positivity
  linarith

section Scaled

variable {number power : ℕ} (positive : 0 < number) (short : number < 2 ^ 53)

include positive short

theorem ofNat_pos : 0 < (ofNat number).value := by
  rw [value_ofNat short]
  exact Nat.cast_pos.mpr positive

theorem abs_scaledUp_sub_le :
    |(mul (ofNat number) (tenTo power)).value - number * 10 ^ power| ≤
      slack * (number * 10 ^ power) := by
  obtain ⟨lower, upper⟩ := tenTo_bounds power
  have value := value_ofNat short
  have one : (1 : ℚ) ≤ number := Nat.one_le_cast.mpr positive
  have ten : (1 : ℚ) ≤ 10 ^ power := one_le_pow₀ (by norm_num)
  have normal : (2 : ℚ) ^ (-1021 : ℤ) ≤ (ofNat number).value * (tenTo power).value := by
    have half : (2 : ℚ) ^ (-1021 : ℤ) ≤ 2 ^ (-1 : ℤ) := zpow_le_zpow_right₀ one_le_two (by decide)
    have least : (1 : ℚ) * 2 ^ (-1 : ℤ) ≤ number * (tenTo power).value := by
      gcongr
      norm_num
      linarith
    rw [value]
    linarith
  have near := abs_mul_sub_le (ofNat_pos positive short) (tenTo_pos power) normal
  rw [value] at near
  have close : |number * (tenTo power).value - number * 10 ^ power| ≤
      number * (10 ^ power / 2 ^ 53) := by
    rw [← mul_sub, abs_mul, abs_of_nonneg (Nat.cast_nonneg number)]
    gcongr
    exact abs_tenTo_sub_le power
  have scaled : number * (tenTo power).value ≤ number * ((1 + 1 / 2 ^ 53) * 10 ^ power) := by
    gcongr
  have product : (0 : ℚ) < number * 10 ^ power := by positivity
  calc |(mul (ofNat number) (tenTo power)).value - number * 10 ^ power|
      ≤ number * (tenTo power).value / 2 ^ 53 + number * (10 ^ power / 2 ^ 53) :=
        (abs_sub_le _ _ _).trans (add_le_add near close)
    _ ≤ slack * (number * 10 ^ power) := by
        unfold slack
        linarith

theorem abs_scaledDown_sub_le (few : power ≤ 60) :
    |(div (ofNat number) (tenTo power)).value - number / 10 ^ power| ≤
      slack * (number / 10 ^ power) := by
  obtain ⟨lower, upper⟩ := tenTo_bounds power
  have value := value_ofNat short
  have one : (1 : ℚ) ≤ number := Nat.one_le_cast.mpr positive
  have tenPos : (0 : ℚ) < 10 ^ power := by positivity
  have roundedPos := tenTo_pos power
  have normal : (2 : ℚ) ^ (-1021 : ℤ) ≤ (ofNat number).value / (tenTo power).value := by
    have ten : (10 : ℚ) ^ power ≤ 10 ^ 60 := pow_le_pow_right₀ (by norm_num) few
    rw [value, le_div_iff₀ roundedPos]
    calc (2 : ℚ) ^ (-1021 : ℤ) * (tenTo power).value
        ≤ 2 ^ (-250 : ℤ) * ((1 + 1 / 2 ^ 53) * 10 ^ 60) := by
          gcongr
          · norm_num
          · decide
          · linarith
      _ ≤ 1 := by norm_num
      _ ≤ number := one
  have near := abs_div_sub_le (ofNat_pos positive short) roundedPos normal
  rw [value] at near
  have close : |number / (tenTo power).value - number / 10 ^ power| ≤
      number / (tenTo power).value / 2 ^ 53 := by
    have same : number / (tenTo power).value - number / 10 ^ power =
        number / (tenTo power).value * ((10 ^ power - (tenTo power).value) / 10 ^ power) := by
      field_simp
    have relative : |(10 ^ power - (tenTo power).value) / 10 ^ power| ≤ 1 / 2 ^ 53 := by
      rw [abs_div, abs_of_pos tenPos, div_le_iff₀ tenPos, abs_sub_comm, one_div_mul_eq_div]
      exact abs_tenTo_sub_le power
    rw [same, abs_mul, abs_of_pos (by positivity), div_eq_mul_one_div (_ / _) (2 ^ 53)]
    gcongr
  have scaled : number / (tenTo power).value * (1 - 1 / 2 ^ 53) ≤ number / 10 ^ power := by
    rw [div_mul_eq_mul_div, div_le_div_iff₀ roundedPos tenPos, mul_assoc]
    gcongr
  have product : (0 : ℚ) < number / 10 ^ power := by positivity
  calc |(div (ofNat number) (tenTo power)).value - number / 10 ^ power|
      ≤ number / (tenTo power).value / 2 ^ 53 + number / (tenTo power).value / 2 ^ 53 :=
        (abs_sub_le _ _ _).trans (add_le_add near close)
    _ ≤ slack * (number / 10 ^ power) := by
        unfold slack
        linarith

/-- With a small power a scaled number that is a double comes out exactly. -/
theorem value_scaledUp (small : power ≤ 15) {whole : ℕ} {exponent : ℤ} (fits : whole < 2 ^ 53)
    (least : -1074 ≤ exponent) (exact : (number : ℚ) * 10 ^ power = whole * 2 ^ exponent) :
    (mul (ofNat number) (tenTo power)).value = number * 10 ^ power := by
  have quotient := mul_quotient (ofNat number) (tenTo power)
  rw [value_ofNat short, value_tenTo small] at quotient
  rw [mul, Precision.nearest_value_eq
    (Nat.mul_pos (num_pos (ofNat_pos positive short)) (num_pos (tenTo_pos power)))
    (Nat.mul_pos (Magnitude.den_pos _) (Magnitude.den_pos _)) fits least (quotient.trans exact),
    quotient]

theorem value_scaledDown (small : power ≤ 15) {whole : ℕ} {exponent : ℤ} (fits : whole < 2 ^ 53)
    (least : -1074 ≤ exponent) (exact : (number : ℚ) / 10 ^ power = whole * 2 ^ exponent) :
    (div (ofNat number) (tenTo power)).value = number / 10 ^ power := by
  have quotient := div_quotient (ofNat number) (tenTo power)
  rw [value_ofNat short, value_tenTo small] at quotient
  rw [div, Precision.nearest_value_eq
    (Nat.mul_pos (num_pos (ofNat_pos positive short)) (Magnitude.den_pos _))
    (Nat.mul_pos (Magnitude.den_pos _) (num_pos (tenTo_pos power))) fits least
    (quotient.trans exact), quotient]

theorem isDouble_scaledUp (few : power ≤ 60) :
    (mul (ofNat number) (tenTo power)).isDouble = true := by
  have near := (abs_le.mp (@abs_scaledUp_sub_le _ power positive short)).2
  generalize mul (ofNat number) (tenTo power) = product at *
  have ten : (10 : ℚ) ^ power ≤ 10 ^ 60 := pow_le_pow_right₀ (by norm_num) few
  have fits : (number : ℚ) ≤ 2 ^ 53 := by exact_mod_cast short.le
  have scaled : (number : ℚ) * 10 ^ power ≤ 2 ^ 53 * 10 ^ 60 := by gcongr
  have bound : product.value < 2 ^ 255 := by
    unfold slack at near
    norm_num at near scaled ⊢
    linarith
  have large : ∀ places, 255 ≤ places → product.num < Nat.pow 2 places * product.den := by
    intro places many
    have denPos : (0 : ℚ) < product.den := Nat.cast_pos.mpr product.den_pos
    have value := bound.trans_le (pow_le_pow_right₀ one_le_two many)
    rw [← product.num_div_den, div_lt_iff₀ denPos] at value
    refine Nat.cast_lt.mp (value.trans_eq ?_)
    rw [Nat.cast_mul, Nat.pow_eq, Nat.cast_pow, Nat.cast_ofNat]
  exact decide_eq_true (large 1024 (by decide))

theorem mantissa_ne_zero : (ofNat number).mantissa ≠ 0 := by
  intro zero
  have value := ofNat_pos positive short
  rw [Magnitude.value, zero] at value
  simp at value

/-- Scaling succeeds and is off by little, and by nothing where it need not be. -/
theorem exists_scale {power : ℤ} (least : -60 ≤ power) (most : power ≤ 60) :
    ∃ scaled, scale? (ofNat number) power = some scaled ∧
      |scaled.value - number * 10 ^ power| ≤ slack * (number * 10 ^ power) ∧
      (-15 ≤ power → power ≤ 15 → ∀ (whole : ℕ) (exponent : ℤ), whole < 2 ^ 53 →
        -1074 ≤ exponent → (number : ℚ) * 10 ^ power = whole * 2 ^ exponent →
          scaled.value = number * 10 ^ power) := by
  cases power with
  | ofNat size =>
      rw [Int.ofNat_eq_natCast] at *
      have few : size ≤ 60 := by omega
      have bounded : ¬ largestPower < size := by
        unfold largestPower
        omega
      refine ⟨mul (ofNat number) (tenTo size), ?_, ?_, ?_⟩
      · change scaleUp? _ _ = _
        rw [scaleUp?, if_neg (mantissa_ne_zero positive short), if_neg bounded]
        exact if_pos (isDouble_scaledUp positive short few)
      · rw [zpow_natCast]
        exact abs_scaledUp_sub_le positive short
      · intro _ small whole exponent fits finest exact
        rw [zpow_natCast] at exact ⊢
        exact value_scaledUp positive short (by omega) fits finest exact
  | negSucc size =>
      have few : size + 1 ≤ 60 := by omega
      have bounded : size + 1 ≤ largestPower := by
        unfold largestPower
        omega
      refine ⟨div (ofNat number) (tenTo (size + 1)), ?_, ?_, ?_⟩
      · change some (scaleDown _ _) = _
        rw [scaleDown, if_pos bounded]
      · rw [zpow_negSucc, ← div_eq_mul_inv]
        exact abs_scaledDown_sub_le positive short few
      · intro small _ whole exponent fits finest exact
        rw [zpow_negSucc, ← div_eq_mul_inv] at exact ⊢
        exact value_scaledDown positive short (by omega) fits finest exact

end Scaled

end HdrGain.Binary.Double
