import HdrGain.Address
import HdrGain.Proofs.Binary.Scaling

namespace HdrGain.Binary

/-- What was found is off from what is exact by at most so many parts in `2 ^ 53`, and by a rest. -/
def Near (parts : ℕ) (rest exact found : ℚ) : Prop :=
  |found - exact| ≤ parts * exact / 2 ^ 53 + rest

/-- Half of the last place that doubles have. -/
def halfPlace : ℚ := 2 ^ (-1075 : ℤ)

theorem halfPlace_pos : 0 < halfPlace :=
  zpow_pos two_pos _

namespace Near

variable {parts parts' : ℕ} {rest rest' exact found next : ℚ}

theorem mono (near : Near parts rest exact found) (nonneg : 0 ≤ exact) (more : parts ≤ parts')
    (wider : rest ≤ rest') : Near parts' rest' exact found := by
  refine near.trans (add_le_add ?_ wider)
  gcongr

/-- Errors of errors are covered by one more part and by twice the rest. -/
theorem trans (near : Near parts rest exact found) (further : Near parts' rest' found next)
    (nonneg : 0 ≤ exact) (nonneg' : 0 ≤ rest) (few : parts * parts' ≤ 2 ^ 53)
    (few' : parts' ≤ 2 ^ 53) : Near (parts + parts' + 1) (2 * rest + rest') exact next := by
  have upper := (abs_le.mp near).2
  have product : (parts' : ℚ) * (parts * exact / 2 ^ 53) ≤ exact := by
    rw [← mul_div_assoc, div_le_iff₀ (by positivity), ← mul_assoc, mul_comm (parts' : ℚ),
      mul_comm exact]
    exact mul_le_mul_of_nonneg_right (by exact_mod_cast few) nonneg
  have slack : (parts' : ℚ) * rest ≤ 2 ^ 53 * rest :=
    mul_le_mul_of_nonneg_right (by exact_mod_cast few') nonneg'
  have scaled : (parts' : ℚ) * found ≤ parts' * exact + exact + 2 ^ 53 * rest :=
    calc (parts' : ℚ) * found ≤ parts' * (exact + (parts * exact / 2 ^ 53 + rest)) := by
          gcongr
          linarith
      _ = parts' * exact + parts' * (parts * exact / 2 ^ 53) + parts' * rest := by ring
      _ ≤ parts' * exact + exact + 2 ^ 53 * rest := by linarith
  calc |next - exact| ≤ |next - found| + |found - exact| := abs_sub_le _ _ _
    _ ≤ (parts' * found / 2 ^ 53 + rest') + (parts * exact / 2 ^ 53 + rest) :=
        add_le_add further near
    _ ≤ ((parts' * exact + exact + 2 ^ 53 * rest) / 2 ^ 53 + rest') +
          (parts * exact / 2 ^ 53 + rest) := by gcongr
    _ = ((parts + parts' + 1 : ℕ) : ℚ) * exact / 2 ^ 53 + (2 * rest + rest') := by
        push_cast
        ring

theorem mul {exact' found' : ℚ} (near : Near parts rest exact found)
    (near' : Near parts' 0 exact' found') (nonneg : 0 ≤ exact) (nonneg' : 0 ≤ exact')
    (nonneg'' : 0 ≤ rest) (few : parts * parts' ≤ 2 ^ 53) (few' : parts' ≤ 2 ^ 53) :
    Near (parts + parts' + 1) (2 * rest * exact') (exact * exact') (found * found') := by
  unfold Near at near near'
  rw [add_zero] at near'
  have split : found * found' - exact * exact' =
      (found - exact) * exact' + exact * (found' - exact') +
        (found - exact) * (found' - exact') := by ring
  have first : |(found - exact) * exact'| ≤ (parts * exact / 2 ^ 53 + rest) * exact' := by
    rw [abs_mul, abs_of_nonneg nonneg']
    gcongr
  have second : |exact * (found' - exact')| ≤ exact * (parts' * exact' / 2 ^ 53) := by
    rw [abs_mul, abs_of_nonneg nonneg]
    gcongr
  have third : |(found - exact) * (found' - exact')| ≤
      exact * exact' / 2 ^ 53 + rest * exact' := by
    have both : (parts : ℚ) * parts' ≤ 2 ^ 53 := by exact_mod_cast few
    have single : (parts' : ℚ) ≤ 2 ^ 53 := by exact_mod_cast few'
    rw [abs_mul]
    calc |found - exact| * |found' - exact'|
        ≤ (parts * exact / 2 ^ 53 + rest) * (parts' * exact' / 2 ^ 53) := by gcongr
      _ = (parts * parts') * (exact * exact' / 2 ^ 53) / 2 ^ 53 +
            parts' * (rest * exact') / 2 ^ 53 := by ring
      _ ≤ 2 ^ 53 * (exact * exact' / 2 ^ 53) / 2 ^ 53 + 2 ^ 53 * (rest * exact') / 2 ^ 53 := by
          gcongr
      _ = exact * exact' / 2 ^ 53 + rest * exact' := by ring
  calc |found * found' - exact * exact'|
      ≤ |(found - exact) * exact'| + |exact * (found' - exact')| +
          |(found - exact) * (found' - exact')| := by
        rw [split]
        exact abs_add_three _ _ _
    _ ≤ (parts * exact / 2 ^ 53 + rest) * exact' + exact * (parts' * exact' / 2 ^ 53) +
          (exact * exact' / 2 ^ 53 + rest * exact') := by gcongr
    _ = ((parts + parts' + 1 : ℕ) : ℚ) * (exact * exact') / 2 ^ 53 + 2 * rest * exact' := by
        push_cast
        ring

theorem inv (near : Near 1 0 exact found) (positive : 0 < exact) :
    Near 2 0 exact⁻¹ found⁻¹ := by
  unfold Near at near ⊢
  rw [Nat.cast_one, one_mul, add_zero] at near
  have lower : exact / 2 ≤ found := by
    have below := (abs_le.mp near).1
    linarith
  have foundPos : 0 < found := (half_pos positive).trans_le lower
  rw [inv_sub_inv foundPos.ne' positive.ne', abs_div, abs_sub_comm,
    abs_of_pos (mul_pos foundPos positive), add_zero, div_le_iff₀ (by positivity)]
  calc |found - exact| ≤ exact / 2 ^ 53 := near
    _ = exact⁻¹ * (exact * (exact / 2 ^ 53)) := by field_simp
    _ ≤ exact⁻¹ * (2 * found * (exact / 2 ^ 53)) := by
        gcongr
        linarith
    _ = (2 : ℕ) * exact⁻¹ / 2 ^ 53 * (found * exact) := by
        push_cast
        ring

end Near

section Doubles

variable {num den : ℕ}

theorem near_nearest_of_normal (positive : 0 < num) (positive' : 0 < den)
    (normal : (2 : ℚ) ^ (-1021 : ℤ) ≤ num / den) :
    Near 1 0 (num / den) (double.nearest num den).value := by
  have near := Precision.abs_nearest_sub_le_mul double positive positive' (by decide) normal
  rw [Near, Nat.cast_one, one_mul, add_zero]
  exact near

/-- Near zero the places of doubles come to an end. -/
theorem near_nearest (num : ℕ) (positive' : 0 < den) :
    Near 1 halfPlace (num / den) (double.nearest num den).value := by
  rcases Nat.eq_zero_or_pos num with rfl | positive
  · have none : double.nearest 0 den = ⟨0, -1074⟩ := rfl
    rw [none, Near, Magnitude.value, Nat.cast_zero, zero_div, zero_mul, sub_zero, abs_zero]
    have half := halfPlace_pos
    linarith
  · have near : |(double.nearest num den).value - num / den| ≤ 2 ^ double.place num den / 2 :=
      Precision.abs_nearest_sub_le positive positive'
    have leading := (leadingPlace_bounds positive positive').1
    have place : double.place num den = max (-1074) (leadingPlace num den - 52) := rfl
    have quotient : (0 : ℚ) < num / den := (zpow_pos two_pos _).trans_le leading
    rw [Near, Nat.cast_one, one_mul]
    refine near.trans ?_
    rcases le_or_gt (leadingPlace num den - 52) (-1074) with fine | coarse
    · rw [place, max_eq_left fine]
      have half : (2 : ℚ) ^ (-1074 : ℤ) / 2 = halfPlace := (zpow_sub_one₀ two_ne_zero _).symm
      rw [half]
      have part : (0 : ℚ) ≤ num / den / 2 ^ 53 := by positivity
      linarith
    · have half : (2 : ℚ) ^ (leadingPlace num den - 52) / 2 =
          2 ^ leadingPlace num den / 2 ^ 53 := by
        rw [zpow_sub₀ two_ne_zero]
        norm_num [div_div]
      rw [place, max_eq_right coarse.le, half]
      have part : (2 : ℚ) ^ leadingPlace num den / 2 ^ 53 ≤ num / den / 2 ^ 53 := by gcongr
      have half := halfPlace_pos
      linarith

end Doubles

namespace Double

variable {size power : ℕ}

theorem near_ofNat (size : ℕ) : Near 1 0 size (ofNat size).value := by
  rcases Nat.eq_zero_or_pos size with rfl | positive
  · rw [value_ofNat (by decide), Near, sub_self]
    norm_num
  · have whole : ((size : ℕ) : ℚ) / (1 : ℕ) = size := by norm_num
    have normal : (2 : ℚ) ^ (-1021 : ℤ) ≤ (size : ℚ) / (1 : ℕ) := by
      rw [whole]
      exact (zpow_le_one_of_nonpos₀ one_le_two (by decide)).trans (by exact_mod_cast positive)
    have near := near_nearest_of_normal positive one_pos normal
    rwa [whole] at near

theorem near_tenTo (power : ℕ) : Near 1 0 (10 ^ power) (tenTo power).value := by
  rw [Near, Nat.cast_one, one_mul, add_zero]
  exact abs_tenTo_sub_le power

theorem half_le_ofNat (positive : 0 < size) : 1 / 2 ≤ (ofNat size).value := by
  have near := near_ofNat size
  have least : (1 : ℚ) ≤ size := by exact_mod_cast positive
  rw [Near, Nat.cast_one, one_mul, add_zero] at near
  have lower := (abs_le.mp near).1
  linarith

theorem half_le_tenTo (power : ℕ) : 1 / 2 ≤ (tenTo power).value := by
  have lower := (tenTo_bounds power).1
  have least : (1 : ℚ) ≤ 10 ^ power := one_le_pow₀ (by norm_num)
  linarith

theorem near_scaledUp (positive : 0 < size) (power : ℕ) :
    Near 5 0 (size * 10 ^ power) (mul (ofNat size) (tenTo power)).value := by
  have sizeLeast := half_le_ofNat positive
  have tenLeast := half_le_tenTo power
  have product : 1 / 2 * (1 / 2) ≤ (ofNat size).value * (tenTo power).value := by gcongr
  have normal : (2 : ℚ) ^ (-1021 : ℤ) ≤ (ofNat size).value * (tenTo power).value := by
    refine le_trans (zpow_le_zpow_right₀ one_le_two (show (-1021 : ℤ) ≤ -2 by decide)) ?_
    refine le_trans ?_ product
    norm_num
  have rounded : Near 1 0 ((ofNat size).value * (tenTo power).value)
      (mul (ofNat size) (tenTo power)).value := by
    rw [Near, Nat.cast_one, one_mul, add_zero]
    exact abs_mul_sub_le (by linarith) (by linarith) normal
  have exact := (near_ofNat size).mul (near_tenTo power) (by positivity) (by positivity) le_rfl
    (by norm_num) (by norm_num)
  exact (exact.trans rounded (by positivity) (by simp) (by norm_num) (by norm_num)).mono
    (by positivity) (by norm_num) (by simp)

/-- A quotient by a power of ten, where what is divided may be off already. -/
theorem near_divided {parts : ℕ} {rest exact : ℚ} {dividend : Magnitude} (power : ℕ)
    (near : Near parts rest exact dividend.value) (nonneg : 0 ≤ exact) (nonneg' : 0 ≤ rest)
    (few : parts ≤ 2 ^ 50) :
    Near (parts + 5) (4 * rest * (10 ^ power)⁻¹ + halfPlace) (exact * (10 ^ power)⁻¹)
      (div dividend (tenTo power)).value := by
  have rounded := near_nearest (dividend.num * (tenTo power).den)
    (Nat.mul_pos dividend.den_pos (num_pos (tenTo_pos power)))
  rw [div_quotient, div_eq_mul_inv] at rounded
  have inverse := (near_tenTo power).inv (by positivity)
  have exact := near.mul inverse nonneg (by positivity) nonneg' (by omega) (by norm_num)
  refine (exact.trans rounded (by positivity) (by positivity) (by omega) (by norm_num)).mono
    (by positivity) (by omega) ?_
  linarith

theorem near_scaleDown (word : size < addressLimit) (power : ℕ) :
    Near 11 (2 * halfPlace) (size * (10 ^ power)⁻¹) (scaleDown (ofNat size) power).value := by
  have half := halfPlace_pos
  have once (power : ℕ) : Near 6 halfPlace (size * (10 ^ power)⁻¹)
      (div (ofNat size) (tenTo power)).value :=
    (near_divided power (near_ofNat size) (by positivity) le_rfl (by norm_num)).mono
      (by positivity) (by norm_num) (by simp)
  unfold scaleDown
  split_ifs with small middling
  · refine (once power).mono (by positivity) (by norm_num) ?_
    linarith
  · obtain ⟨more, rfl⟩ : ∃ more, power = largestPower + (more + 1) :=
      ⟨power - largestPower - 1, by omega⟩
    rw [Nat.add_sub_cancel_left]
    have twice := near_divided (more + 1) (once largestPower) (by positivity) half.le (by norm_num)
    have tenth : ((10 : ℚ) ^ (more + 1))⁻¹ ≤ 1 / 10 := by
      rw [inv_le_comm₀ (by positivity) (by norm_num)]
      exact le_trans (by norm_num) (le_self_pow₀ (by norm_num) (by omega))
    rw [pow_add, mul_inv, ← mul_assoc]
    refine twice.mono (by positivity) (by norm_num) ?_
    have rest := mul_le_mul_of_nonneg_left tenth half.le
    rw [mul_assoc]
    linarith
  · have far : 617 ≤ power := by
      unfold largestPower at middling
      omega
    have large : (2 : ℚ) ^ (1138 : ℤ) ≤ 10 ^ power :=
      calc (2 : ℚ) ^ (1138 : ℤ) ≤ (2 ^ 3) ^ 617 := by
            rw [← pow_mul, zpow_ofNat]
            exact pow_le_pow_right₀ one_le_two (by decide)
        _ ≤ 10 ^ 617 := pow_le_pow_left₀ (by norm_num) (by norm_num) _
        _ ≤ 10 ^ power := pow_le_pow_right₀ (by norm_num) far
    have short : (size : ℚ) ≤ 2 ^ (64 : ℤ) := by exact_mod_cast word.le
    have small : (size : ℚ) * (10 ^ power)⁻¹ ≤ 2 * halfPlace :=
      calc (size : ℚ) * (10 ^ power)⁻¹ ≤ 2 ^ (64 : ℤ) * (2 ^ (1138 : ℤ))⁻¹ :=
            mul_le_mul short (inv_anti₀ (zpow_pos two_pos _) large) (by positivity)
              (zpow_pos two_pos _).le
        _ = 2 ^ (1 + -1075 : ℤ) := by
            rw [← zpow_neg, ← zpow_add₀ two_ne_zero]
            norm_num only
        _ = 2 * halfPlace := zpow_one_add₀ two_ne_zero _
    have nonneg : (0 : ℚ) ≤ size * (10 ^ power)⁻¹ := by positivity
    rw [value_ofNat (by decide), Near, Nat.cast_zero, zero_sub, abs_neg, abs_of_nonneg nonneg]
    have parts : (0 : ℚ) ≤ (11 : ℕ) * (size * (10 ^ power)⁻¹) / 2 ^ 53 := by positivity
    linarith

theorem isDouble_iff {magnitude : Magnitude} :
    magnitude.isDouble = true ↔ magnitude.value < 2 ^ 1024 := by
  have denPos : (0 : ℚ) < magnitude.den := Nat.cast_pos.mpr magnitude.den_pos
  unfold Magnitude.isDouble
  generalize 1024 = places
  rw [decide_eq_true_eq, ← magnitude.num_div_den, div_lt_iff₀ denPos, Nat.pow_eq]
  exact_mod_cast Iff.rfl

theorem mantissa_eq_zero_iff : (ofNat size).mantissa = 0 ↔ size = 0 := by
  constructor
  · intro none
    by_contra nonzero
    have least := half_le_ofNat (Nat.pos_of_ne_zero nonzero)
    rw [Magnitude.value, none] at least
    norm_num at least
  · rintro rfl
    rfl

theorem scaleUp?_zero (power : ℕ) : scaleUp? (ofNat 0) power = some (ofNat 0) :=
  if_pos rfl

theorem scaleUp?_eq (positive : 0 < size) (bounded : power ≤ largestPower) :
    scaleUp? (ofNat size) power =
      if (mul (ofNat size) (tenTo power)).value < 2 ^ 1024 then
        some (mul (ofNat size) (tenTo power)) else none := by
  rw [scaleUp?, if_neg (mt mantissa_eq_zero_iff.mp positive.ne'), if_neg (not_lt.mpr bounded)]
  simp only [isDouble_iff]

theorem scaleUp?_of_large (positive : 0 < size) (large : largestPower < power) :
    scaleUp? (ofNat size) power = none := by
  rw [scaleUp?, if_neg (mt mantissa_eq_zero_iff.mp positive.ne'), if_pos large]

/-- A word that is scaled is the number that it stands for, but for the errors of few roundings. It
is a double. -/
theorem near_of_scale? (word : size < addressLimit) {power : ℤ} {scaled : Magnitude}
    (success : scale? (ofNat size) power = some scaled) :
    Near 11 (2 * halfPlace) (size * 10 ^ power) scaled.value ∧ scaled.value < 2 ^ 1024 := by
  have half := halfPlace_pos
  cases power with
  | ofNat power =>
      change scaleUp? _ _ = _ at success
      rw [Int.ofNat_eq_natCast, zpow_natCast]
      rcases Nat.eq_zero_or_pos size with rfl | positive
      · rw [scaleUp?_zero] at success
        cases success
        rw [value_ofNat (by decide), Near]
        norm_num
        exact half.le
      · rcases Nat.lt_or_ge largestPower power with large | bounded
        · rw [scaleUp?_of_large positive large] at success
          cases success
        · rw [scaleUp?_eq positive bounded] at success
          split_ifs at success with double
          cases success
          exact ⟨(near_scaledUp positive power).mono (by positivity) (by norm_num)
            (by linarith), double⟩
  | negSucc power =>
      change some (scaleDown _ _) = _ at success
      cases success
      rw [zpow_negSucc]
      have near := near_scaleDown word (power + 1)
      refine ⟨near, ?_⟩
      have small : (size : ℚ) * (10 ^ (power + 1))⁻¹ ≤ 2 ^ 64 * 1 := by
        gcongr
        · exact_mod_cast word.le
        · exact inv_le_one_of_one_le₀ (one_le_pow₀ (by norm_num))
      have upper := (abs_le.mp near).2
      have tiny : halfPlace ≤ 1 := zpow_le_one_of_nonpos₀ one_le_two (by decide)
      have bounded : (scaleDown (ofNat size) (power + 1)).value ≤ 2 ^ 66 := by
        norm_num at upper small ⊢
        linarith
      exact bounded.trans_lt (pow_lt_pow_right₀ one_lt_two (by decide))

end Double

end HdrGain.Binary
