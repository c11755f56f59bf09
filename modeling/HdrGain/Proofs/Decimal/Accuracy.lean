import HdrGain.Proofs.Binary.Single
import HdrGain.Proofs.Decimal.Gaps

namespace HdrGain.Decimal

open HdrGain.Binary

def Digits.number (decimal : Digits) : ℚ :=
  decimal.digits * 10 ^ decimal.power

section Intervals

variable {tie : Tie} {rounding : Rounding} {found : Digits} {number : ℚ}

/-- The unit that steps and quarters are counted in. -/
theorem exists_unit (rounding : Rounding) (power : ℤ) :
    ∃ unit : ℚ, 0 < unit ∧ ((rounding.units power).1 : ℚ) * unit = 10 ^ power ∧
      ((rounding.units power).2 : ℚ) * unit = rounding.quarter := by
  have decimal := powerParts_div (show 0 < 10 by decide) power
  have binary := powerParts_div Nat.two_pos (rounding.exponent - 2)
  have decimalPos : (0 : ℚ) < (powerParts 10 power).2 :=
    Nat.cast_pos.mpr (powerParts_pos (by decide) power).2
  have binaryPos : (0 : ℚ) < (powerParts 2 (rounding.exponent - 2)).2 :=
    Nat.cast_pos.mpr (powerParts_pos Nat.two_pos (rounding.exponent - 2)).2
  rw [Nat.cast_ofNat] at decimal binary
  refine ⟨1 / ((powerParts 10 power).2 * (powerParts 2 (rounding.exponent - 2)).2),
    by positivity, ?_, ?_⟩
  · rw [← decimal, Rounding.units]
    push_cast
    field_simp
  · rw [Rounding.quarter, ← binary, Rounding.units]
    push_cast
    field_simp

theorem lt_of_holds {below above : ℕ} (odd : rounding.mantissa % 2 ≠ 0)
    (holds : rounding.holds below above = true) : below < above := by
  rw [Rounding.holds, if_neg odd] at holds
  exact of_decide_eq_true holds

theorem takes_of_contains (contains : rounding.Contains found) : rounding.Takes found.number := by
  obtain ⟨unit, unitPos, step, quarter⟩ := exists_unit rounding found.power
  obtain ⟨fromBelow, fromAbove⟩ := contains
  have point : found.number = (found.digits * (rounding.units found.power).1 : ℕ) * unit := by
    rw [Digits.number, ← step, Nat.cast_mul, mul_assoc]
  have quarters : ∀ count : ℕ, (count : ℚ) * rounding.quarter =
      (count * (rounding.units found.power).2 : ℕ) * unit := by
    intro count
    rw [← quarter, Nat.cast_mul, mul_assoc]
  constructor
  · rw [point, quarters]
    exact mul_le_mul_of_nonneg_right (Nat.cast_le.mpr (le_of_holds fromBelow)) unitPos.le
  · rw [point, quarters]
    exact mul_le_mul_of_nonneg_right (Nat.cast_le.mpr (le_of_holds fromAbove)) unitPos.le
  · rw [or_iff_not_imp_left, point, quarters, quarters]
    exact fun odd => ⟨mul_lt_mul_of_pos_right (Nat.cast_lt.mpr (lt_of_holds odd fromBelow)) unitPos,
      mul_lt_mul_of_pos_right (Nat.cast_lt.mpr (lt_of_holds odd fromAbove)) unitPos⟩

theorem takes_of_lt (above : rounding.lower * rounding.quarter < number)
    (below : number < rounding.upper * rounding.quarter) : rounding.Takes number :=
  ⟨above.le, below.le, .inr ⟨above, below⟩⟩

theorem upper_cast (rounding : Rounding) : (rounding.upper : ℚ) = 4 * rounding.mantissa + 2 := by
  rw [Rounding.upper]
  push_cast
  rfl

/-- How far the interval reaches down. -/
theorem lower_cast (single : rounding.IsSingle) :
    (rounding.lower : ℚ) = 4 * rounding.mantissa - 2 ∨
      (rounding.mantissa = 2 ^ 23 ∧ (rounding.lower : ℚ) = 4 * rounding.mantissa - 1) := by
  have positive := single.positive
  cases narrow : rounding.narrowBelow with
  | false =>
      left
      rw [Rounding.lower, narrow, if_neg Bool.false_ne_true, Nat.cast_sub (by omega)]
      push_cast
      rfl
  | true =>
      refine .inr ⟨(single.narrow.mp narrow).1, ?_⟩
      rw [Rounding.lower, narrow, if_pos rfl, Nat.cast_sub (by omega)]
      push_cast
      rfl

theorem takes_number_pos (single : rounding.IsSingle) (takes : rounding.Takes number) :
    0 < number := by
  have lower : (0 : ℚ) < rounding.lower := Nat.cast_pos.mpr (lower_bounds single).2
  exact lt_of_lt_of_le (mul_pos lower rounding.quarter_pos) takes.above

theorem takes_number_lt (single : rounding.IsSingle) (takes : rounding.Takes number) :
    number < 2 ^ 26 * rounding.quarter := by
  have fits : rounding.upper < 2 ^ 26 := by
    have mantissa := single.fits
    unfold Rounding.upper
    omega
  calc number ≤ rounding.upper * rounding.quarter := takes.below
    _ < 2 ^ 26 * rounding.quarter := by
        gcongr
        · exact rounding.quarter_pos
        · exact_mod_cast fits

end Intervals

section Found

variable {tie : Tie} {rounding : Rounding} {found : Digits}

/-- What is found is half a step off at most, unless the interval ends before the other point. -/
theorem number_near (searched : onGrid tie rounding found.power = some found) :
    (4 * rounding.mantissa * rounding.quarter ≤ found.number + 10 ^ found.power / 2 ∧
        found.number ≤ 4 * rounding.mantissa * rounding.quarter + 10 ^ found.power / 2) ∨
      (found.number ≤ 4 * rounding.mantissa * rounding.quarter ∧
        rounding.upper * rounding.quarter ≤ found.number + 10 ^ found.power) ∨
      (4 * rounding.mantissa * rounding.quarter ≤ found.number ∧
        found.number ≤ rounding.lower * rounding.quarter + 10 ^ found.power) := by
  obtain ⟨unit, unitPos, step, quarter⟩ := exists_unit rounding found.power
  have near := near_of_onGrid searched
  dsimp only at near
  rw [Digits.number, ← step, ← quarter]
  generalize (rounding.units found.power).1 = gridStep at *
  generalize (rounding.units found.power).2 = gridQuarter at *
  rcases near with ⟨above, below⟩ | ⟨left, right⟩ | ⟨left, right⟩
  · left
    have above' : (2 * (found.digits * gridStep) : ℚ) ≤
        2 * (4 * rounding.mantissa * gridQuarter) + gridStep := by exact_mod_cast above
    have below' : (2 * (4 * rounding.mantissa * gridQuarter) : ℚ) ≤
        2 * (found.digits * gridStep) + gridStep := by exact_mod_cast below
    constructor <;> nlinarith
  · right; left
    have left' : (found.digits * gridStep : ℚ) ≤ 4 * rounding.mantissa * gridQuarter := by
      exact_mod_cast left
    have right' : (rounding.upper * gridQuarter : ℚ) ≤ found.digits * gridStep + gridStep := by
      exact_mod_cast right
    constructor <;> nlinarith
  · right; right
    have left' : (4 * rounding.mantissa * gridQuarter : ℚ) ≤ found.digits * gridStep := by
      exact_mod_cast left
    have right' : (found.digits * gridStep : ℚ) ≤ rounding.lower * gridQuarter + gridStep := by
      exact_mod_cast right
    constructor <;> nlinarith

theorem wide_quarters {power : ℤ} (single : rounding.IsSingle)
    (none : onGrid tie rounding power = none) : 3 * rounding.quarter ≤ 10 ^ power := by
  obtain ⟨unit, unitPos, step, quarter⟩ := exists_unit rounding power
  have wide := wide_of_onGrid_eq_none none
  have upper := upper_cast rounding
  have lower : (rounding.lower : ℚ) ≤ 4 * rounding.mantissa - 1 := by
    rcases lower_cast single with same | ⟨_, same⟩ <;> linarith
  rw [← step, ← quarter]
  generalize (rounding.units power).1 = gridStep at *
  generalize (rounding.units power).2 = gridQuarter at *
  have wide' : (rounding.upper * gridQuarter : ℚ) ≤ rounding.lower * gridQuarter + gridStep := by
    exact_mod_cast wide
  have room : (3 : ℚ) * gridQuarter ≤ gridStep := by
    have quarters : (rounding.lower : ℚ) * gridQuarter ≤
        (4 * rounding.mantissa - 1) * gridQuarter := by gcongr
    rw [upper] at wide'
    linarith
  nlinarith

/-- The top grid is coarser than the number. -/
theorem four_mul_le_topPower (rounding : Rounding) :
    4 * rounding.mantissa * rounding.quarter ≤ 10 ^ topPower rounding := by
  have log : (rounding.mantissa : ℚ) ≤ 2 ^ ((rounding.mantissa.log2 : ℤ) + 1) := by
    exact_mod_cast Nat.lt_log2_self.le
  have whole : 4 * rounding.quarter = 2 ^ rounding.exponent := by
    rw [rounding.two_zpow_eq 2 (by omega)]
    norm_num
  calc 4 * rounding.mantissa * rounding.quarter
      = rounding.mantissa * 2 ^ rounding.exponent := by rw [← whole]; ring
    _ ≤ 2 ^ ((rounding.mantissa.log2 : ℤ) + 1) * 2 ^ (rounding.exponent.toNat : ℤ) := by
        gcongr
        · exact one_le_two
        · exact Int.self_le_toNat _
    _ = 2 ^ topPower rounding := by rw [← zpow_add₀ two_ne_zero, topPower]
    _ ≤ 10 ^ topPower rounding := by
        refine zpow_le_zpow_left₀ ?_ zero_le_two (by norm_num)
        unfold topPower
        omega

section Bounds

variable (single : rounding.IsSingle) (takes : rounding.Takes found.number)

include single takes

theorem power_le (positive : 0 < found.digits) : found.power ≤ 38 := by
  have size := takes_number_lt single takes
  have powerPos : (0 : ℚ) < 10 ^ found.power := zpow_pos (by norm_num) _
  have one : (1 : ℚ) ≤ found.digits := Nat.one_le_cast.mpr positive
  have least : (10 : ℚ) ^ found.power ≤ found.number := le_mul_of_one_le_left powerPos.le one
  have quarter : rounding.quarter ≤ 2 ^ (102 : ℤ) := by
    have most := single.most
    exact zpow_le_zpow_right₀ one_le_two (by omega)
  have bound : (10 : ℚ) ^ found.power < 10 ^ (39 : ℤ) := by
    norm_num at quarter ⊢
    linarith
  exact Int.lt_add_one_iff.mp ((zpow_lt_zpow_iff_right₀ (by norm_num)).mp bound)

theorem bounds_of_top (top : found.power = topPower rounding) :
    found.digits < 2 ^ 28 ∧ -45 ≤ found.power := by
  have quarterPos := rounding.quarter_pos
  have powerPos : (0 : ℚ) < 10 ^ found.power := zpow_pos (by norm_num) _
  have value := four_mul_le_topPower rounding
  have mantissa : (1 : ℚ) ≤ rounding.mantissa := Nat.one_le_cast.mpr single.positive
  have point := takes.below
  rw [← top] at value
  rw [upper_cast, Digits.number] at point
  have few : (found.digits : ℚ) * 10 ^ found.power ≤ 2 * 10 ^ found.power := by nlinarith
  have few' : found.digits ≤ 2 := by exact_mod_cast le_of_mul_le_mul_right few powerPos
  have coarse : 0 < topPower rounding := by
    unfold topPower
    omega
  omega

theorem bounds_of_coarser (coarser : onGrid tie rounding (found.power + 1) = none) :
    found.digits < 2 ^ 28 ∧ -45 ≤ found.power := by
  have size := takes_number_lt single takes
  have powerPos : (0 : ℚ) < 10 ^ found.power := zpow_pos (by norm_num) _
  have wide := wide_quarters single coarser
  have next : (10 : ℚ) ^ (found.power + 1) = 10 * 10 ^ found.power := by
    rw [zpow_add_one₀ (by norm_num), mul_comm]
  constructor
  · have few : (found.digits : ℚ) * 10 ^ found.power < 2 ^ 28 * 10 ^ found.power := by
      rw [Digits.number] at size
      linarith
    exact_mod_cast lt_of_mul_lt_mul_right few powerPos.le
  · have quarter : (2 : ℚ) ^ (-151 : ℤ) ≤ rounding.quarter := by
      have least := single.least
      exact zpow_le_zpow_right₀ one_le_two (by omega)
    have bound : (10 : ℚ) ^ (-45 : ℤ) < 10 ^ (found.power + 1) := by
      norm_num at quarter ⊢
      linarith
    exact Int.lt_add_one_iff.mp ((zpow_lt_zpow_iff_right₀ (by norm_num)).mp bound)

end Bounds

/-- The digits fit a double, and the power is one that certificates exist for. -/
theorem shortest_bounds (tie : Tie) (single : rounding.IsSingle) :
    (shortest tie rounding).digits < 2 ^ 28 ∧ -45 ≤ (shortest tie rounding).power ∧
      (shortest tie rounding).power ≤ 38 := by
  have contains := contains_shortest tie single.positive
  have takes := takes_of_contains contains
  have most := power_le single takes (digits_pos_of_contains single.positive contains)
  rcases (onGrid_shortest tie single.positive).2 with top | coarser
  · obtain ⟨few, least⟩ := bounds_of_top single takes top
    exact ⟨few, least, most⟩
  · obtain ⟨few, least⟩ := bounds_of_coarser single takes coarser
    exact ⟨few, least, most⟩

end Found

section Doubles

variable {tie : Tie} {rounding : Rounding} {found : Digits} {number : ℚ}
  (single : rounding.IsSingle)

include single

/-- Many digits leave room on both sides of what is found. -/
theorem takes_of_long (searched : onGrid tie rounding found.power = some found)
    (takes : rounding.Takes found.number) (long : shortLimit < found.digits)
    (near : |number - found.number| ≤ Double.slack * found.number) : rounding.Takes number := by
  have quarterPos := rounding.quarter_pos
  have powerPos : (0 : ℚ) < 10 ^ found.power := zpow_pos (by norm_num) _
  have size := takes_number_lt single takes
  have below := takes.below
  have upper := upper_cast rounding
  have long' : (17000000 : ℚ) ≤ found.digits := by exact_mod_cast long.le
  have step : 17000000 * 10 ^ found.power ≤ found.number := by
    unfold Digits.number
    gcongr
  have close : |number - found.number| ≤ rounding.quarter / 1000 := by
    unfold Double.slack at near
    linarith
  have placed := number_near searched
  generalize (10 : ℚ) ^ found.power = power at *
  generalize found.number = point at *
  obtain ⟨left, right⟩ := abs_le.mp close
  have strict : rounding.lower * rounding.quarter < number ∧
      number < rounding.upper * rounding.quarter := by
    rw [upper] at below placed ⊢
    rcases lower_cast single with lower | ⟨mantissa, lower⟩
    · have fits : (rounding.mantissa : ℚ) * rounding.quarter ≤ (2 ^ 24 - 1) * rounding.quarter := by
        have mantissa : (rounding.mantissa : ℚ) + 1 ≤ 2 ^ 24 := by exact_mod_cast single.fits
        gcongr
        linarith
      rw [lower] at placed ⊢
      rcases placed with ⟨_, _⟩ | ⟨_, _⟩ | ⟨_, _⟩ <;> constructor <;> linarith
    · have power : (rounding.mantissa : ℚ) = 2 ^ 23 := by exact_mod_cast mantissa
      rw [power] at below
      rw [lower, power] at placed ⊢
      rcases placed with ⟨_, _⟩ | ⟨_, _⟩ | ⟨_, _⟩ <;> constructor <;> linarith
  exact takes_of_lt strict.1 strict.2

theorem exists_ends : ∃ low high : ℕ × ℤ,
    (rounding.lower * rounding.quarter = low.1 * 2 ^ low.2 ∧ low.1 < 2 ^ 25 ∧ -1074 ≤ low.2) ∧
      (rounding.upper * rounding.quarter = high.1 * 2 ^ high.2 ∧ high.1 < 2 ^ 25 ∧
        -1074 ≤ high.2) := by
  have fits := single.fits
  have least := single.least
  have positive := single.positive
  have half : (2 : ℚ) ^ (rounding.exponent - 1) = 2 * rounding.quarter := by
    rw [rounding.two_zpow_eq 1 (by omega), pow_one]
  have high : rounding.upper * rounding.quarter =
      (2 * rounding.mantissa + 1 : ℕ) * (2 : ℚ) ^ (rounding.exponent - 1) := by
    rw [upper_cast, half]
    push_cast
    ring
  rcases lower_cast single with lower | ⟨power, lower⟩
  · refine ⟨(2 * rounding.mantissa - 1, rounding.exponent - 1), (_, _),
      ⟨?_, by dsimp only; omega, by dsimp only; omega⟩, high, by dsimp only; omega,
      by dsimp only; omega⟩
    rw [lower, half, Nat.cast_sub (by omega)]
    push_cast
    ring
  · refine ⟨(4 * rounding.mantissa - 1, rounding.exponent - 2), (_, _),
      ⟨?_, by dsimp only; omega, by dsimp only; omega⟩, high, by dsimp only; omega,
      by dsimp only; omega⟩
    rw [lower, Nat.cast_sub (by omega)]
    push_cast
    rfl

/-- Few digits are an end of the interval or off it, and the double is on their side of it. -/
theorem takes_of_short (takes : rounding.Takes found.number) (short : found.digits ≤ shortLimit)
    (least : -45 ≤ found.power) (most : found.power ≤ 38)
    (near : |number - found.number| ≤ Double.slack * found.number)
    (exact : -15 ≤ found.power → found.power ≤ 15 → ∀ (whole : ℕ) (exponent : ℤ),
      whole < 2 ^ 53 → -1074 ≤ exponent → found.number = whole * 2 ^ exponent →
        number = found.number) :
    rounding.Takes number ∨ roundsAlike found.digits found.power = true := by
  have positive : 0 < found.digits := by
    refine Nat.pos_of_ne_zero fun zero => (takes_number_pos single takes).ne' ?_
    rw [Digits.number, zero, Nat.cast_zero, zero_mul]
  have apart : ∀ (whole : ℕ) (exponent : ℤ), whole < 2 ^ 25 → -1074 ≤ exponent →
      number = found.number ∨ roundsAlike found.digits found.power = true ∨
        Double.slack * found.number < |found.number - whole * 2 ^ exponent| := by
    intro whole exponent fits finest
    rcases le_or_gt |found.number - whole * 2 ^ exponent| (Double.slack * found.number)
      with close | far
    · rcases eq_or_roundsAlike_of_near positive short least most fits close
        with ⟨same, low, high⟩ | alike
      · exact .inl (exact low high whole exponent (by omega) finest same)
      · exact .inr (.inl alike)
    · exact .inr (.inr far)
  obtain ⟨low, high, ⟨lower, lowFits, lowFinest⟩, upper, highFits, highFinest⟩ :=
    exists_ends single
  obtain ⟨left, right⟩ := abs_le.mp near
  rcases apart low.1 low.2 lowFits lowFinest with same | alike | farLow
  · exact .inl (same ▸ takes)
  · exact .inr alike
  rcases apart high.1 high.2 highFits highFinest with same | alike | farHigh
  · exact .inl (same ▸ takes)
  · exact .inr alike
  rw [← lower, abs_of_nonneg (sub_nonneg.mpr takes.above)] at farLow
  rw [← upper, abs_of_nonpos (sub_nonpos.mpr takes.below)] at farHigh
  exact .inl (takes_of_lt (by linarith) (by linarith))

theorem singleBits_of_takes {scaled : Magnitude} (takes : rounding.Takes scaled.value) :
    singleBits scaled.num scaled.den = fieldBits rounding := by
  have positive := Double.num_pos (takes_number_pos single takes)
  rw [← scaled.num_div_den] at takes
  exact singleBits_eq single positive scaled.den_pos takes

/-- The shortest decimal of a float is scaled to a double that rounds to the float. -/
theorem scale_shortest (tie : Tie) :
    ∃ scaled, Double.scale? (Double.ofNat (shortest tie rounding).digits)
        (shortest tie rounding).power = some scaled ∧
      singleBits scaled.num scaled.den = fieldBits rounding := by
  have searched := (onGrid_shortest tie single.positive).1
  have contains := contains_shortest tie single.positive
  have positive := digits_pos_of_contains single.positive contains
  have takes := takes_of_contains contains
  obtain ⟨fits, least, most⟩ := shortest_bounds tie single
  generalize shortest tie rounding = found at *
  obtain ⟨scaled, success, near, exact⟩ := Double.exists_scale positive
    (show found.digits < 2 ^ 53 by omega) (show -60 ≤ found.power by omega) (by omega)
  refine ⟨scaled, success, ?_⟩
  rcases Nat.lt_or_ge shortLimit found.digits with long | short
  · exact singleBits_of_takes single (takes_of_long single searched takes long near)
  · rcases takes_of_short single takes short least most near exact with taken | alike
    · exact singleBits_of_takes single taken
    · rw [roundsAlike, success, Option.any_some, decide_eq_true_eq] at alike
      obtain ⟨numPos, denPos⟩ := powerParts_pos (show 0 < 10 by decide) found.power
      have quotient := powerParts_div (show 0 < 10 by decide) found.power
      rw [alike]
      refine singleBits_eq single (Nat.mul_pos positive numPos) denPos ?_
      rw [Nat.cast_mul, mul_div_assoc, quotient]
      exact_mod_cast takes

/-- With its zeros written out and one more behind the point it is scaled exactly. -/
theorem scale_shortest_tenths (tie : Tie) (whole : 0 ≤ (shortest tie rounding).power)
    (fits : (shortest tie rounding).digits * 10 ^ (shortest tie rounding).power.toNat * 10 <
      2 ^ 53) :
    ∃ scaled, Double.scale? (Double.ofNat ((shortest tie rounding).digits *
        10 ^ (shortest tie rounding).power.toNat * 10)) (-1) = some scaled ∧
      singleBits scaled.num scaled.den = fieldBits rounding := by
  have contains := contains_shortest tie single.positive
  have positive := digits_pos_of_contains single.positive contains
  have takes := takes_of_contains contains
  generalize shortest tie rounding = found at *
  have number : found.number = (found.digits * 10 ^ found.power.toNat : ℕ) := by
    rw [Digits.number, Nat.cast_mul, Nat.cast_pow, ← zpow_natCast, Int.toNat_of_nonneg whole]
    rfl
  have product : ((found.digits * 10 ^ found.power.toNat * 10 : ℕ) : ℚ) * 10 ^ (-1 : ℤ) =
      found.number := by
    rw [number]
    push_cast
    ring
  have tens : 0 < found.digits * 10 ^ found.power.toNat := Nat.mul_pos positive (by positivity)
  obtain ⟨scaled, success, -, exact⟩ := Double.exists_scale (Nat.mul_pos tens (by decide)) fits
    (show -60 ≤ (-1 : ℤ) by decide) (by decide)
  rw [product] at exact
  have value := exact (by decide) (by decide) (found.digits * 10 ^ found.power.toNat) 0
    (by omega) (by decide) (by rw [number, zpow_zero, mul_one])
  rw [← value] at takes
  exact ⟨scaled, success, singleBits_of_takes single takes⟩

end Doubles

end HdrGain.Decimal
