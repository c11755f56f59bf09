import HdrGain.Proofs.Binary.Scaling
import HdrGain.Proofs.Decimal.Shortest

namespace HdrGain.Decimal

open HdrGain.Binary

/-! # Short decimals and the ends of rounding intervals

A decimal of few digits is either an end of a rounding interval or clearly off all of them. Scaled
by a power of two, decimals are the multiples of a fraction `num / den` and ends are whole, so the
question is which multiples of `num` are near multiples of `den`, and for each power of ten a
certificate answers it. -/

/-- Above this the decimals are close enough together that the nearest one keeps off the ends. -/
def shortLimit : ℕ := 17000000

/-- The binary place of the scaled ends. -/
def endPlace (power : ℤ) : ℤ :=
  if 0 ≤ power then ((10 ^ power.toNat).log2 : ℤ) - 1 else -((10 ^ (-power).toNat).log2 : ℤ) - 2

def ratio (power : ℤ) : ℕ × ℕ :=
  ((powerParts 5 power).1 * (powerParts 2 (power - endPlace power)).1,
    (powerParts 5 power).2 * (powerParts 2 (power - endPlace power)).2)

theorem ratio_div (power : ℤ) :
    ((ratio power).1 : ℚ) / (ratio power).2 = 10 ^ power / 2 ^ endPlace power := by
  have five := powerParts_div (show 0 < 5 by decide) power
  have two := powerParts_div Nat.two_pos (power - endPlace power)
  rw [ratio, Nat.cast_mul, Nat.cast_mul, mul_div_mul_comm, five, two, Nat.cast_ofNat,
    Nat.cast_ofNat, zpow_sub₀ two_ne_zero, ← mul_div_assoc, ← mul_zpow]
  norm_num

/-- How near a multiple has to be for rounding to lose it, in units of one. -/
def reach (power : ℤ) : ℕ :=
  17 * (ratio power).1 * shortLimit / (16 * 2 ^ 52)

section Multipliers

/-- Every near multiple would make `multiplier` times the difference a multiple of `den` where
there is none. -/
def excludes (num den reach : ℕ) (low high multiplier : ℤ) : Bool :=
  let error := (num * multiplier).bmod den
  let bottom := -(multiplier * reach) - max (low * error) (high * error)
  let top := multiplier * reach - min (low * error) (high * error)
  decide (0 < multiplier ∧ den * (bottom / den) < bottom ∧ top < den * (bottom / den + 1))

variable {num den reach : ℕ}

theorem exists_multiple (num den : ℕ) (multiplier x y : ℤ) :
    ∃ whole, multiplier * (num * x - den * y) - x * (num * multiplier).bmod den = den * whole := by
  obtain ⟨quotient, split⟩ := Int.dvd_self_sub_bmod (x := num * multiplier) (m := den)
  exact ⟨quotient * x - multiplier * y, by linear_combination x * split⟩

theorem mul_between {low high x : ℤ} (error : ℤ) (above : low ≤ x) (below : x ≤ high) :
    min (low * error) (high * error) ≤ x * error ∧
      x * error ≤ max (low * error) (high * error) := by
  rcases le_total 0 error with positive | negative
  · exact ⟨min_le_of_left_le (mul_le_mul_of_nonneg_right above positive),
      le_max_of_le_right (mul_le_mul_of_nonneg_right below positive)⟩
  · exact ⟨min_le_of_right_le (mul_le_mul_of_nonpos_right below negative),
      le_max_of_le_left (mul_le_mul_of_nonpos_right above negative)⟩

theorem not_near_of_excludes {low high multiplier x y : ℤ}
    (excluded : excludes num den reach low high multiplier = true) (above : low ≤ x)
    (below : x ≤ high) : reach < |num * x - den * y| := by
  obtain ⟨positive, start, stop⟩ := of_decide_eq_true excluded
  obtain ⟨whole, split⟩ := exists_multiple num den multiplier x y
  obtain ⟨least, most⟩ := mul_between ((num * multiplier).bmod den) above below
  by_contra near
  obtain ⟨left, right⟩ := abs_le.mp (not_lt.mp near)
  have left' := mul_le_mul_of_nonneg_left left positive.le
  have right' := mul_le_mul_of_nonneg_left right positive.le
  have denNonneg : (0 : ℤ) ≤ den := Int.natCast_nonneg den
  have after := lt_of_mul_lt_mul_left (lt_of_lt_of_le start (b := _) (c := den * whole)
    (by linarith)) denNonneg
  have before := lt_of_mul_lt_mul_left (lt_of_le_of_lt (a := den * whole) (by linarith) stop)
    denNonneg
  omega

/-- Two multipliers whose errors are independent leave one near multiple at most. -/
def isolates (num den reach : ℕ) (known first second : ℤ) : Bool :=
  let radius := max (shortLimit - known) (known - 2 ^ 23)
  let firstError := (num * first).bmod den
  let secondError := (num * second).bmod den
  decide (0 < first ∧ 2 * reach * first + radius * |firstError| < den ∧
    0 < second ∧ 2 * reach * second + radius * |secondError| < den ∧
    firstError * second ≠ secondError * first ∧ |(num * known).bmod den| ≤ reach)

/-- Small multiples of a difference that is small leave no room for a multiple of `den`. -/
theorem mul_eq_of_small {multiplier radius bound shift steps : ℤ} (positive : 0 < multiplier)
    (inside : |shift| ≤ radius) (near : |num * shift - den * steps| ≤ bound)
    (small : bound * multiplier + radius * |(num * multiplier).bmod den| < den) :
    multiplier * (num * shift - den * steps) = shift * (num * multiplier).bmod den := by
  obtain ⟨whole, split⟩ := exists_multiple num den multiplier shift steps
  generalize (num * multiplier : ℤ).bmod den = error at *
  generalize num * shift - den * steps = difference at *
  have room : |(den : ℤ) * whole| < den := by
    calc |(den : ℤ) * whole| ≤ |multiplier * difference| + |shift * error| := by
          rw [← split]
          exact abs_sub _ _
      _ = |difference| * multiplier + |shift| * |error| := by
          rw [abs_mul, abs_mul, abs_of_pos positive, mul_comm]
      _ ≤ bound * multiplier + radius * |error| := by gcongr
      _ < den := small
  have zero : (den : ℤ) * whole = 0 := Int.eq_zero_of_abs_lt_dvd (Dvd.intro whole rfl) room
  rw [zero] at split
  exact sub_eq_zero.mp split

theorem eq_of_isolates {known first second x y : ℤ}
    (isolated : isolates num den reach known first second = true) (above : 2 ^ 23 ≤ x)
    (below : x ≤ shortLimit) (near : |num * x - den * y| ≤ reach) : x = known := by
  obtain ⟨firstPos, firstSmall, secondPos, secondSmall, independent, hit⟩ :=
    of_decide_eq_true isolated
  obtain ⟨quotient, split⟩ := Int.dvd_self_sub_bmod (x := num * known) (m := den)
  have inside : |x - known| ≤ max (shortLimit - known) (known - 2 ^ 23) := by
    rw [abs_le]
    omega
  have close : |num * (x - known) - den * (y - quotient)| ≤ 2 * reach := by
    have same : num * (x - known) - den * (y - quotient) =
        (num * x - den * y) - (num * known : ℤ).bmod den := by
      linear_combination (-1 : ℤ) * split
    rw [same, two_mul]
    exact (abs_sub _ _).trans (add_le_add near hit)
  have firstEq := mul_eq_of_small firstPos inside close firstSmall
  have secondEq := mul_eq_of_small secondPos inside close secondSmall
  have product : (x - known) * ((num * first : ℤ).bmod den * second -
      (num * second : ℤ).bmod den * first) = 0 := by
    linear_combination first * secondEq - second * firstEq
  exact sub_eq_zero.mp ((mul_eq_zero.mp product).resolve_right (sub_ne_zero.mpr independent))

/-- Spans one after another from `low` on, each with its multiplier. -/
def covers (num den reach : ℕ) : (low : ℕ) → List (ℕ × ℤ) → Bool
  | low, [] => decide (shortLimit < low)
  | low, (high, multiplier) :: spans =>
      excludes num den reach low high multiplier && covers num den reach (high + 1) spans

theorem not_near_of_covers {low x : ℕ} {y : ℤ} {spans : List (ℕ × ℤ)}
    (covered : covers num den reach low spans = true) (above : low ≤ x) (below : x ≤ shortLimit) :
    reach < |(num : ℤ) * x - den * y| := by
  induction spans generalizing low with
  | nil => exact absurd (of_decide_eq_true covered) (by omega)
  | cons span spans ih =>
      obtain ⟨here, later⟩ := Bool.and_eq_true_iff.mp covered
      rcases Nat.lt_or_ge span.1 x with beyond | within
      · exact ih later beyond
      · exact not_near_of_excludes here (by exact_mod_cast above) (by exact_mod_cast within)

end Multipliers

section Certificates

/-- Rounding the double gives the same 32-bit float as rounding the decimal. -/
def roundsAlike (digits : ℕ) (power : ℤ) : Bool :=
  (Double.scale? (Double.ofNat digits) power).any fun scaled =>
    singleBits scaled.num scaled.den =
      singleBits (digits * (powerParts 10 power).1) (powerParts 10 power).2

/-- How it is known which decimals of a power are near an end. -/
inductive Certificate where
  /-- Only those that are an end. -/
  | small
  /-- None in any of the spans. -/
  | away (spans : List (ℕ × ℤ))
  /-- One, up to a power of two, and rounding does not lose it. -/
  | near (known : ℕ) (first second : ℤ)

def Certificate.holds (power : ℤ) : Certificate → Bool
  | .small => decide (reach power = 0 ∧ -15 ≤ power ∧ power ≤ 15)
  | .away spans => covers (ratio power).1 (ratio power).2 (reach power) (2 ^ 23) spans
  | .near known first second =>
      isolates (ratio power).1 (ratio power).2 (reach power) known first second &&
        (List.range 25).all fun places =>
          decide (known % 2 ^ places ≠ 0) || roundsAlike (known / 2 ^ places) power

def certificates : List (ℤ × Certificate) :=
  [(-45, .away [(17000000, 9966220)]), (-44, .away [(17000000, 7972976)]),
    (-43, .away [(17000000, 6876020)]), (-42, .away [(17000000, 5500816)]),
    (-41, .away [(12694304, 1290126), (17000000, 11646695)]), (-40, .away [(17000000, 8278143)]),
    (-39, .away [(17000000, 5382571)]), (-38, .away [(17000000, 5382571)]),
    (-37, .away [(17000000, 10765142)]), (-36, .away [(17000000, 10088533)]),
    (-35, .away [(17000000, 6594407)]), (-34, .away [(17000000, 11200729)]),
    (-33, .away [(17000000, 11200729)]), (-32, .near 14077062 2571730 4466801),
    (-31, .away [(17000000, 5495493)]), (-30, .near 15381899 4390913 5495493),
    (-29, .away [(17000000, 5053661)]), (-28, .near 11294787 2374930 8919857),
    (-27, .away [(17000000, 9869829)]), (-26, .near 13363750 305967 13057783),
    (-25, .near 10691000 5039533 5651467),
    (-24, .away [(12694304, 1375067), (14847152, 1375067), (15923576, 1375067),
      (17000000, 604796)]),
    (-23, .near 13684480 1375067 12309413), (-22, .near 10947584 4111963 6835621),
    (-21, .away [(12694304, 555322), (14847152, 29563772), (17000000, 555322)]),
    (-20, .near 11603380 2345523 9257857), (-19, .near 9282704 2295829 9282704),
    (-18, .away [(17000000, 5090579)]), (-17, .away [(17000000, 5090579)]),
    (-16, .away [(17000000, 10456499)]), (-15, .away [(17000000, 4732851)]),
    (-14, .away [(12694304, 8122813), (17000000, 13494369)]),
    (-13, .away [(12694304, 1598371), (17000000, 13494369)]), (-12, .near 10475821 1598371 8877450),
    (13, .away [(17000000, 702971)]),
    (14, .away [(9465032, 1060166), (10541456, 4747909), (12694304, 1936025), (17000000, 4747909)]),
    (15, .away [(17000000, 9883023)]), (16, .away [(17000000, 9418377)]),
    (17, .away [(17000000, 1388053)]), (18, .away [(17000000, 2934519)]),
    (19, .away [(17000000, 7503019)]), (20, .away [(17000000, 7696438)]),
    (21, .away [(12694304, 3461381), (17000000, 13006577)]), (22, .away [(17000000, 7111670)]),
    (23, .away [(17000000, 5689336)]), (24, .away [(17000000, 831177)]),
    (25, .away [(17000000, 7606819)]), (26, .away [(17000000, 10458066)]),
    (27, .away [(17000000, 8461145)]), (28, .away [(17000000, 6768916)]),
    (29, .away [(17000000, 14363785)]), (30, .away [(17000000, 11491028)]),
    (31, .away [(17000000, 1393273)]), (32, .away [(17000000, 3898385)]),
    (33, .away [(17000000, 3118708)]), (34, .away [(17000000, 5815751)]),
    (35, .away [(17000000, 5478419)]), (36, .near 12592253 1635415 9321423),
    (37, .away [(17000000, 654166)]), (38, .away [(17000000, 4578985)])]

def certificate (power : ℤ) : Certificate :=
  (certificates.lookup power).getD .small

theorem certificates_hold :
    ((List.range 84).map fun index : ℕ => (index : ℤ) - 45).all (fun power =>
      (certificate power).holds power &&
        decide (2 * (ratio power).2 ≤ (ratio power).1)) = true := by
  decide +kernel

theorem certificate_holds {power : ℤ} (least : -45 ≤ power) (most : power ≤ 38) :
    (certificate power).holds power = true ∧ 2 * (ratio power).2 ≤ (ratio power).1 := by
  have listed : power ∈ (List.range 84).map fun index : ℕ => (index : ℤ) - 45 := by
    have index : (power + 45).toNat < 84 := by omega
    have same : ((power + 45).toNat : ℤ) - 45 = power := by omega
    exact List.mem_map.mpr ⟨_, List.mem_range.mpr index, same⟩
  have checked := List.all_eq_true.mp certificates_hold power listed
  exact ⟨(Bool.and_eq_true_iff.mp checked).1,
    of_decide_eq_true (Bool.and_eq_true_iff.mp checked).2⟩

theorem ratio_den_pos (power : ℤ) : 0 < (ratio power).2 :=
  Nat.mul_pos (powerParts_pos (show 0 < 5 by decide) power).2
    (powerParts_pos Nat.two_pos (power - endPlace power)).2

end Certificates

section Ends

variable {digits whole : ℕ} {power exponent : ℤ}

theorem exists_normal (positive : 0 < digits) (short : digits ≤ shortLimit) :
    ∃ places, 2 ^ 23 ≤ digits * 2 ^ places ∧ digits * 2 ^ places ≤ shortLimit := by
  rcases Nat.lt_or_ge digits (2 ^ 23) with few | full
  · have low := Nat.log2_self_le positive.ne'
    have high := Nat.lt_log2_self (n := digits)
    have log : digits.log2 < 23 := (Nat.log2_lt positive.ne').mpr few
    refine ⟨23 - digits.log2, ?_, ?_⟩
    · calc 2 ^ 23 = 2 ^ digits.log2 * 2 ^ (23 - digits.log2) := by
            rw [← Nat.pow_add, Nat.add_sub_cancel' log.le]
        _ ≤ digits * 2 ^ (23 - digits.log2) := Nat.mul_le_mul_right _ low
    · calc digits * 2 ^ (23 - digits.log2)
          ≤ 2 ^ (digits.log2 + 1) * 2 ^ (23 - digits.log2) := Nat.mul_le_mul_right _ high.le
        _ = 2 ^ 24 := by
            rw [← Nat.pow_add]
            congr 1
            omega
        _ ≤ shortLimit := by decide
  · exact ⟨0, by omega, by omega⟩

section Scaled

variable {num den x : ℕ} {place : ℤ} (full : 2 ^ 23 ≤ x)
  (near : |(x : ℚ) * (num / den) - whole * 2 ^ place| ≤ Double.slack * (x * (num / den)))

include full near in
theorem place_nonneg (denPos : 0 < den) (wide : 2 * den ≤ num) (fits : whole < 2 ^ 25) :
    0 ≤ place := by
  by_contra negative
  have denPos' : (0 : ℚ) < den := Nat.cast_pos.mpr denPos
  have two : (2 : ℚ) ≤ num / den := by
    rw [le_div_iff₀ denPos']
    exact_mod_cast wide
  have full' : (2 : ℚ) ^ 23 ≤ x := by exact_mod_cast full
  have size : (2 : ℚ) ^ 23 * 2 ≤ x * (num / den) := by gcongr
  have half : (2 : ℚ) ^ place ≤ 2 ^ (-1 : ℤ) := zpow_le_zpow_right₀ one_le_two (by omega)
  have fits' : (whole : ℚ) ≤ 2 ^ 25 - 1 := by
    have succ : whole + 1 ≤ 2 ^ 25 := fits
    have cast : (whole : ℚ) + 1 ≤ 2 ^ 25 := by exact_mod_cast succ
    linarith
  have last : (whole : ℚ) * 2 ^ place ≤ (2 ^ 25 - 1) * 2 ^ (-1 : ℤ) := by gcongr
  have gap := (abs_le.mp near).2
  unfold Double.slack at gap
  norm_num at size last gap
  linarith

include near in
theorem near_multiple {places : ℕ} (denPos : 0 < den) (short : x ≤ shortLimit)
    (placed : place = places) :
    |(num : ℤ) * x - den * (whole * 2 ^ places : ℕ)| ≤
      (17 * num * shortLimit / (16 * 2 ^ 52) : ℕ) := by
  have denPos' : (0 : ℚ) < den := Nat.cast_pos.mpr denPos
  rw [placed, zpow_natCast] at near
  have scaled : |(num : ℚ) * x - den * (whole * 2 ^ places)| ≤ Double.slack * (num * x) := by
    have first : (num : ℚ) * x - den * (whole * 2 ^ places) =
        den * (x * (num / den) - whole * 2 ^ places) := by field_simp
    have second : Double.slack * (num * x) = den * (Double.slack * (x * (num / den))) := by
      field_simp
    rw [first, second, abs_mul, abs_of_pos denPos']
    gcongr
  have short' : (x : ℚ) ≤ shortLimit := by exact_mod_cast short
  have bound : |(num : ℚ) * x - den * (whole * 2 ^ places)| * (16 * 2 ^ 52) ≤
      17 * num * shortLimit := by
    have step : Double.slack * (num * x) ≤ Double.slack * (num * shortLimit) := by
      unfold Double.slack
      gcongr
    unfold Double.slack at scaled step
    linarith
  rw [Int.abs_eq_natAbs, Nat.cast_le, Nat.le_div_iff_mul_le (by positivity)]
  have cast : ((((num : ℤ) * x - den * (whole * 2 ^ places : ℕ)).natAbs : ℕ) : ℚ) =
      |(num : ℚ) * x - den * (whole * 2 ^ places)| := by
    rw [Nat.cast_natAbs]
    push_cast
    rfl
  rw [← cast] at bound
  exact_mod_cast bound

end Scaled

/-- A short decimal that is this near to an end is that end, or rounding does not lose it. -/
theorem eq_or_roundsAlike_of_near (positive : 0 < digits) (short : digits ≤ shortLimit)
    (least : -45 ≤ power) (most : power ≤ 38) (fits : whole < 2 ^ 25)
    (near : |(digits : ℚ) * 10 ^ power - whole * 2 ^ exponent| ≤
      Double.slack * (digits * 10 ^ power)) :
    ((digits : ℚ) * 10 ^ power = whole * 2 ^ exponent ∧ -15 ≤ power ∧ power ≤ 15) ∨
      roundsAlike digits power = true := by
  obtain ⟨places, full, small⟩ := exists_normal positive short
  obtain ⟨holds, wide⟩ := certificate_holds least most
  have denPos := ratio_den_pos power
  have fraction := ratio_div power
  have unit : (0 : ℚ) < 2 ^ (places - endPlace power : ℤ) := zpow_pos two_pos _
  have shifted : ∀ number : ℚ, number * 2 ^ (places - endPlace power : ℤ) =
      number * 2 ^ places / 2 ^ endPlace power := by
    intro number
    rw [zpow_sub₀ two_ne_zero, zpow_natCast, mul_div_assoc]
  have decimal : (digits : ℚ) * 10 ^ power * 2 ^ (places - endPlace power : ℤ) =
      (digits * 2 ^ places : ℕ) * ((ratio power).1 / (ratio power).2) := by
    rw [shifted, fraction]
    push_cast
    ring
  have binary : (whole : ℚ) * 2 ^ exponent * 2 ^ (places - endPlace power : ℤ) =
      whole * 2 ^ (exponent + (places - endPlace power)) := by
    rw [mul_assoc, ← zpow_add₀ two_ne_zero]
  have near' : |((digits * 2 ^ places : ℕ) : ℚ) * ((ratio power).1 / (ratio power).2) -
      whole * 2 ^ (exponent + (places - endPlace power))| ≤
        Double.slack * ((digits * 2 ^ places : ℕ) * ((ratio power).1 / (ratio power).2)) := by
    rw [← decimal, ← binary, ← sub_mul, abs_mul, abs_of_pos unit, ← mul_assoc]
    gcongr
  obtain ⟨shift, placed⟩ := Int.eq_ofNat_of_zero_le (place_nonneg full near' denPos wide fits)
  have multiple := near_multiple near' denPos small placed
  cases found : certificate power with
  | small =>
      rw [found] at holds
      obtain ⟨none, low, high⟩ := of_decide_eq_true holds
      have zero := multiple.trans_eq (congrArg Nat.cast none)
      have same : (((ratio power).1 * (digits * 2 ^ places) : ℕ) : ℚ) =
          ((ratio power).2 * (whole * 2 ^ shift) : ℕ) := by
        exact_mod_cast sub_eq_zero.mp (abs_nonpos_iff.mp zero)
      have denPos' : ((ratio power).2 : ℚ) ≠ 0 := Nat.cast_ne_zero.mpr denPos.ne'
      refine .inl ⟨mul_right_cancel₀ unit.ne' ?_, low, high⟩
      rw [decimal, binary, placed, ← mul_div_assoc, div_eq_iff denPos', zpow_natCast]
      push_cast at same ⊢
      linarith
  | away spans =>
      rw [found] at holds
      exact absurd multiple (not_le.mpr (not_near_of_covers holds full small))
  | near known first second =>
      rw [found] at holds
      obtain ⟨isolated, rounds⟩ := Bool.and_eq_true_iff.mp holds
      have same : digits * 2 ^ places = known := by
        exact_mod_cast eq_of_isolates isolated (by exact_mod_cast full) (by exact_mod_cast small)
          multiple
      have few : places < 25 := by
        have power : 2 ^ places ≤ digits * 2 ^ places := Nat.le_mul_of_pos_left _ positive
        have bound : 2 ^ places < 2 ^ 25 :=
          (power.trans small).trans_lt (show shortLimit < 2 ^ 25 by decide)
        exact (Nat.pow_lt_pow_iff_right (by decide)).mp bound
      have divides : known % 2 ^ places = 0 := by rw [← same, Nat.mul_mod_left]
      have quotient : known / 2 ^ places = digits := by
        rw [← same, Nat.mul_div_cancel _ (Nat.two_pow_pos places)]
      have checked := List.all_eq_true.mp rounds places (List.mem_range.mpr few)
      rw [divides, quotient] at checked
      exact .inr checked

end Ends

end HdrGain.Decimal
