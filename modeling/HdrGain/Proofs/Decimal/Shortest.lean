import HdrGain.Decimal

namespace HdrGain.Decimal

/-- A step of the grid, and a quarter of the last binary place, as multiples of one unit. -/
def Rounding.units (rounding : Rounding) (power : Int) : Nat × Nat :=
  ((powerParts 10 power).1 * (powerParts 2 (rounding.exponent - 2)).2,
    (powerParts 2 (rounding.exponent - 2)).1 * (powerParts 10 power).2)

def Rounding.Contains (rounding : Rounding) (decimal : Digits) : Prop :=
  rounding.holds (rounding.lower * (rounding.units decimal.power).2)
      (decimal.digits * (rounding.units decimal.power).1) = true ∧
    rounding.holds (decimal.digits * (rounding.units decimal.power).1)
      (rounding.upper * (rounding.units decimal.power).2) = true

variable {tie : Tie} {rounding : Rounding} {power : Int} {found : Digits}

theorem powerParts_pos {base : Nat} (positive : 0 < base) (power : Int) :
    0 < (powerParts base power).1 ∧ 0 < (powerParts base power).2 :=
  ⟨Nat.pow_pos positive, Nat.pow_pos positive⟩

theorem units_pos (rounding : Rounding) (power : Int) :
    0 < (rounding.units power).1 ∧ 0 < (rounding.units power).2 := by
  obtain ⟨binaryNum, binaryDen⟩ := powerParts_pos Nat.two_pos (rounding.exponent - 2)
  obtain ⟨decimalNum, decimalDen⟩ := powerParts_pos (show 0 < 10 by decide) power
  exact ⟨Nat.mul_pos decimalNum binaryDen, Nat.mul_pos binaryNum decimalDen⟩

theorem holds_of_lt {below above : Nat} (less : below < above) :
    rounding.holds below above = true := by
  unfold Rounding.holds
  split
  · exact decide_eq_true (Nat.le_of_lt less)
  · exact decide_eq_true less

theorem le_of_holds {below above : Nat} (holds : rounding.holds below above = true) :
    below ≤ above := by
  unfold Rounding.holds at holds
  split at holds
  · exact of_decide_eq_true holds
  · exact Nat.le_of_lt (of_decide_eq_true holds)

section Grid

variable (positive : 0 < rounding.mantissa)

include positive in
theorem lower_lt : 0 < rounding.lower ∧ rounding.lower < 4 * rounding.mantissa := by
  unfold Rounding.lower
  split <;> omega

/-- The point of the grid right below the number, or on it. -/
def Rounding.below (rounding : Rounding) (power : Int) : Nat :=
  4 * rounding.mantissa * (rounding.units power).2 / (rounding.units power).1

theorem below_mul_le :
    rounding.below power * (rounding.units power).1 ≤
      4 * rounding.mantissa * (rounding.units power).2 :=
  Nat.div_mul_le_self _ _

theorem lt_below_succ_mul :
    4 * rounding.mantissa * (rounding.units power).2 <
      (rounding.below power + 1) * (rounding.units power).1 := by
  have next := Nat.lt_div_mul_add (a := 4 * rounding.mantissa * (rounding.units power).2)
    (units_pos rounding power).1
  rwa [← Nat.succ_mul] at next

theorem contains_below
    (holds : rounding.holds (rounding.lower * (rounding.units power).2)
      (rounding.below power * (rounding.units power).1) = true) :
    rounding.Contains ⟨rounding.below power, power⟩ := by
  have quarter := (units_pos rounding power).2
  have wider : 4 * rounding.mantissa < rounding.upper := by
    unfold Rounding.upper
    omega
  exact ⟨holds, holds_of_lt
    (Nat.lt_of_le_of_lt below_mul_le (Nat.mul_lt_mul_of_pos_right wider quarter))⟩

include positive in
theorem contains_above
    (holds : rounding.holds ((rounding.below power + 1) * (rounding.units power).1)
      (rounding.upper * (rounding.units power).2) = true) :
    rounding.Contains ⟨rounding.below power + 1, power⟩ := by
  have quarter := (units_pos rounding power).2
  have narrower := (lower_lt positive).2
  exact ⟨holds_of_lt
    (Nat.lt_trans (Nat.mul_lt_mul_of_pos_right narrower quarter) lt_below_succ_mul), holds⟩

/-- What is found on a grid is one of the two points around the number, and the nearer one if both
are in the interval. -/
theorem onGrid_cases :
    let step := (rounding.units power).1
    let quarter := (rounding.units power).2
    let below := rounding.below power
    let holdsBelow := rounding.holds (rounding.lower * quarter) (below * step)
    let holdsAbove := rounding.holds ((below + 1) * step) (rounding.upper * quarter)
    let fromBelow := 4 * rounding.mantissa * quarter - below * step
    let fromAbove := (below + 1) * step - 4 * rounding.mantissa * quarter
    onGrid tie rounding power = some found →
      (found = ⟨below, power⟩ ∧ holdsBelow = true ∧
        (holdsAbove = true → fromBelow ≤ fromAbove)) ∨
      (found = ⟨below + 1, power⟩ ∧ holdsAbove = true ∧
        (holdsBelow = true → fromAbove ≤ fromBelow)) := by
  intro step quarter below holdsBelow holdsAbove fromBelow fromAbove searched
  unfold onGrid at searched
  dsimp only at searched
  split at searched
  · rename_i inBelow inAbove
    split at searched
    · rename_i nearer
      cases searched
      exact .inl ⟨rfl, inBelow, fun _ => Nat.le_of_lt nearer⟩
    · rename_i notBelow
      split at searched
      · rename_i nearer
        cases searched
        exact .inr ⟨rfl, inAbove, fun _ => Nat.le_of_lt nearer⟩
      · rename_i notAbove
        cases tie with
        | up =>
            cases searched
            exact .inr ⟨rfl, inAbove, fun _ => Nat.le_of_not_lt notBelow⟩
        | toEven =>
            dsimp only at searched
            split at searched
            · cases searched
              exact .inl ⟨rfl, inBelow, fun _ => Nat.le_of_not_lt notAbove⟩
            · cases searched
              exact .inr ⟨rfl, inAbove, fun _ => Nat.le_of_not_lt notBelow⟩
  · rename_i inBelow fails
    cases searched
    exact .inl ⟨rfl, inBelow, fun holds => Bool.noConfusion (fails.symm.trans holds)⟩
  · rename_i fails inAbove
    cases searched
    exact .inr ⟨rfl, inAbove, fun holds => Bool.noConfusion (fails.symm.trans holds)⟩
  · cases searched

theorem power_of_onGrid (searched : onGrid tie rounding power = some found) :
    found.power = power := by
  rcases onGrid_cases searched with ⟨rfl, _, _⟩ | ⟨rfl, _, _⟩
  · rfl
  · rfl

include positive in
theorem contains_of_onGrid (searched : onGrid tie rounding power = some found) :
    rounding.Contains found := by
  rcases onGrid_cases searched with ⟨rfl, holds, _⟩ | ⟨rfl, holds, _⟩
  · exact contains_below holds
  · exact contains_above positive holds

theorem le_of_not_holds {below above : Nat} (fails : ¬ rounding.holds below above = true) :
    above ≤ below :=
  Nat.le_of_not_lt fun less => fails (holds_of_lt less)

/-- What is found is at most half a step off, unless the point on the other side is no longer in
the interval. -/
theorem near_of_onGrid (searched : onGrid tie rounding power = some found) :
    let step := (rounding.units power).1
    let quarter := (rounding.units power).2
    let value := 4 * rounding.mantissa * quarter
    let point := found.digits * step
    (2 * point ≤ 2 * value + step ∧ 2 * value ≤ 2 * point + step) ∨
      (point ≤ value ∧ rounding.upper * quarter ≤ point + step) ∨
        (value ≤ point ∧ point ≤ rounding.lower * quarter + step) := by
  intro step quarter value point
  have before : rounding.below power * step ≤ value := below_mul_le
  have after : value < (rounding.below power + 1) * step := lt_below_succ_mul
  have next : (rounding.below power + 1) * step = rounding.below power * step + step :=
    Nat.succ_mul _ _
  rcases onGrid_cases searched with ⟨rfl, holds, nearer⟩ | ⟨rfl, holds, nearer⟩
  · by_cases other : rounding.holds ((rounding.below power + 1) * step)
        (rounding.upper * quarter) = true
    · have closer : value - rounding.below power * step ≤
          (rounding.below power + 1) * step - value := nearer other
      refine .inl ?_
      change 2 * (rounding.below power * step) ≤ _ ∧ _ ≤ 2 * (rounding.below power * step) + _
      omega
    · exact .inr (.inl ⟨before, next ▸ le_of_not_holds other⟩)
  · by_cases other : rounding.holds (rounding.lower * quarter) (rounding.below power * step) = true
    · have closer : (rounding.below power + 1) * step - value ≤
          value - rounding.below power * step := nearer other
      refine .inl ?_
      change 2 * ((rounding.below power + 1) * step) ≤ _ ∧
        _ ≤ 2 * ((rounding.below power + 1) * step) + _
      omega
    · refine .inr (.inr ⟨Nat.le_of_lt after, ?_⟩)
      have short := le_of_not_holds other
      change (rounding.below power + 1) * step ≤ _
      omega

theorem not_holds_of_onGrid_eq_none (none : onGrid tie rounding power = none) :
    ¬ rounding.holds (rounding.lower * (rounding.units power).2)
        (rounding.below power * (rounding.units power).1) = true ∧
      ¬ rounding.holds ((rounding.below power + 1) * (rounding.units power).1)
        (rounding.upper * (rounding.units power).2) = true := by
  unfold onGrid at none
  dsimp only at none
  split at none
  · cases none
  · cases none
  · cases none
  · rename_i failsBelow failsAbove
    exact ⟨fun holds => Bool.noConfusion (failsBelow.symm.trans holds),
      fun holds => Bool.noConfusion (failsAbove.symm.trans holds)⟩

/-- A grid without a point in the interval is at least as wide as the interval. -/
theorem wide_of_onGrid_eq_none (none : onGrid tie rounding power = none) :
    rounding.upper * (rounding.units power).2 ≤
      rounding.lower * (rounding.units power).2 + (rounding.units power).1 := by
  obtain ⟨failsBelow, failsAbove⟩ := not_holds_of_onGrid_eq_none none
  have next : (rounding.below power + 1) * (rounding.units power).1 =
      rounding.below power * (rounding.units power).1 + (rounding.units power).1 :=
    Nat.succ_mul _ _
  calc rounding.upper * (rounding.units power).2
      ≤ (rounding.below power + 1) * (rounding.units power).1 := le_of_not_holds failsAbove
    _ = rounding.below power * (rounding.units power).1 + (rounding.units power).1 := next
    _ ≤ rounding.lower * (rounding.units power).2 + (rounding.units power).1 :=
        Nat.add_le_add_right (le_of_not_holds failsBelow) _

include positive in
/-- The search cannot go past a grid that the number is on. -/
theorem isSome_onGrid
    (onPoint : (rounding.units power).1 ∣ 4 * rounding.mantissa * (rounding.units power).2) :
    (onGrid tie rounding power).isSome = true := by
  have quarter := (units_pos rounding power).2
  have exact : rounding.below power * (rounding.units power).1 =
      4 * rounding.mantissa * (rounding.units power).2 := Nat.div_mul_cancel onPoint
  refine Option.isSome_iff_ne_none.mpr fun none => (not_holds_of_onGrid_eq_none none).1 ?_
  rw [exact]
  exact holds_of_lt (Nat.mul_lt_mul_of_pos_right (lower_lt positive).2 quarter)

/-- What is found is on the first of the grids with a point, the next coarser one has none. -/
theorem onGrid_search {grids : Nat} {power : Int}
    (onPoint : (onGrid tie rounding (power - grids)).isSome = true) :
    onGrid tie rounding (search tie rounding grids power).power =
        some (search tie rounding grids power) ∧
      ((search tie rounding grids power).power = power ∨
        onGrid tie rounding ((search tie rounding grids power).power + 1) = none) := by
  induction grids generalizing power with
  | zero =>
      rw [Int.natCast_zero, Int.sub_zero] at onPoint
      obtain ⟨found, searched⟩ := Option.isSome_iff_exists.mp onPoint
      have same := power_of_onGrid searched
      rw [search, searched, Option.getD_some, same]
      exact ⟨searched, .inl rfl⟩
  | succ grids ih =>
      rw [search]
      split
      · rename_i found searched
        have same := power_of_onGrid searched
        rw [same]
        exact ⟨searched, .inl rfl⟩
      · rename_i none
        have next : power - 1 - grids = power - ↑(grids + 1) := by omega
        obtain ⟨searched, last⟩ := ih (next ▸ onPoint)
        refine ⟨searched, .inr ?_⟩
        rcases last with same | coarser
        · rw [same, Int.sub_add_cancel]
          exact none
        · exact coarser

end Grid

/-- A whole binary number is on the grid of the units, and one with binary places on the grid of
as many decimal places. -/
theorem dvd_units_of_min :
    (rounding.units (min rounding.exponent 0)).1 ∣
      4 * rounding.mantissa * (rounding.units (min rounding.exponent 0)).2 := by
  rcases Int.le_total 0 rounding.exponent with whole | places
  · rw [Int.min_eq_right whole]
    have few : (-(rounding.exponent - 2)).toNat ≤ 2 := by omega
    change Nat.pow 10 0 * 2 ^ (-(rounding.exponent - 2)).toNat ∣ _
    rw [Nat.mul_assoc]
    exact Nat.dvd_mul_right_of_dvd (by simpa using Nat.pow_dvd_pow 2 few) _
  · rw [Int.min_eq_left places]
    have binary : (-(rounding.exponent - 2)).toNat = (-rounding.exponent).toNat + 2 := by omega
    have step : (rounding.units rounding.exponent).1 = 4 * 2 ^ (-rounding.exponent).toNat := by
      change 10 ^ rounding.exponent.toNat * 2 ^ (-(rounding.exponent - 2)).toNat = _
      rw [Int.toNat_of_nonpos places, binary, Nat.pow_succ, Nat.pow_succ]
      omega
    have halves : 2 ^ (-rounding.exponent).toNat ∣ 10 ^ (-rounding.exponent).toNat :=
      ⟨5 ^ (-rounding.exponent).toNat, Nat.mul_pow 2 5 _⟩
    rw [step, Nat.mul_assoc]
    exact Nat.mul_dvd_mul_left 4 (Nat.dvd_mul_left_of_dvd (Nat.dvd_mul_left_of_dvd halves _) _)

theorem onGrid_shortest (tie : Tie) (positive : 0 < rounding.mantissa) :
    onGrid tie rounding (shortest tie rounding).power = some (shortest tie rounding) ∧
      ((shortest tie rounding).power = topPower rounding ∨
        onGrid tie rounding ((shortest tie rounding).power + 1) = none) := by
  refine onGrid_search (isSome_onGrid positive ?_)
  have top : 0 < topPower rounding := by
    unfold topPower
    omega
  have last : topPower rounding - ((topPower rounding + (-rounding.exponent).toNat).toNat : Int) =
      min rounding.exponent 0 := by omega
  rw [last]
  exact dvd_units_of_min

theorem contains_shortest (tie : Tie) (positive : 0 < rounding.mantissa) :
    rounding.Contains (shortest tie rounding) :=
  contains_of_onGrid positive (onGrid_shortest tie positive).1

theorem digits_pos_of_contains (positive : 0 < rounding.mantissa)
    (contains : rounding.Contains found) : 0 < found.digits := by
  have lower := (lower_lt positive).1
  have quarter := (units_pos rounding found.power).2
  have reached := Nat.lt_of_lt_of_le (Nat.mul_pos lower quarter) (le_of_holds contains.1)
  exact Nat.pos_of_mul_pos_right reached

end HdrGain.Decimal
