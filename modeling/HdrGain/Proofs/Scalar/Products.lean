import HdrGain.Proofs.Scalar.Extended

namespace HdrGain.Rounding

open Float.Model Float.Model.UnpackedFloat

/-- The middle between the largest float and `2 ^ 128`. -/
def overflowLimit : ℚ := 2 ^ 128 - 2 ^ 103

section Limit

variable {value result : ℚ}

theorem RoundsTo.abs (rounds : RoundsTo value result) : RoundsTo |value| |result| := by
  rcases le_total 0 value with above | below
  · rw [abs_of_nonneg above, abs_of_nonneg (rounds.nonneg above)]
    exact rounds
  · have mirrored := rounds.neg
    have above := mirrored.nonneg (neg_nonneg.mpr below)
    rw [abs_of_nonpos below, abs_of_nonpos (neg_nonneg.mp above)]
    exact mirrored

/-- From `2 ^ 127` to `2 ^ 128` floats are `2 ^ 104` apart. -/
theorem RoundsTo.last_steps (rounds : RoundsTo value result) (least : 2 ^ 127 ≤ value)
    (most : value < 2 ^ 128) :
    ∃ steps : ℤ, result = steps * 2 ^ 104 ∧ |value - result| ≤ 2 ^ 103 ∧
      (|value - result| = 2 ^ 103 → steps % 2 = 0) := by
  obtain ⟨spacing, steps, -, placed, lower, upper, near, even⟩ := rounds
  have positive : 0 < value := lt_of_lt_of_le (by norm_num) least
  rw [abs_of_pos positive] at lower upper
  have low : (127 : ℤ) < spacing + 24 := by
    rw [← zpow_lt_zpow_iff_right₀ (by norm_num : (1 : ℚ) < 2)]
    exact least.trans_lt upper
  have high : spacing + 23 < (128 : ℤ) := by
    rw [← zpow_lt_zpow_iff_right₀ (by norm_num : (1 : ℚ) < 2)]
    exact (lower.resolve_right (by omega)).trans_lt most
  obtain rfl : spacing = 104 := by omega
  have half : (2 : ℚ) ^ (104 : ℤ) / 2 = 2 ^ 103 := by norm_num
  rw [half] at near even
  exact ⟨steps, placed, near, even⟩

theorem RoundsTo.lt_end_iff (rounds : RoundsTo value result) (nonneg : 0 ≤ value) :
    result < 2 ^ 128 ↔ value < overflowLimit := by
  unfold overflowLimit
  rcases lt_or_ge value (2 ^ 127) with small | least
  · have bounded : |value| ≤ 2 ^ 127 := (abs_of_nonneg nonneg).trans_le small.le
    have below := (abs_le.mp (rounds.abs_le_two_pow bounded)).2
    exact ⟨fun _ => small.trans (by norm_num), fun _ => below.trans_lt (by norm_num)⟩
  · rcases lt_or_ge value (2 ^ 128) with most | large
    · obtain ⟨steps, rfl, near, even⟩ := rounds.last_steps least most
      obtain ⟨lower, upper⟩ := abs_le.mp near
      constructor
      · intro below
        have short : steps < 2 ^ 24 := by
          have shifted : (steps : ℚ) < 2 ^ 24 := by linarith
          exact_mod_cast shifted
        have last : (steps : ℚ) ≤ 2 ^ 24 - 1 := by exact_mod_cast Int.le_sub_one_of_lt short
        refine lt_of_le_of_ne (by linarith) fun middle => ?_
        -- the middle is half a step from the largest float, which is odd
        have reached : (steps : ℚ) = 2 ^ 24 - 1 := le_antisymm last (by linarith)
        have odd : steps = 2 ^ 24 - 1 := by exact_mod_cast reached
        have tie := even (by rw [middle, reached]; norm_num)
        omega
      · intro below
        linarith
    · have reached := rounds.le_of_ge 1 128 (by decide) (by decide) (by
        rw [Int.cast_one, one_mul]
        exact large)
      rw [Int.cast_one, one_mul] at reached
      constructor
      · intro below
        exact absurd reached below.not_ge
      · intro below
        linarith

end Limit

theorem exponent_le_iff {sign : Sign} {mantissa : Nat} {exponent : ℤ} {positive : 0 < mantissa}
    (canonical : Canonical (.finite sign mantissa exponent positive)) :
    exponent ≤ 104 ↔ |signed sign (mantissa * 2 ^ exponent)| < 2 ^ 128 := by
  obtain ⟨short, -, full⟩ := canonical
  have unit : (0 : ℚ) < 2 ^ exponent := zpow_pos (by norm_num) exponent
  rw [abs_signed, abs_of_nonneg (by positivity)]
  constructor
  · intro small
    calc (mantissa : ℚ) * 2 ^ exponent
        < (2 ^ 24 : ℕ) * 2 ^ exponent := mul_lt_mul_of_pos_right (Nat.cast_lt.mpr short) unit
      _ ≤ (2 ^ 24 : ℕ) * 2 ^ (104 : ℤ) :=
          mul_le_mul_of_nonneg_left (zpow_le_zpow_right₀ (by norm_num) small) (by positivity)
      _ = 2 ^ 128 := by norm_num
  · intro below
    by_contra large
    have long : ((2 ^ 23 : ℕ) : ℚ) ≤ mantissa := Nat.cast_le.mpr (full.resolve_right (by omega))
    have reached : ((2 ^ 23 : ℕ) : ℚ) * 2 ^ (105 : ℤ) ≤ mantissa * 2 ^ exponent :=
      mul_le_mul long (zpow_le_zpow_right₀ (by norm_num) (by omega)) (by positivity)
        (by positivity)
    norm_num at reached below
    linarith

variable {first second value : Float32} {number number' : ℚ}

theorem Rounded.isFinite_iff {unpacked : UnpackedFloat} {exact : ℚ}
    (rounded : Rounded unpacked exact) :
    (Float32.ofModel (Float32.Model.pack unpacked)).isFinite = true ↔
      |exact| < overflowLimit := by
  obtain ⟨result, stands, canonical, rounds⟩ := rounded
  rw [← rounds.abs.lt_end_iff (abs_nonneg exact)]
  change (Float32.Model.pack unpacked).unpack.isFinite = true ↔ _
  rcases number?_eq_some stands with ⟨sign, rfl, rfl⟩ |
    ⟨sign, mantissa, exponent, positive, rfl, rfl⟩
  · rw [abs_zero]
    cases sign <;> exact ⟨fun _ => by norm_num, fun _ => rfl⟩
  · rw [← exponent_le_iff canonical]
    by_cases small : exponent ≤ 104
    · rw [unpack_pack_finite canonical small]
      exact ⟨fun _ => small, fun _ => rfl⟩
    · rw [pack_of_large (not_le.mp small)]
      refine ⟨fun finite => ?_, fun contrary => absurd contrary small⟩
      cases sign <;> cases finite

/-- No factor makes up for an infinity or for what is no number. -/
theorem mul_endless {left right : UnpackedFloat}
    (endless : left.isFinite = false ∨ right.isFinite = false) :
    left.mul Format.binary32 right = .notANumber ∨
      ∃ sign, left.mul Format.binary32 right = .infinity sign := by
  cases left with
  | notANumber => cases right <;> exact .inl rfl
  | infinity sign =>
      cases right with
      | notANumber | zero => exact .inl rfl
      | infinity | finite => exact .inr ⟨_, rfl⟩
  | zero sign =>
      cases right with
      | notANumber | infinity => exact .inl rfl
      | zero | finite => rcases endless with none | none <;> cases none
  | finite sign =>
      cases right with
      | notANumber => exact .inl rfl
      | infinity => exact .inr ⟨_, rfl⟩
      | zero | finite => rcases endless with none | none <;> cases none

theorem isFinite_factors (finite : (first * second).isFinite = true) :
    first.isFinite = true ∧ second.isFinite = true := by
  by_contra endless
  rw [not_and_or, Bool.not_eq_true, Bool.not_eq_true] at endless
  change (Float32.Model.pack
    (first.toModel.unpack.mul Format.binary32 second.toModel.unpack)).unpack.isFinite = true
    at finite
  rcases mul_endless endless with none | ⟨sign, none⟩
  · rw [none] at finite
    cases finite
  · rw [none] at finite
    cases sign <;> cases finite

/-- A product is finite exactly if both factors are numbers whose product does not overflow. -/
theorem isFinite_mul_iff :
    (first * second).isFinite = true ↔
      ∃ number number', numberOf? first = some number ∧ numberOf? second = some number' ∧
        |number * number'| < overflowLimit := by
  constructor
  · intro finite
    obtain ⟨left, right⟩ := isFinite_factors finite
    obtain ⟨number, stands⟩ := isFinite_iff.mp left
    obtain ⟨number', stands'⟩ := isFinite_iff.mp right
    have rounded := rounded_mul (canonical_unpack _) (canonical_unpack _) stands stands'
    exact ⟨number, number', stands, stands', rounded.isFinite_iff.mp finite⟩
  · rintro ⟨number, number', stands, stands', below⟩
    have rounded := rounded_mul (canonical_unpack _) (canonical_unpack _) stands stands'
    exact rounded.isFinite_iff.mpr below

theorem unpack_mul_of_notANumber
    (none : first.toModel.unpack.mul Format.binary32 second.toModel.unpack = .notANumber) :
    (first * second).isNaN = true :=
  isNaN_pack_of_notANumber none

theorem isNaN_mul_of_factor (none : second.isNaN = true) : (first * second).isNaN = true := by
  apply unpack_mul_of_notANumber
  rw [unpack_of_isNaN none]
  cases first.toModel.unpack <;> rfl

/-- Zero times a number is zero, and times anything else no number. -/
theorem mul_zero_cases (none : numberOf? second = some 0) :
    (first.isFinite = true → numberOf? (first * second) = some 0) ∧
      (first.isFinite = false → (first * second).isNaN = true) := by
  constructor
  · intro finite
    obtain ⟨number, stands⟩ := isFinite_iff.mp finite
    obtain ⟨product, found, rounds⟩ := numberOf?_mul stands none (by
      rw [mul_zero, abs_zero]
      positivity)
    rw [mul_zero] at rounds
    rw [found, rounds.eq_zero]
  · intro endless
    obtain ⟨sign, zero⟩ := unpack_of_zero none
    apply unpack_mul_of_notANumber
    change first.toModel.unpack.isFinite = false at endless
    rw [zero]
    cases unpacked : first.toModel.unpack with
    | notANumber | infinity => rfl
    | zero | finite =>
        rw [unpacked] at endless
        cases endless

end HdrGain.Rounding
