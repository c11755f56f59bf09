import HdrGain.Proofs.Scalar.Extended

namespace HdrGain.Rounding

open Float.Model Float.Model.UnpackedFloat

/-! # The zero below zero

Floats have two zeros. Added to the upper one, the lower one is lost, and it is the only float that
is. Counts, differences and quotients of what is not the lower zero are not the lower zero either,
as long as they stay clear of zero or reach it exactly. -/

variable {first second value : Float32} {number : ℚ} {places low high : ℕ}

section Means

/-- Every float is its own quotient by one, at the ends and without a number as well. -/
theorem div_unit (value : Float32) : value / 1.0 = value := by
  have unit : (1.0 : Float32).toModel.unpack =
      .finite .positive 8388608 (-23) (by decide) := by rfl
  have canonical := canonical_unpack value.toModel
  have kept : value.toModel.unpack.div Format.binary32 (1.0 : Float32).toModel.unpack =
      value.toModel.unpack := by
    cases unpacked : value.toModel.unpack with
    | notANumber => rfl
    | infinity sign | zero sign => cases sign <;> rfl
    | finite sign mantissa exponent positive =>
        rw [unpacked] at canonical
        have rounded := rounded_div (number?_finite sign mantissa exponent positive)
          numberOf?_unit one_ne_zero
        rw [div_one] at rounded
        exact rounded.eq_of_finite canonical
  exact pack_of_unpack kept

theorem zero_add_of_ne (upper : value ≠ -0.0) : 0.0 + value = value := by
  have kept : (0.0 : Float32).toModel.unpack.add Format.binary32 value.toModel.unpack =
      value.toModel.unpack := by
    cases unpacked : value.toModel.unpack with
    | zero sign =>
        cases sign with
        | positive => rfl
        | negative => exact absurd (eq_of_unpack unpacked) upper
    | notANumber | infinity | finite => rfl
  exact pack_of_unpack kept

/-- The mean of a single float is that float, unless it is the lower zero. -/
theorem zero_add_div_unit_eq_iff : (0.0 + value) / 1.0 = value ↔ value ≠ -0.0 := by
  rw [div_unit]
  constructor
  · rintro kept rfl
    exact absurd kept (by decide)
  · exact zero_add_of_ne

end Means

/-- Zero or clear of zero, and not the lower zero. -/
structure Upper (value : Float32) (low high : ℕ) : Prop where
  clear : Clear value low high
  ne_lowerZero : value ≠ -0.0

theorem ne_lowerZero_of_number (stands : numberOf? value = some number) (nonzero : number ≠ 0) :
    value ≠ -0.0 := by
  rintro rfl
  cases stands
  exact nonzero rfl

namespace Upper

theorem mono {low' high' : ℕ} (upper : Upper value low high) (finer : low ≤ low')
    (wider : high ≤ high') : Upper value low' high' :=
  ⟨upper.clear.mono finer wider, upper.ne_lowerZero⟩

theorem kept (upper : Upper value low high) : value.isNaN = false ∧ value ≠ -0.0 :=
  ⟨isNaN_of_within upper.clear.within, upper.ne_lowerZero⟩

theorem eq_zero (upper : Upper value low high) (none : numberOf? value = some 0) :
    value = 0.0 := by
  obtain ⟨sign, unpacked⟩ := unpack_of_zero none
  cases sign with
  | positive => exact eq_of_unpack unpacked
  | negative => exact absurd (eq_of_unpack unpacked) upper.ne_lowerZero

theorem ofNat {count : ℕ} (inside : count ≤ 2 ^ high) (fits : high ≤ 24) :
    Upper (Scalar.ofNat count) 0 high := by
  refine ⟨.ofNat inside (fits.trans (by decide)), ?_⟩
  rcases Nat.eq_zero_or_pos count with rfl | positive
  · decide
  · have stands : numberOf? (Scalar.ofNat count : Float32) = some (count : ℚ) :=
      numberOf?_ofNat_of_le (inside.trans (Nat.pow_le_pow_right (by decide) fits))
    exact ne_lowerZero_of_number stands (Nat.cast_ne_zero.mpr positive.ne')

/-- A float less itself is the upper zero, and no other difference is so small that it vanishes. -/
theorem sub (upper : Upper first low high) (clear : Clear second low high)
    (large : high + 1 ≤ 127) (small : low + 23 ≤ 149) :
    Upper (first - second) (low + 23) (high + 1) := by
  refine ⟨upper.clear.sub clear large small, ?_⟩
  obtain ⟨steps, stands⟩ := upper.clear.onGrid
  obtain ⟨steps', stands'⟩ := clear.onGrid
  by_cases same : steps = steps'
  · subst same
    by_cases none : (steps : ℚ) * 2 ^ (-(low + 23 : ℕ) : ℤ) = 0
    · rw [none] at stands stands'
      obtain ⟨sign, unpacked⟩ := unpack_of_zero stands'
      rw [upper.eq_zero stands]
      cases sign with
      | positive =>
          obtain rfl : second = 0.0 := eq_of_unpack unpacked
          decide
      | negative =>
          obtain rfl : second = -0.0 := eq_of_unpack unpacked
          decide
    · rw [eq_of_numberOf? stands' stands none, sub_self_of_number stands none]
      decide
  · have difference := abs_sub_le_of_within stands stands' upper.clear.within clear.within
    obtain ⟨result, found, rounds⟩ :=
      numberOf?_sub stands stands' (difference.trans (two_pow_le_largest large))
    rw [← sub_mul, ← Int.cast_sub] at rounds
    have apart : ((steps - steps' : ℤ) : ℚ) * 2 ^ (-(low + 23 : ℕ) : ℤ) ≠ 0 :=
      mul_ne_zero (Int.cast_ne_zero.mpr (sub_ne_zero.mpr same)) (by positivity)
    have far := rounds.two_zpow_le_abs _ (by omega) ((grid_away _ _).resolve_left apart)
    refine ne_lowerZero_of_number found (abs_pos.mp (lt_of_lt_of_le ?_ far))
    positivity

theorem div {divisor : ℚ} (upper : Upper first low high)
    (stands' : numberOf? second = some divisor) (least : 1 ≤ divisor)
    (most : divisor ≤ 2 ^ places) (large : high ≤ 127) (small : low + places ≤ 149) :
    Upper (first / second) (low + places) high := by
  refine ⟨upper.clear.div stands' least most large small, ?_⟩
  obtain ⟨number, stands, bound, away⟩ := upper.clear
  rcases away with rfl | away
  · rw [upper.eq_zero stands, zero_div_of_pos stands' (one_pos.trans_le least)]
    decide
  · obtain ⟨_, result, found, rounds⟩ :=
      numberOf?_div_of_one_le stands bound stands' least large
    have far := rounds.two_zpow_le_abs _ (by omega) (two_zpow_le_abs_div away least most)
    refine ne_lowerZero_of_number found (abs_pos.mp (lt_of_lt_of_le ?_ far))
    positivity

end Upper

end HdrGain.Rounding
