import HdrGain.Proofs.Scalar.SpecialCases
import HdrGain.Proofs.Scalar.Spacing
import HdrGain.Proofs.Scalar.Uniqueness

namespace HdrGain.Rounding

open Float.Model Float.Model.UnpackedFloat

/-! # 32-bit floats with their ends

A float is a number, lies at one of two ends, or is no number. Floats with a place are in the order
of the extended reals, and what is no number is next to none of them. Arithmetic at the ends and
without a number is settled by the kinds of its operands alone, before anything is rounded. -/

/-- The place of a float among the numbers and the two ends. -/
noncomputable def extended? (value : Float32) : Option EReal :=
  match value.toModel.unpack with
  | .infinity .positive => some ⊤
  | .infinity .negative => some ⊥
  | _ => (numberOf? value).map fun number : ℚ => ((number : ℝ) : EReal)

variable {first second value : Float32} {number number' : ℚ} {place place' : EReal}

theorem extended?_of_number (stands : numberOf? value = some number) :
    extended? value = some ((number : ℝ) : EReal) := by
  unfold extended?
  rcases number?_eq_some stands with ⟨_, unpacked, _⟩ | ⟨_, _, _, _, unpacked, _⟩ <;>
    rw [unpacked, stands] <;> rfl

theorem extended?_eq_some (located : extended? value = some place) :
    (value.toModel.unpack = .infinity .positive ∧ place = ⊤) ∨
      (value.toModel.unpack = .infinity .negative ∧ place = ⊥) ∨
        ∃ number, numberOf? value = some number ∧ place = ((number : ℝ) : EReal) := by
  unfold extended? at located
  split at located
  · rename_i unpacked
    exact .inl ⟨unpacked, (Option.some.inj located).symm⟩
  · rename_i unpacked
    exact .inr (.inl ⟨unpacked, (Option.some.inj located).symm⟩)
  · obtain ⟨number, stands, rfl⟩ := Option.map_eq_some_iff.mp located
    exact .inr (.inr ⟨number, stands, rfl⟩)

theorem extended?_zero : extended? 0.0 = some 0 := by
  rw [extended?_of_number numberOf?_zero]
  norm_num

theorem isNaN_or_extended (value : Float32) :
    value.isNaN = true ∨ ∃ place, extended? value = some place := by
  change value.toModel.unpack.isNaN = true ∨ _
  unfold extended?
  cases unpacked : value.toModel.unpack with
  | notANumber => exact .inl rfl
  | infinity sign => cases sign <;> exact .inr ⟨_, rfl⟩
  | zero sign =>
      have stands : numberOf? value = some 0 := by rw [numberOf?, unpacked]; rfl
      exact .inr ⟨_, by rw [stands]; rfl⟩
  | finite sign mantissa exponent positive =>
      exact .inr ⟨_, by rw [numberOf?_of_unpack unpacked]; rfl⟩

theorem extended?_of_isNaN (none : value.isNaN = true) : extended? value = .none := by
  unfold extended?
  rw [unpack_of_isNaN none]
  change (number? value.toModel.unpack).map _ = _
  rw [unpack_of_isNaN none]
  rfl

theorem unpack_neg (value : Float32) : (-value).toModel.unpack = value.toModel.unpack.neg := by
  change (Float32.Model.pack value.toModel.unpack.neg).unpack = _
  have canonical := canonical_neg (canonical_unpack value.toModel)
  cases unpacked : value.toModel.unpack with
  | notANumber => rfl
  | infinity sign | zero sign => cases sign <;> rfl
  | finite sign mantissa exponent positive =>
      rw [unpacked] at canonical
      exact unpack_pack_finite canonical (exponent_le_of_unpack unpacked)

theorem numberOf?_neg (stands : numberOf? value = some number) :
    numberOf? (-value) = some (-number) := by
  rw [numberOf?, unpack_neg, number?_neg, ← numberOf?, stands]
  rfl

theorem extended?_neg (located : extended? value = some place) :
    extended? (-value) = some (-place) := by
  rcases extended?_eq_some located with ⟨unpacked, rfl⟩ | ⟨unpacked, rfl⟩ | ⟨number, stands, rfl⟩
  · unfold extended?
    rw [unpack_neg, unpacked, EReal.neg_top]
    rfl
  · unfold extended?
    rw [unpack_neg, unpacked, EReal.neg_bot]
    rfl
  · rw [extended?_of_number (numberOf?_neg stands), Rat.cast_neg, EReal.coe_neg]

theorem compare_top (stands : numberOf? value = some number) :
    value.toModel.unpack.compare (.infinity .positive) = some .lt ∧
      UnpackedFloat.compare (.infinity .positive) value.toModel.unpack = some .gt := by
  rcases number?_eq_some stands with ⟨sign, unpacked, _⟩ | ⟨sign, _, _, _, unpacked, _⟩ <;>
    rw [unpacked] <;> cases sign <;> exact ⟨rfl, rfl⟩

theorem compare_bottom (stands : numberOf? value = some number) :
    value.toModel.unpack.compare (.infinity .negative) = some .gt ∧
      UnpackedFloat.compare (.infinity .negative) value.toModel.unpack = some .lt := by
  rcases number?_eq_some stands with ⟨sign, unpacked, _⟩ | ⟨sign, _, _, _, unpacked, _⟩ <;>
    rw [unpacked] <;> cases sign <;> exact ⟨rfl, rfl⟩

theorem compare_cast (number number' : ℚ) :
    compare ((number : ℝ) : EReal) ((number' : ℝ) : EReal) = compare number number' := by
  rcases lt_trichotomy number number' with less | rfl | greater
  · rw [compare_lt_iff_lt.mpr less,
      compare_lt_iff_lt.mpr (EReal.coe_lt_coe_iff.mpr (Rat.cast_lt.mpr less))]
  · rw [compare_eq_iff_eq.mpr rfl, compare_eq_iff_eq.mpr rfl]
  · rw [compare_gt_iff_gt.mpr greater,
      compare_gt_iff_gt.mpr (EReal.coe_lt_coe_iff.mpr (Rat.cast_lt.mpr greater))]

theorem compare_extended (located : extended? first = some place)
    (located' : extended? second = some place') :
    first.toModel.unpack.compare second.toModel.unpack = some (compare place place') := by
  rcases extended?_eq_some located with ⟨unpacked, rfl⟩ | ⟨unpacked, rfl⟩ |
      ⟨number, stands, rfl⟩ <;>
    rcases extended?_eq_some located' with ⟨unpacked', rfl⟩ | ⟨unpacked', rfl⟩ |
      ⟨number', stands', rfl⟩
  · rw [unpacked, unpacked', compare_eq_iff_eq.mpr rfl]
    rfl
  · rw [unpacked, unpacked', compare_gt_iff_gt.mpr bot_lt_top]
    rfl
  · rw [unpacked, (compare_top stands').2, compare_gt_iff_gt.mpr (EReal.coe_lt_top _)]
  · rw [unpacked, unpacked', compare_lt_iff_lt.mpr bot_lt_top]
    rfl
  · rw [unpacked, unpacked', compare_eq_iff_eq.mpr rfl]
    rfl
  · rw [unpacked, (compare_bottom stands').2, compare_lt_iff_lt.mpr (EReal.bot_lt_coe _)]
  · rw [unpacked', (compare_top stands).1, compare_lt_iff_lt.mpr (EReal.coe_lt_top _)]
  · rw [unpacked', (compare_bottom stands).1, compare_gt_iff_gt.mpr (EReal.bot_lt_coe _)]
  · rw [compare_eq (canonical_unpack _) (canonical_unpack _) stands stands', compare_cast]

/-- Floats with a place are in the order of their places. -/
theorem lt_iff_extended (located : extended? first = some place)
    (located' : extended? second = some place') : first < second ↔ place < place' := by
  rw [lt_iff_compare, compare_extended located located', ← compare_lt_iff_lt]
  cases compare place place' <;> decide

theorem le_iff_extended (located : extended? first = some place)
    (located' : extended? second = some place') : first ≤ second ↔ place ≤ place' := by
  rw [le_iff_compare, compare_extended located located', ← compare_le_iff_le]
  cases compare place place' <;> decide

theorem compare_notANumber (unpacked : UnpackedFloat) :
    unpacked.compare .notANumber = none ∧ UnpackedFloat.compare .notANumber unpacked = none := by
  cases unpacked with
  | notANumber => exact ⟨rfl, rfl⟩
  | infinity sign | zero sign | finite sign => cases sign <;> exact ⟨rfl, rfl⟩

/-- Only floats with a place can be compared. -/
theorem exists_extended_of_compare {order : Ordering}
    (compared : first.toModel.unpack.compare second.toModel.unpack = some order) :
    (∃ place, extended? first = some place) ∧ ∃ place', extended? second = some place' := by
  refine ⟨(isNaN_or_extended first).resolve_left fun none => ?_,
    (isNaN_or_extended second).resolve_left fun none => ?_⟩
  · rw [unpack_of_isNaN none, (compare_notANumber _).2] at compared
    cases compared
  · rw [unpack_of_isNaN none, (compare_notANumber _).1] at compared
    cases compared

theorem exists_extended_of_lt (less : first < second) :
    (∃ place, extended? first = some place) ∧ ∃ place', extended? second = some place' := by
  rw [lt_iff_compare, beq_iff_eq] at less
  exact exists_extended_of_compare less

theorem exists_extended_of_le (ordered : first ≤ second) :
    (∃ place, extended? first = some place) ∧ ∃ place', extended? second = some place' := by
  rw [le_iff_compare, Option.any_eq_true] at ordered
  obtain ⟨order, compared, _⟩ := ordered
  exact exists_extended_of_compare compared

theorem not_le_of_pos (above : 0.0 < value) : ¬ value ≤ 0.0 := by
  obtain ⟨-, place, located⟩ := exists_extended_of_lt above
  rw [lt_iff_extended extended?_zero located] at above
  exact mt (le_iff_extended located extended?_zero).mp above.not_ge

section Kinds

theorem eq_of_unpack (same : first.toModel.unpack = second.toModel.unpack) : first = second := by
  rw [← pack_unpack first, same, pack_unpack]

theorem isNaN_or_inf_of_not_isFinite (endless : ¬ value.isFinite = true) :
    value.isNaN = true ∨ value = Float32.inf ∨ value = -Float32.inf := by
  refine (isNaN_or_extended value).imp_right fun ⟨place, located⟩ => ?_
  rcases extended?_eq_some located with ⟨unpacked, _⟩ | ⟨unpacked, _⟩ | ⟨number, stands, _⟩
  · exact .inl (eq_of_unpack unpacked)
  · exact .inr (eq_of_unpack unpacked)
  · exact absurd (isFinite_iff.mpr ⟨number, stands⟩) endless

end Kinds

section Arithmetic

/-- There is only one float that is no number. -/
theorem eq_nan (none : value.isNaN = true) : value = Float32.nan :=
  eq_of_unpack (by rw [unpack_of_isNaN none]; rfl)

/-- Every place but zero has one float. -/
theorem eq_of_extended? (located : extended? first = some place)
    (located' : extended? second = some place) (nonzero : place ≠ 0) : first = second := by
  rcases extended?_eq_some located with ⟨unpacked, rfl⟩ | ⟨unpacked, rfl⟩ |
      ⟨number, stands, rfl⟩ <;>
    rcases extended?_eq_some located' with ⟨unpacked', same⟩ | ⟨unpacked', same⟩ |
      ⟨number', stands', same⟩
  · exact eq_of_unpack (unpacked.trans unpacked'.symm)
  · cases same
  · exact absurd same.symm (EReal.coe_ne_top _)
  · cases same
  · exact eq_of_unpack (unpacked.trans unpacked'.symm)
  · exact absurd same.symm (EReal.coe_ne_bot _)
  · exact absurd same (EReal.coe_ne_top _)
  · exact absurd same (EReal.coe_ne_bot _)
  · obtain rfl : number = number' := Rat.cast_injective (EReal.coe_injective same)
    refine eq_of_numberOf? stands stands' fun zero => nonzero ?_
    rw [zero, Rat.cast_zero, EReal.coe_zero]

theorem unpack_div_of_notANumber
    (none : first.toModel.unpack.div Format.binary32 second.toModel.unpack = .notANumber) :
    (first / second).isNaN = true :=
  isNaN_pack_of_notANumber none

theorem isNaN_div_of_dividend (none : first.isNaN = true) : (first / second).isNaN = true := by
  apply unpack_div_of_notANumber
  rw [unpack_of_isNaN none]
  cases second.toModel.unpack <;> rfl

theorem isNaN_div_of_divisor (none : second.isNaN = true) : (first / second).isNaN = true := by
  apply unpack_div_of_notANumber
  rw [unpack_of_isNaN none]
  cases first.toModel.unpack <;> rfl

theorem bottom_div_of_pos (stands : numberOf? value = some number) (positive : 0 < number) :
    -Float32.inf / value = -Float32.inf := by
  obtain ⟨mantissa, exponent, above, unpacked, _⟩ := exists_unpack_of_pos stands positive
  have kept : (-Float32.inf).toModel.unpack.div Format.binary32 value.toModel.unpack =
      .infinity .negative := by
    rw [unpacked]
    rfl
  exact pack_of_unpack kept

theorem div_self_of_number (stands : numberOf? value = some number) (nonzero : number ≠ 0) :
    value / value = 1.0 := by
  have whole : number / number = (1 : ℕ) := by rw [div_self nonzero, Nat.cast_one]
  obtain ⟨quotient, found, rounds⟩ := numberOf?_div stands stands nonzero (by
    rw [whole]
    norm_num)
  rw [whole] at rounds
  rw [rounds.natCast_eq (by decide), Nat.cast_one] at found
  exact eq_of_numberOf? found numberOf?_unit one_ne_zero

end Arithmetic

section Magnitude

theorem numberOf?_abs (stands : numberOf? value = some number) :
    numberOf? (Scalar.abs value) = some |number| := by
  unfold Scalar.abs
  split
  · rename_i below
    rw [lt_iff stands numberOf?_zero] at below
    rw [abs_of_neg below]
    exact numberOf?_neg stands
  · rename_i above
    rw [lt_iff stands numberOf?_zero, not_lt] at above
    rw [abs_of_nonneg above]
    exact stands

theorem not_inf_lt : ¬ Float32.inf < value := by
  intro less
  obtain ⟨-, place, located⟩ := exists_extended_of_lt less
  have endless : extended? Float32.inf = some ⊤ := rfl
  exact not_top_lt ((lt_iff_extended endless located).mp less)

/-- Only numbers are closer to zero than a number. -/
theorem abs_lt_iff_number {limit : Float32} {bound : ℚ} (stands : numberOf? limit = some bound) :
    Scalar.abs value < limit ↔ ∃ number, numberOf? value = some number ∧ |number| < bound := by
  constructor
  · intro less
    by_cases finite : value.isFinite = true
    · obtain ⟨number, found⟩ := isFinite_iff.mp finite
      exact ⟨number, found, (lt_iff (numberOf?_abs found) stands).mp less⟩
    · have endless : Scalar.abs Float32.inf = Float32.inf ∧
          Scalar.abs (-Float32.inf) = Float32.inf := by decide
      rcases isNaN_or_inf_of_not_isFinite finite with none | rfl | rfl
      · have lost : (Scalar.abs Float32.nan).isNaN = true := by decide
        obtain ⟨⟨place, located⟩, -⟩ := exists_extended_of_lt less
        rw [eq_nan none, extended?_of_isNaN lost] at located
        cases located
      · rw [endless.1] at less
        exact absurd less not_inf_lt
      · rw [endless.2] at less
        exact absurd less not_inf_lt
  · rintro ⟨number, found, less⟩
    exact (lt_iff (numberOf?_abs found) stands).mpr less

end Magnitude

end HdrGain.Rounding
