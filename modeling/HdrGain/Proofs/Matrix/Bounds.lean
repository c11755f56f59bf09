import HdrGain.Proofs.Matrix.Algebra

namespace HdrGain

namespace Color

variable {color : Color Exact}

/-- The largest channel, without its sign. -/
def magnitude (color : Color Exact) : ℚ :=
  |color.r.value| ⊔ |color.g.value| ⊔ |color.b.value|

def InUnitCube (color : Color Exact) : Prop :=
  ∀ channel, 0 ≤ color.values channel ∧ color.values channel ≤ 1

instance : Decidable color.InUnitCube :=
  inferInstanceAs (Decidable (∀ _, _))

theorem abs_values_le_magnitude (color : Color Exact) (channel : Fin 3) :
    |color.values channel| ≤ color.magnitude := by
  fin_cases channel
  · exact le_sup_left.trans le_sup_left
  · exact le_sup_right.trans le_sup_left
  · exact le_sup_right

theorem InUnitCube.magnitude_le_one (inside : color.InUnitCube) : color.magnitude ≤ 1 := by
  have size (channel : Fin 3) : |color.values channel| ≤ 1 :=
    abs_le.mpr ⟨by linarith [(inside channel).1], (inside channel).2⟩
  exact sup_le (sup_le (size 0) (size 1)) (size 2)

theorem values_splat (grey : Exact) (channel : Fin 3) :
    (splat grey).values channel = grey.value := by
  fin_cases channel <;> rfl

end Color

namespace Matrix

section Range

variable (matrix : Matrix Exact) (row : Fin 3)

/-- The negative entries of a row, added up. -/
def lowest : ℚ :=
  ∑ column, matrix.entries row column ⊓ 0

/-- The positive entries of a row, added up. -/
def highest : ℚ :=
  ∑ column, matrix.entries row column ⊔ 0

theorem values_transform_splat (grey : Exact) :
    (matrix.transform (Color.splat grey)).values row =
      (matrix.lowest row + matrix.highest row) * grey.value := by
  rw [values_transform, Matrix.mulVec_apply_eq_sum, lowest, highest, ← Finset.sum_add_distrib,
    Finset.sum_mul]
  refine Finset.sum_congr rfl fun column _ => ?_
  rw [Color.values_splat, min_add_max, add_zero]

variable {matrix} in
theorem values_transform_mem {color : Color Exact} (inside : color.InUnitCube) :
    matrix.lowest row ≤ (matrix.transform color).values row ∧
      (matrix.transform color).values row ≤ matrix.highest row := by
  rw [values_transform, Matrix.mulVec_apply_eq_sum]
  constructor
  · refine Finset.sum_le_sum fun column _ => ?_
    obtain ⟨dark, bright⟩ := inside column
    rcases le_total (matrix.entries row column) 0 with negative | positive
    · rw [min_eq_left negative]
      exact le_mul_of_le_one_right negative bright
    · rw [min_eq_right positive]
      exact mul_nonneg positive dark
  · refine Finset.sum_le_sum fun column _ => ?_
    obtain ⟨dark, bright⟩ := inside column
    rcases le_total (matrix.entries row column) 0 with negative | positive
    · rw [max_eq_right negative]
      exact mul_nonpos_of_nonpos_of_nonneg negative dark
    · rw [max_eq_left positive]
      exact mul_le_of_le_one_right positive bright

end Range

section Nearness

variable {bound : ℚ} {first second third : Matrix Exact}

/-- In each row the differences of the entries add up to no more than `bound`. -/
def Near (bound : ℚ) (first second : Matrix Exact) : Prop :=
  ∀ row, ∑ column, |first.entries row column - second.entries row column| ≤ bound

instance : Decidable (Near bound first second) :=
  inferInstanceAs (Decidable (∀ _, _))

theorem Near.abs_transform_sub_le (near : Near bound first second) (color : Color Exact)
    (channel : Fin 3) :
    |(first.transform color).values channel - (second.transform color).values channel| ≤
      bound * color.magnitude := by
  rw [values_transform, values_transform, ← Pi.sub_apply, ← Matrix.sub_mulVec,
    Matrix.mulVec_apply_eq_sum]
  calc |∑ column, (first.entries - second.entries) channel column * color.values column|
      ≤ ∑ column, |(first.entries - second.entries) channel column * color.values column| :=
        Finset.abs_sum_le_sum_abs _ _
    _ ≤ ∑ column, |(first.entries - second.entries) channel column| * color.magnitude := by
        refine Finset.sum_le_sum fun column _ => ?_
        rw [abs_mul]
        exact mul_le_mul_of_nonneg_left (color.abs_values_le_magnitude column) (abs_nonneg _)
    _ = (∑ column, |(first.entries - second.entries) channel column|) * color.magnitude := by
        rw [Finset.sum_mul]
    _ ≤ bound * color.magnitude :=
        mul_le_mul_of_nonneg_right (near channel)
          ((abs_nonneg _).trans (color.abs_values_le_magnitude 0))

/-- Two matrices one after the other, compared with a single one. -/
theorem Near.abs_transform_transform_sub_le (near : Near bound (second * first) third)
    (color : Color Exact) (channel : Fin 3) :
    |(second.transform (first.transform color)).values channel -
        (third.transform color).values channel| ≤ bound * color.magnitude := by
  rw [← transform_mul]
  exact near.abs_transform_sub_le color channel

end Nearness

end Matrix

end HdrGain
