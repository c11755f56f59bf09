import HdrGain.Proofs.Scalar.Exact

namespace HdrGain

namespace Matrix

/-- The entries in rows: each row makes one channel. -/
def entries (matrix : Matrix Exact) :=
  !![matrix.r.r.value, matrix.r.g.value, matrix.r.b.value;
    matrix.g.r.value, matrix.g.g.value, matrix.g.b.value;
    matrix.b.r.value, matrix.b.g.value, matrix.b.b.value]

theorem entries_injective : Function.Injective entries := by
  intro first second same
  obtain ⟨red, green, blue⟩ := first
  obtain ⟨red', green', blue'⟩ := second
  obtain rfl : red = red' := Color.values_injective (congrFun same 0)
  obtain rfl : green = green' := Color.values_injective (congrFun same 1)
  obtain rfl : blue = blue' := Color.values_injective (congrFun same 2)
  rfl

theorem entries_mul (first second : Matrix Exact) :
    (first * second).entries = first.entries * second.entries := by
  unfold entries
  rw [Matrix.mul_fin_three]
  rfl

theorem values_transform (matrix : Matrix Exact) (color : Color Exact) :
    (matrix.transform color).values = matrix.entries.mulVec color.values := by
  funext channel
  rw [Matrix.mulVec_apply_eq_sum, Fin.sum_univ_three]
  fin_cases channel <;> rfl

theorem value_determinant (matrix : Matrix Exact) :
    matrix.determinant.value = matrix.entries.det := by
  rw [Matrix.det_fin_three]
  simp only [determinant, cross, transpose, ofColumns, Color.dot, entries, Exact.value_add,
    Exact.value_sub, Exact.value_mul, Matrix.of_apply, Matrix.cons_val', Matrix.cons_val_zero,
    Matrix.cons_val_fin_one, Matrix.cons_val_one, Matrix.cons_val]
  ring

variable (first second third : Matrix Exact)

/-- A product acts as its second factor and then as its first. -/
theorem transform_mul (color : Color Exact) :
    (first * second).transform color = first.transform (second.transform color) := by
  apply Color.values_injective
  rw [values_transform, values_transform, values_transform, entries_mul, Matrix.mulVec_mulVec]

theorem mul_regroup : first * second * third = first * (second * third) := by
  apply entries_injective
  rw [entries_mul, entries_mul, entries_mul, entries_mul, Matrix.mul_assoc]

theorem determinant_mul :
    (first * second).determinant = first.determinant * second.determinant := by
  apply Exact.value_injective
  rw [Exact.value_mul, value_determinant, value_determinant, value_determinant, entries_mul,
    Matrix.det_mul]

/-- Matrices that act alike on every color are the same. -/
theorem transform_injective :
    Function.Injective (transform : Matrix Exact → Color Exact → Color Exact) := by
  intro first second same
  apply entries_injective
  apply Matrix.mulVec_injective
  funext channels
  obtain ⟨color, rfl⟩ := Color.values_surjective channels
  rw [← values_transform, ← values_transform, same]

/-- Color matrices act on colors as their entries, in rows, act on columns of channels. Products are
taken of the entries, so they act one factor after the other and may be regrouped, and determinants
are those of the entries, so they are multiplied along. No two matrices act alike. Entries of any
kind, floats in all their bits among them, stay as they are where a matrix is taken apart into its
columns and put together from them. -/
theorem acts_as_rows :
    (∀ (matrix : Matrix Exact) (color : Color Exact),
      (matrix.transform color).values = matrix.entries.mulVec color.values) ∧
    (∀ matrix : Matrix Exact, matrix.determinant.value = matrix.entries.det) ∧
    (∀ (first second : Matrix Exact) (color : Color Exact),
      (first * second).transform color = first.transform (second.transform color)) ∧
    (∀ first second third : Matrix Exact, first * second * third = first * (second * third)) ∧
    (∀ first second : Matrix Exact,
      (first * second).determinant = first.determinant * second.determinant) ∧
    Function.Injective (transform : Matrix Exact → Color Exact → Color Exact) ∧
    ∀ {α : Type} (matrix : Matrix α),
      ofColumns matrix.transpose.r matrix.transpose.g matrix.transpose.b = matrix :=
  ⟨values_transform, value_determinant, transform_mul, mul_regroup, determinant_mul,
    transform_injective, fun _ => rfl⟩

end Matrix

namespace Matrix

/-- The cofactors in their places, before they are divided by the determinant. -/
def adjugate {α : Type} [Scalar α] (matrix : Matrix α) : Matrix α :=
  let columns := matrix.transpose
  ⟨cross columns.g columns.b, cross columns.b columns.r, cross columns.r columns.g⟩

theorem entries_adjugate (matrix : Matrix Exact) :
    matrix.adjugate.entries = matrix.entries.adjugate := by
  rw [Matrix.adjugate_fin_three]
  ext row column
  fin_cases row <;> fin_cases column <;> simp [adjugate, cross, entries, transpose, ofColumns]
  all_goals ring

theorem entries_adjugateInverse (matrix : Matrix Exact) :
    matrix.adjugateInverse.entries = matrix.entries⁻¹ := by
  have scale : (1.0 / matrix.determinant : Exact).value = matrix.entries.det⁻¹ := by
    rw [Exact.value_div, value_determinant, Exact.value_ofScientific]
    norm_num
  rw [Matrix.inv_def, Ring.inverse_eq_inv', ← scale, ← entries_adjugate]
  ext row column
  fin_cases row <;> fin_cases column <;> exact mul_comm _ _

theorem entries_identity : (identity : Matrix Exact).entries = 1 := by
  ext row column
  fin_cases row <;> fin_cases column <;>
    norm_num [entries, identity, diagonal, Color.one, Color.splat]

theorem transform_identity (color : Color Exact) : identity.transform color = color := by
  apply Color.values_injective
  rw [values_transform, entries_identity, Matrix.one_mulVec]

theorem identity_mul (matrix : Matrix Exact) : identity * matrix = matrix := by
  apply entries_injective
  rw [entries_mul, entries_identity, Matrix.one_mul]

variable {matrix inverse other : Matrix Exact}

theorem inverse?_eq_none_iff_value :
    matrix.inverse? = none ↔ |matrix.determinant.value| < 1 / 10 ^ 10 :=
  inverse?_eq_none_iff.trans Exact.abs_lt_threshold_iff

theorem exists_inverse (spans : 1 / 10 ^ 10 ≤ |matrix.determinant.value|) :
    ∃ inverse, matrix.inverse? = some inverse :=
  Option.ne_none_iff_exists'.mp (mt inverse?_eq_none_iff_value.mp spans.not_gt)

theorem mul_eq_identity_iff :
    matrix * inverse = identity ↔ matrix.entries * inverse.entries = 1 := by
  rw [← entries_injective.eq_iff, entries_mul, entries_identity]

/-- Undoing from the left is undoing from the right. -/
theorem mul_eq_identity_comm : matrix * inverse = identity ↔ inverse * matrix = identity := by
  rw [mul_eq_identity_iff, mul_eq_identity_iff, mul_eq_one_comm]

theorem transform_transform_iff :
    (∀ color, inverse.transform (matrix.transform color) = color) ↔
      inverse * matrix = identity := by
  rw [← transform_injective.eq_iff, funext_iff]
  simp only [transform_mul, transform_identity]

theorem mul_of_inverse? (inverts : matrix.inverse? = some inverse) :
    matrix * inverse = identity := by
  obtain ⟨spans, rfl⟩ := inverse?_eq_some_iff.mp inverts
  rw [Exact.abs_lt_threshold_iff, not_lt] at spans
  have nonzero : matrix.entries.det ≠ 0 := by
    rw [← value_determinant, ← abs_pos]
    exact lt_of_lt_of_le (by norm_num) spans
  rw [mul_eq_identity_iff, entries_adjugateInverse]
  exact Matrix.mul_nonsing_inv _ (Ne.isUnit nonzero)

theorem transform_of_inverse? (inverts : matrix.inverse? = some inverse) (color : Color Exact) :
    inverse.transform (matrix.transform color) = color :=
  transform_transform_iff.mpr (mul_eq_identity_comm.mp (mul_of_inverse? inverts)) color

theorem eq_of_undoes (inverts : matrix.inverse? = some inverse)
    (undoes : other * matrix = identity) : other = inverse := by
  have left := mul_eq_identity_iff.mp undoes
  have right := mul_eq_identity_iff.mp (mul_of_inverse? inverts)
  exact entries_injective (left_inv_eq_right_inv left right)

/-- A matrix has an inverse exactly if its determinant is not closer to zero than one part in
`10 ^ 10`. The inverse undoes the matrix from both sides and on every color, and no other matrix
does so in any of these ways. -/
theorem inverse_undoes_alone (matrix : Matrix Exact) :
    (matrix.inverse? = none ↔ |matrix.determinant.value| < 1 / 10 ^ 10) ∧
    ∀ inverse, matrix.inverse? = some inverse →
      matrix * inverse = identity ∧ inverse * matrix = identity ∧
      (∀ color, inverse.transform (matrix.transform color) = color) ∧
      ∀ other, matrix * other = identity ∨ other * matrix = identity ∨
          (∀ color, other.transform (matrix.transform color) = color) →
        other = inverse := by
  refine ⟨inverse?_eq_none_iff_value, fun inverse inverts => ?_⟩
  have right := mul_of_inverse? inverts
  refine ⟨right, mul_eq_identity_comm.mp right, transform_of_inverse? inverts, ?_⟩
  rintro other (undone | undoes | restores)
  · exact eq_of_undoes inverts (mul_eq_identity_comm.mp undone)
  · exact eq_of_undoes inverts undoes
  · exact eq_of_undoes inverts (transform_transform_iff.mp restores)

theorem mixed_rows_undone :
    ∃ matrix inverse : Matrix Exact,
      matrix = ⟨⟨1.0, 2.0, 3.0⟩, ⟨0.0, 1.0, 4.0⟩, ⟨5.0, 6.0, 0.0⟩⟩ ∧
      inverse = ⟨⟨-24.0, 18.0, 5.0⟩, ⟨20.0, -15.0, -4.0⟩, ⟨-5.0, 4.0, 1.0⟩⟩ ∧
      matrix.inverse? = some inverse ∧ matrix * inverse = identity ∧
      ∀ color, inverse.transform (matrix.transform color) = color := by
  have inverts : (⟨⟨1.0, 2.0, 3.0⟩, ⟨0.0, 1.0, 4.0⟩, ⟨5.0, 6.0, 0.0⟩⟩ : Matrix Exact).inverse? =
      some ⟨⟨-24.0, 18.0, 5.0⟩, ⟨20.0, -15.0, -4.0⟩, ⟨-5.0, 4.0, 1.0⟩⟩ := by
    decide +kernel
  obtain ⟨right, -, restores, -⟩ := (inverse_undoes_alone _).2 _ inverts
  exact ⟨_, _, rfl, rfl, inverts, right, restores⟩

end Matrix

end HdrGain
