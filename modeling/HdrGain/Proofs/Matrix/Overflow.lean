import HdrGain.Proofs.Matrix.Algebra
import HdrGain.Proofs.Scalar.Products

namespace HdrGain

open Rounding

/-! # Inverses of float matrices

In 32-bit floats the guard before an inverse stops determinants that are numbers close to zero. One
that has overflowed, or that has become no number, passes it. What comes out then is not an inverse:
zeros, or entries that are no numbers. Entries of up to `2 ^ 41` are safe. -/

namespace Rounding

/-- The float nearest to one part in `10 ^ 10`. -/
def leastVolume : ℚ := 14411519 / 2 ^ 57

theorem numberOf?_leastVolume : numberOf? 1e-10 = some leastVolume := by
  have unpacked : (1e-10 : Float32).toModel.unpack =
      .finite .positive 14411519 (-57) (by decide) := by rfl
  rw [numberOf?_of_unpack unpacked]
  norm_num [signed, leastVolume]

variable {value : Float32} {volume : ℚ}

theorem numberOf?_reciprocal (stands : numberOf? value = some volume)
    (large : leastVolume ≤ |volume|) :
    ∃ scale, numberOf? (1.0 / value) = some scale ∧ |scale| ≤ 2 ^ 34 := by
  have least : 1 / 2 ^ 34 ≤ |volume| := le_trans (by norm_num [leastVolume]) large
  have positive : 0 < |volume| := lt_of_lt_of_le (by norm_num) least
  have bounded : |1 / volume| ≤ 2 ^ 34 := by
    rw [abs_div, abs_one, div_le_comm₀ positive (by norm_num)]
    exact least
  obtain ⟨scale, found, rounds⟩ := numberOf?_div numberOf?_unit stands (abs_pos.mp positive)
    (bounded.trans (by norm_num))
  exact ⟨scale, found, rounds.abs_le_two_pow bounded⟩

theorem numberOf?_reciprocal_of_isInf (endless : value.isInf = true) :
    numberOf? (1.0 / value) = some 0 := by
  have found : numberOf? (1.0 / Float32.inf) = some 0 ∧
      numberOf? (1.0 / -Float32.inf) = some 0 := ⟨rfl, rfl⟩
  change value.toModel.unpack.isInf = true at endless
  cases unpacked : value.toModel.unpack with
  | infinity sign =>
      cases sign with
      | positive =>
          obtain rfl : value = Float32.inf := eq_of_unpack unpacked
          exact found.1
      | negative =>
          obtain rfl : value = -Float32.inf := eq_of_unpack unpacked
          exact found.2
  | notANumber | zero | finite =>
      rw [unpacked] at endless
      cases endless

end Rounding

namespace Matrix

/-- The entries in rows. -/
def parts {α : Type} (matrix : Matrix α) : Fin 3 → Fin 3 → α :=
  ![matrix.r.channels, matrix.g.channels, matrix.b.channels]

def AllFinite (matrix : Matrix Float32) : Prop :=
  ∀ row column, (matrix.parts row column).isFinite = true

instance (matrix : Matrix Float32) : Decidable matrix.AllFinite :=
  inferInstanceAs (Decidable (∀ row column : Fin 3, (matrix.parts row column).isFinite = true))

/-- Every cofactor is a number, and multiplied by `scale` it does not overflow. -/
def ScalesInside (matrix : Matrix Float32) (scale : ℚ) : Prop :=
  ∀ row column, ∃ cofactor, numberOf? (matrix.adjugate.parts row column) = some cofactor ∧
    |cofactor * scale| < overflowLimit

variable {matrix inverse : Matrix Float32} {places places' : ℕ}

theorem parts_transpose {α : Type} (matrix : Matrix α) (row column : Fin 3) :
    matrix.transpose.parts row column = matrix.parts column row := by
  fin_cases row <;> fin_cases column <;> rfl

theorem parts_of_inverse? (inverts : matrix.inverse? = some inverse) (row column : Fin 3) :
    inverse.parts row column =
      matrix.adjugate.parts row column * (1.0 / matrix.determinant) := by
  obtain ⟨-, rfl⟩ := inverse?_eq_some_iff.mp inverts
  fin_cases row <;> fin_cases column <;> rfl

theorem inverse?_eq_none_iff_number :
    matrix.inverse? = none ↔
      ∃ volume, numberOf? matrix.determinant = some volume ∧ |volume| < leastVolume :=
  inverse?_eq_none_iff.trans (abs_lt_iff_number numberOf?_leastVolume)

theorem allFinite_iff (inverts : matrix.inverse? = some inverse) :
    inverse.AllFinite ↔
      ∃ scale, numberOf? (1.0 / matrix.determinant) = some scale ∧ matrix.ScalesInside scale := by
  unfold AllFinite
  simp only [parts_of_inverse? inverts, isFinite_mul_iff]
  constructor
  · intro finite
    obtain ⟨-, scale, -, stands, -⟩ := finite 0 0
    refine ⟨scale, stands, fun row column => ?_⟩
    obtain ⟨cofactor, scale', found, stands', below⟩ := finite row column
    cases stands.symm.trans stands'
    exact ⟨cofactor, found, below⟩
  · rintro ⟨scale, stands, inside⟩ row column
    obtain ⟨cofactor, found, below⟩ := inside row column
    exact ⟨cofactor, scale, found, stands, below⟩

section Bounds

theorem within_cross {first second : Color Float32}
    (left : ∀ channel, Within (first.channels channel) places)
    (right : ∀ channel, Within (second.channels channel) places) (small : places + places ≤ 126)
    (channel : Fin 3) :
    Within ((cross first second).channels channel) (places + places + 1) := by
  have product (channel channel' : Fin 3) :=
    (left channel).mul (right channel') (by omega)
  have product' (channel channel' : Fin 3) :=
    (right channel).mul (left channel') (by omega)
  fin_cases channel
  · exact (product 1 2).sub (product' 1 2) (by omega)
  · exact (product 2 0).sub (product' 2 0) (by omega)
  · exact (product 0 1).sub (product' 0 1) (by omega)

theorem within_dot {weights color : Color Float32}
    (left : ∀ channel, Within (weights.channels channel) places)
    (right : ∀ channel, Within (color.channels channel) places')
    (small : places + places' ≤ 125) :
    Within (weights.dot color) (places + places' + 2) := by
  have product (channel : Fin 3) := (left channel).mul (right channel) (by omega)
  exact ((product 0).add (product 1) (by omega)).add ((product 2).mono (by omega)) (by omega)

theorem within_columns (within : ∀ row column, Within (matrix.parts row column) places)
    (row column : Fin 3) : Within (matrix.transpose.parts row column) places := by
  rw [parts_transpose]
  exact within column row

theorem within_adjugate (within : ∀ row column, Within (matrix.parts row column) places)
    (small : places + places ≤ 126) (row column : Fin 3) :
    Within (matrix.adjugate.parts row column) (places + places + 1) := by
  have columns := within_columns within
  fin_cases row
  · exact within_cross (columns 1) (columns 2) small column
  · exact within_cross (columns 2) (columns 0) small column
  · exact within_cross (columns 0) (columns 1) small column

theorem within_determinant (within : ∀ row column, Within (matrix.parts row column) places)
    (small : places + places + places ≤ 124) :
    Within matrix.determinant (places + (places + places + 1) + 2) := by
  have columns := within_columns within
  exact within_dot (columns 2) (within_cross (columns 0) (columns 1) (by omega)) (by omega)

/-- Cofactors that are divided by a volume past the guard grow at most `2 ^ 34` times. -/
theorem allFinite_of_within (within : ∀ row column, Within (matrix.parts row column) 41)
    (inverts : matrix.inverse? = some inverse) : inverse.AllFinite := by
  obtain ⟨volume, stands⟩ := (within_determinant within (by decide)).exists_number
  have large : leastVolume ≤ |volume| := by
    by_contra small
    have stopped := inverse?_eq_none_iff_number.mpr ⟨volume, stands, not_le.mp small⟩
    cases stopped.symm.trans inverts
  obtain ⟨scale, found, bound⟩ := numberOf?_reciprocal stands large
  have reciprocal : Within (1.0 / matrix.determinant) 34 := ⟨scale, found, bound⟩
  intro row column
  rw [parts_of_inverse? inverts]
  exact isFinite_iff.mpr
    ((within_adjugate within (by decide) row column).mul reciprocal (by decide)).exists_number

end Bounds

/-- A determinant that is no number leaves no entry that is one. -/
theorem isNaN_of_inverse? (inverts : matrix.inverse? = some inverse)
    (none : matrix.determinant.isNaN = true) (row column : Fin 3) :
    (inverse.parts row column).isNaN = true := by
  rw [parts_of_inverse? inverts]
  exact isNaN_mul_of_factor (isNaN_div_of_divisor none)

/-- An infinite determinant makes every entry vanish, or makes it no number. -/
theorem vanishes_of_inverse? (inverts : matrix.inverse? = some inverse)
    (endless : matrix.determinant.isInf = true) (row column : Fin 3) :
    ((matrix.adjugate.parts row column).isFinite = true →
      numberOf? (inverse.parts row column) = some 0) ∧
    ((matrix.adjugate.parts row column).isFinite = false →
      (inverse.parts row column).isNaN = true) := by
  rw [parts_of_inverse? inverts]
  exact mul_zero_cases (numberOf?_reciprocal_of_isInf endless)

/-- The guard stops a determinant exactly if it is a number closer to zero than the float next to
one part in `10 ^ 10`. So there is no inverse, or its entries are all finite, exactly if the guard
stops the determinant, or if the determinant has a reciprocal that is a number and no cofactor
overflows when it is multiplied by that. What passes without being a number leaves entries that are
no numbers, or zeros. As long as no entry is larger than `2 ^ 41`, the determinant is a number and
nothing overflows. -/
theorem inverse_finite_exactly (matrix : Matrix Float32) :
    (matrix.inverse? = none ↔
      ∃ volume, numberOf? matrix.determinant = some volume ∧ |volume| < leastVolume) ∧
    ((∀ inverse, matrix.inverse? = some inverse → inverse.AllFinite) ↔
      matrix.inverse? = none ∨
        ∃ scale, numberOf? (1.0 / matrix.determinant) = some scale ∧ matrix.ScalesInside scale) ∧
    (∀ inverse, matrix.inverse? = some inverse →
      (matrix.determinant.isNaN = true →
        ∀ row column, (inverse.parts row column).isNaN = true) ∧
      (matrix.determinant.isInf = true → ∀ row column,
        ((matrix.adjugate.parts row column).isFinite = true →
          numberOf? (inverse.parts row column) = some 0) ∧
        ((matrix.adjugate.parts row column).isFinite = false →
          (inverse.parts row column).isNaN = true))) ∧
    ((∀ row column, Within (matrix.parts row column) 41) →
      matrix.determinant.isFinite = true ∧
        ∀ inverse, matrix.inverse? = some inverse → inverse.AllFinite) := by
  refine ⟨inverse?_eq_none_iff_number, ⟨fun finite => ?_, ?_⟩,
    fun inverse inverts => ⟨isNaN_of_inverse? inverts, vanishes_of_inverse? inverts⟩,
    fun within => ⟨isFinite_iff.mpr (within_determinant within (by decide)).exists_number,
      fun inverse inverts => allFinite_of_within within inverts⟩⟩
  · cases found : matrix.inverse? with
    | none => exact .inl rfl
    | some inverse => exact .inr ((allFinite_iff found).mp (finite inverse found))
  · rintro (stopped | inside) inverse inverts
    · cases stopped.symm.trans inverts
    · exact (allFinite_iff inverts).mpr inside

theorem powers_of_two_inverted :
    ∃ matrix inverse : Matrix Float32, matrix = diagonal ⟨2.0, 4.0, 8.0⟩ ∧
      inverse = diagonal ⟨0.5, 0.25, 0.125⟩ ∧ matrix.inverse? = some inverse ∧
      (∀ row column, Within (matrix.parts row column) 41) ∧ inverse.AllFinite := by
  have within (row column : Fin 3) :
      Within ((diagonal ⟨2.0, 4.0, 8.0⟩ : Matrix Float32).parts row column) 41 := by
    refine .of_between numberOf?_zero numberOf?_mostLog ?_ ?_ (by norm_num) (by norm_num) <;>
      fin_cases row <;> fin_cases column <;> decide
  have inverts : (diagonal ⟨2.0, 4.0, 8.0⟩ : Matrix Float32).inverse? =
      some (diagonal ⟨0.5, 0.25, 0.125⟩) :=
    inverse?_eq_some_iff.mpr ⟨by decide +kernel, by decide +kernel⟩
  exact ⟨_, _, rfl, rfl, inverts, within,
    ((inverse_finite_exactly _).2.2.2 within).2 _ inverts⟩

/-- Nine equal entries have no inverse, but if their products overflow, the guard lets them pass. An
infinite volume passes as well. -/
theorem equal_entries_pass :
    (∃ matrix inverse : Matrix Float32,
      matrix = ⟨.splat 1e20, .splat 1e20, .splat 1e20⟩ ∧ matrix.AllFinite ∧
      matrix.inverse? = some inverse ∧ matrix.determinant.isNaN = true ∧
      ∀ row column, (inverse.parts row column).isNaN = true) ∧
    ∃ matrix inverse : Matrix Float32, matrix = diagonal ⟨1e20, 1e20, 1e20⟩ ∧ matrix.AllFinite ∧
      matrix.inverse? = some inverse ∧ matrix.determinant = Float32.inf ∧
      inverse.r.r.isNaN = true := by
  refine ⟨⟨_, _, rfl, ?_, inverse?_eq_some_iff.mpr ⟨?_, rfl⟩, ?_, ?_⟩,
    ⟨_, _, rfl, ?_, inverse?_eq_some_iff.mpr ⟨?_, rfl⟩, ?_, ?_⟩⟩
  all_goals decide +kernel

end Matrix

end HdrGain
