import HdrGain.Gamut
import HdrGain.Proofs.Matrix.Algebra

namespace HdrGain

/-! # Colors by their tristimulus values

The matrix of a set of primaries is made so that equal channels give white. Without rounding it does
so exactly, and converting between two sets of primaries keeps the tristimulus values of every
color. From this alone conversions can be chained, lead back to where they started, and keep a white
that both sets share. -/

theorem Chromaticity.value_toXyz_g {point : Chromaticity Exact}
    (bright : 1 / 10 ^ 10 ≤ |point.y.value|) : point.toXyz.g.value = 1 := by
  have apart : ¬ Scalar.abs point.y < 1e-10 := mt Exact.abs_lt_threshold_iff.mp bright.not_gt
  rw [toXyz, if_neg apart, Exact.value_ofScientific]
  norm_num

namespace Primaries

/-- The tristimulus values of the primaries at luminance 1, in columns. -/
def columns {α : Type} [Scalar α] (primaries : Primaries α) : Matrix α :=
  .ofColumns primaries.red.toXyz primaries.green.toXyz primaries.blue.toXyz

variable {primaries source middle target : Primaries Exact} {inverse : Matrix Exact}

/-- Equal channels make the sum of the columns, each as large as its share. -/
theorem transform_one_toXyz (primaries : Primaries Exact) :
    primaries.toXyz.transform Color.one = primaries.columns.transform primaries.whiteShares := by
  have unit (part share : Exact) : part * share * 1.0 = part * share := by
    apply Exact.value_injective
    rw [Exact.value_mul, Exact.value_ofScientific]
    norm_num
  simp only [toXyz, columns, Matrix.transform, Matrix.ofColumns, Color.dot, Color.one, Color.splat,
    Color.mul_r, Color.mul_g, Color.mul_b, unit]

theorem toXyz_white (inverts : primaries.columns.inverse? = some inverse) :
    primaries.toXyz.transform Color.one = primaries.white.toXyz := by
  have shares : primaries.whiteShares = inverse.transform primaries.white.toXyz := by
    change (primaries.columns.inverse?.getD Matrix.identity).transform _ = _
    rw [inverts, Option.getD_some]
  rw [transform_one_toXyz, shares, ← Matrix.transform_mul, Matrix.mul_of_inverse? inverts,
    Matrix.transform_identity]

theorem ofXyz_eq (inverts : primaries.toXyz.inverse? = some inverse) :
    primaries.ofXyz = inverse := by
  rw [ofXyz, inverts, Option.getD_some]

theorem toXyz_mul_ofXyz (inverts : primaries.toXyz.inverse? = some inverse) :
    primaries.toXyz * primaries.ofXyz = Matrix.identity := by
  rw [ofXyz_eq inverts]
  exact Matrix.mul_of_inverse? inverts

theorem conversion_self (inverts : primaries.toXyz.inverse? = some inverse) :
    primaries.conversion primaries = Matrix.identity :=
  Matrix.mul_eq_identity_comm.mp (toXyz_mul_ofXyz inverts)

theorem toXyz_conversion (inverts : target.toXyz.inverse? = some inverse) :
    target.toXyz * source.conversion target = source.toXyz := by
  rw [conversion, ← Matrix.mul_regroup, toXyz_mul_ofXyz inverts, Matrix.identity_mul]

theorem conversion_mul (inverts : middle.toXyz.inverse? = some inverse) :
    middle.conversion target * source.conversion middle = source.conversion target := by
  rw [conversion, Matrix.mul_regroup, toXyz_conversion inverts]
  rfl

/-- A color goes to the color of the same tristimulus values, and no other. -/
theorem conversion_transform_eq (inverts : target.toXyz.inverse? = some inverse)
    {color image : Color Exact}
    (alike : target.toXyz.transform image = source.toXyz.transform color) :
    (source.conversion target).transform color = image := by
  rw [conversion, Matrix.transform_mul, ← alike, ofXyz_eq inverts]
  exact Matrix.transform_of_inverse? inverts image

theorem conversion_one (spans : source.columns.inverse? ≠ none)
    (spans' : target.columns.inverse? ≠ none) (inverts : target.toXyz.inverse? = some inverse)
    (shared : source.white = target.white) :
    (source.conversion target).transform Color.one = Color.one := by
  obtain ⟨_, found⟩ := Option.ne_none_iff_exists'.mp spans
  obtain ⟨_, found'⟩ := Option.ne_none_iff_exists'.mp spans'
  apply conversion_transform_eq inverts
  rw [toXyz_white found, toXyz_white found', shared]

/-- Equal channels are white, and every channel alone has the chromaticity of its primary.
Conversions keep the tristimulus values of every color; so they can be chained, and one that leads
back changes nothing. White stays white where it is shared. Each of these asks only for the
inverses it goes through. -/
theorem conversions_keep_tristimulus :
    (∀ primaries : Primaries Exact,
      (∃ shares : Color Exact, primaries.toXyz =
        .ofColumns (primaries.red.toXyz * shares.r) (primaries.green.toXyz * shares.g)
          (primaries.blue.toXyz * shares.b)) ∧
      (1 / 10 ^ 10 ≤ |primaries.columns.determinant.value| →
        primaries.toXyz.transform Color.one = primaries.white.toXyz ∧
        (1 / 10 ^ 10 ≤ |primaries.white.y.value| →
          (primaries.toXyz.transform Color.one).g.value = 1))) ∧
    (∀ primaries : Primaries Exact, primaries.toXyz.inverse? ≠ none →
      primaries.conversion primaries = Matrix.identity) ∧
    (∀ source middle target : Primaries Exact, middle.toXyz.inverse? ≠ none →
      middle.conversion target * source.conversion middle = source.conversion target) ∧
    ∀ source target : Primaries Exact, target.toXyz.inverse? ≠ none →
      (∀ color, target.toXyz.transform ((source.conversion target).transform color) =
        source.toXyz.transform color) ∧
      (source.columns.inverse? ≠ none → target.columns.inverse? ≠ none →
        source.white = target.white →
          (source.conversion target).transform Color.one = Color.one) := by
  refine ⟨fun primaries => ⟨⟨primaries.whiteShares, rfl⟩, fun spans => ?_⟩,
    fun primaries inverts => ?_, fun source middle target inverts => ?_,
    fun source target inverts => ⟨fun color => ?_, fun spans spans' shared => ?_⟩⟩
  · obtain ⟨_, found⟩ := Matrix.exists_inverse spans
    have white := toXyz_white found
    refine ⟨white, fun bright => ?_⟩
    rw [white]
    exact Chromaticity.value_toXyz_g bright
  · obtain ⟨_, found⟩ := Option.ne_none_iff_exists'.mp inverts
    exact conversion_self found
  · obtain ⟨_, found⟩ := Option.ne_none_iff_exists'.mp inverts
    exact conversion_mul found
  · obtain ⟨_, found⟩ := Option.ne_none_iff_exists'.mp inverts
    rw [← Matrix.transform_mul, toXyz_conversion found]
  · obtain ⟨_, found⟩ := Option.ne_none_iff_exists'.mp inverts
    exact conversion_one spans spans' found shared

theorem daylight_kept_on_the_way :
    (1 / 10 ^ 10 ≤ |(bt709 : Primaries Exact).columns.determinant.value| ∧
      1 / 10 ^ 10 ≤ |(bt709 : Primaries Exact).white.y.value| ∧
      ((bt709 : Primaries Exact).toXyz.transform Color.one).g.value = 1) ∧
    ((displayP3 : Primaries Exact).toXyz.inverse? ≠ none ∧
      displayP3.conversion displayP3 = (Matrix.identity : Matrix Exact) ∧
      (displayP3.conversion bt2100 * bt709.conversion displayP3 : Matrix Exact) =
        bt709.conversion bt2100) ∧
    (bt2100 : Primaries Exact).toXyz.inverse? ≠ none ∧
      (bt709.conversion bt2100).transform Color.one = (Color.one : Color Exact) := by
  have spans : 1 / 10 ^ 10 ≤ |(bt709 : Primaries Exact).columns.determinant.value| := by
    decide +kernel
  have bright : 1 / 10 ^ 10 ≤ |(bt709 : Primaries Exact).white.y.value| := by
    decide +kernel
  have inverts : (displayP3 : Primaries Exact).toXyz.inverse? ≠ none := by
    decide +kernel
  have inverts' : (bt2100 : Primaries Exact).toXyz.inverse? ≠ none := by
    decide +kernel
  obtain ⟨primaries, back, chained, kept⟩ := conversions_keep_tristimulus
  exact ⟨⟨spans, bright, ((primaries bt709).2 spans).2 bright⟩,
    ⟨inverts, back displayP3 inverts, chained bt709 displayP3 bt2100 inverts⟩, inverts',
    (kept bt709 bt2100 inverts').2 (by decide +kernel) (by decide +kernel) rfl⟩

end Primaries

end HdrGain
