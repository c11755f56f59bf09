import HdrGain.Gamut
import HdrGain.Proofs.Matrix.Bounds

namespace HdrGain.Chroma

/-! # Luma and chroma without rounding

All four conversions are linear, and what they keep is read off their matrices. The inverse for
BT.2100 is solved from the forward equations and undoes them exactly. The one for sRGB has rounded
coefficients of its own and is off by a little in every channel. In both forward matrices the shares
of luma add up to one, and the positive and the negative entries of a difference to a half each, so
that grey has no difference. -/

/-- The luma of the unit cube is within the unit range, and its differences are within a half. Grey
has the luma of its channels. -/
def SplitsLuma (matrix : Matrix Exact) : Prop :=
  matrix.lowest = ![0, -1 / 2, -1 / 2] ∧ matrix.highest = ![1, 1 / 2, 1 / 2]

instance (matrix : Matrix Exact) : Decidable (SplitsLuma matrix) :=
  inferInstanceAs (Decidable (_ ∧ _))

/-- Luma in the unit range, and both differences up to a half either way. -/
def InRange (color : Color Exact) : Prop :=
  (0 ≤ color.y.value ∧ color.y.value ≤ 1) ∧
    (-1 / 2 ≤ color.u.value ∧ color.u.value ≤ 1 / 2) ∧
    (-1 / 2 ≤ color.v.value ∧ color.v.value ≤ 1 / 2)

section Splitting

variable {matrix : Matrix Exact} (splits : SplitsLuma matrix)

include splits

theorem SplitsLuma.transform_splat (grey : Exact) :
    matrix.transform (Color.splat grey) = ⟨grey, 0.0, 0.0⟩ := by
  apply Color.values_injective
  funext row
  rw [Matrix.values_transform_splat, splits.1, splits.2]
  fin_cases row <;> norm_num [Color.values]

theorem SplitsLuma.inRange_transform {color : Color Exact} (inside : color.InUnitCube) :
    InRange (matrix.transform color) := by
  have range (row : Fin 3) := matrix.values_transform_mem row inside
  rw [splits.1, splits.2] at range
  exact ⟨range 0, range 1, range 2⟩

end Splitting

namespace Srgb

def forward : Matrix Exact :=
  ⟨Gamut.bt709Weights, blueWeights, redWeights⟩

def backward : Matrix Exact :=
  ⟨⟨1.0, 0.0, 1.402⟩, ⟨1.0, -0.34414, -0.71414⟩, ⟨1.0, 1.772, 0.0⟩⟩

theorem ofRgb_eq (color : Color Exact) : ofRgb color = forward.transform color := rfl

theorem toRgb_eq (color : Color Exact) : toRgb color = backward.transform color := by
  apply Color.values_injective
  funext channel
  fin_cases channel <;>
    norm_num [Color.values, toRgb, backward, Matrix.transform, Color.dot, Color.y, Color.u, Color.v]
  ring

theorem backward_forward_near : Matrix.Near (2 / 10 ^ 4) (backward * forward) .identity := by
  decide +kernel

theorem forward_backward_near : Matrix.Near (2 / 10 ^ 4) (forward * backward) .identity := by
  decide +kernel

theorem splitsLuma : SplitsLuma forward := by
  decide +kernel

end Srgb

namespace Bt2100

def forward : Matrix Exact :=
  let weights : Color Exact := Gamut.bt2100Weights
  ⟨weights, ⟨-weights.r / blueRange, -weights.g / blueRange, (1.0 - weights.b) / blueRange⟩,
    ⟨(1.0 - weights.r) / redRange, -weights.g / redRange, -weights.b / redRange⟩⟩

def backward : Matrix Exact :=
  ⟨⟨1.0, 0.0, redRange⟩, ⟨1.0, -greenForBlue, -greenForRed⟩, ⟨1.0, blueRange, 0.0⟩⟩

theorem ofRgb_eq (color : Color Exact) : ofRgb color = forward.transform color := by
  apply Color.values_injective
  funext channel
  fin_cases channel <;>
    norm_num [Color.values, ofRgb, forward, Matrix.transform, Color.dot, Gamut.bt2100Weights,
      blueRange, redRange] <;>
    ring

theorem toRgb_eq (color : Color Exact) : toRgb color = backward.transform color := by
  apply Color.values_injective
  funext channel
  fin_cases channel <;>
    norm_num [Color.values, toRgb, backward, Matrix.transform, Color.dot, Color.y, Color.u, Color.v]
  ring

theorem backward_mul_forward : backward * forward = Matrix.identity := by
  decide +kernel

theorem splitsLuma : SplitsLuma forward := by
  decide +kernel

theorem toRgb_ofRgb (color : Color Exact) : toRgb (ofRgb color) = color := by
  rw [ofRgb_eq, toRgb_eq, ← Matrix.transform_mul, backward_mul_forward, Matrix.transform_identity]

theorem ofRgb_toRgb (color : Color Exact) : ofRgb (toRgb color) = color := by
  rw [ofRgb_eq, toRgb_eq, ← Matrix.transform_mul,
    Matrix.mul_eq_identity_comm.mp backward_mul_forward, Matrix.transform_identity]

end Bt2100

/-- For BT.2100 each direction undoes the other. For sRGB each channel comes back up to two parts in
ten thousand of the largest one, whichever direction is first. Both take grey to luma alone, and the
unit cube into the range of luma and its differences. -/
theorem directions_lead_back :
    (∀ color : Color Exact,
      Bt2100.toRgb (Bt2100.ofRgb color) = color ∧ Bt2100.ofRgb (Bt2100.toRgb color) = color) ∧
    (∀ (color : Color Exact) (channel : Fin 3),
      |(Srgb.toRgb (Srgb.ofRgb color)).values channel - color.values channel| ≤
        2 / 10 ^ 4 * color.magnitude ∧
      |(Srgb.ofRgb (Srgb.toRgb color)).values channel - color.values channel| ≤
        2 / 10 ^ 4 * color.magnitude) ∧
    (∀ grey : Exact,
      Srgb.ofRgb (Color.splat grey) = ⟨grey, 0.0, 0.0⟩ ∧
      Bt2100.ofRgb (Color.splat grey) = ⟨grey, 0.0, 0.0⟩) ∧
    ∀ color : Color Exact, color.InUnitCube →
      InRange (Srgb.ofRgb color) ∧ InRange (Bt2100.ofRgb color) := by
  refine ⟨fun color => ⟨Bt2100.toRgb_ofRgb color, Bt2100.ofRgb_toRgb color⟩,
    fun color channel => ⟨?_, ?_⟩, fun grey => ⟨?_, ?_⟩, fun color inside => ⟨?_, ?_⟩⟩
  · have near := Srgb.backward_forward_near.abs_transform_transform_sub_le color channel
    rwa [Matrix.transform_identity, ← Srgb.ofRgb_eq, ← Srgb.toRgb_eq] at near
  · have near := Srgb.forward_backward_near.abs_transform_transform_sub_le color channel
    rwa [Matrix.transform_identity, ← Srgb.toRgb_eq, ← Srgb.ofRgb_eq] at near
  · exact Srgb.splitsLuma.transform_splat grey
  · rw [Bt2100.ofRgb_eq]
    exact Bt2100.splitsLuma.transform_splat grey
  · exact Srgb.splitsLuma.inRange_transform inside
  · rw [Bt2100.ofRgb_eq]
    exact Bt2100.splitsLuma.inRange_transform inside

/-- Blue is at the upper end of its difference. -/
theorem blue_in_range :
    (⟨0.0, 0.0, 1.0⟩ : Color Exact).InUnitCube ∧ InRange (Bt2100.ofRgb ⟨0.0, 0.0, 1.0⟩) ∧
      (Bt2100.ofRgb (⟨0.0, 0.0, 1.0⟩ : Color Exact)).u.value = 1 / 2 := by
  have inside : (⟨0.0, 0.0, 1.0⟩ : Color Exact).InUnitCube := by
    decide +kernel
  exact ⟨inside, (directions_lead_back.2.2.2 _ inside).2, by decide +kernel⟩

end HdrGain.Chroma
