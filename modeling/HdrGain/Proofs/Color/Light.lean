import HdrGain.Gamut
import HdrGain.Proofs.Scalar.Unrounded

namespace HdrGain

open Unrounded

namespace Unrounded

variable {light other : Unrounded} {factor weight : ℝ}

theorem shining_cases (shining : (0.0 : Unrounded) ≤ light) :
    (∃ number, 0 ≤ number ∧ light = real number) ∨ light = top := by
  rw [zero_eq] at shining
  cases light with
  | real number => exact .inl ⟨number, shining, rfl⟩
  | top => exact .inr rfl
  | bottom => exact shining.elim
  | nan => exact shining.elim

theorem top_mul_real (positive : 0 < factor) :
    top * real factor = top ∧ real factor * top = top :=
  ⟨if_pos positive, if_pos positive⟩

theorem mul_real_one (light : Unrounded) : light * real 1 = light := by
  cases light with
  | real number => rw [real_mul, mul_one]
  | top => exact (top_mul_real one_pos).1
  | bottom => exact ((if_neg (by norm_num)).trans (if_pos (by norm_num)) : toward (-1) = bottom)
  | nan => rfl

theorem shining_mul (shining : (0.0 : Unrounded) ≤ light) (positive : 0 < factor) :
    (0.0 : Unrounded) ≤ light * real factor ∧ (0.0 : Unrounded) ≤ real factor * light := by
  rw [zero_eq] at shining ⊢
  rcases shining_cases (zero_eq ▸ shining) with ⟨number, nonneg, rfl⟩ | rfl
  · exact ⟨mul_nonneg nonneg positive.le, mul_nonneg positive.le nonneg⟩
  · obtain ⟨right, left⟩ := top_mul_real positive
    rw [right, left]
    exact ⟨trivial, trivial⟩

theorem shining_add (shining : (0.0 : Unrounded) ≤ light) (also : (0.0 : Unrounded) ≤ other) :
    (0.0 : Unrounded) ≤ light + other := by
  rw [zero_eq]
  rcases shining_cases shining with ⟨first, firstNonneg, rfl⟩ | rfl <;>
    rcases shining_cases also with ⟨second, secondNonneg, rfl⟩ | rfl
  · exact add_nonneg firstNonneg secondNonneg
  all_goals exact trivial

theorem add_mul_real (shining : (0.0 : Unrounded) ≤ light) (also : (0.0 : Unrounded) ≤ other)
    (positive : 0 < factor) :
    (light + other) * real factor = light * real factor + other * real factor := by
  have endless := (top_mul_real positive).1
  rcases shining_cases shining with ⟨first, firstNonneg, rfl⟩ | rfl <;>
    rcases shining_cases also with ⟨second, secondNonneg, rfl⟩ | rfl
  · simp only [real_add, real_mul, add_mul]
  all_goals
    simp only [endless, real_mul]
    exact endless

theorem mul_mul_real (shining : (0.0 : Unrounded) ≤ light) (weighs : 0 < weight)
    (positive : 0 < factor) :
    real weight * (light * real factor) = real weight * light * real factor := by
  rcases shining_cases shining with ⟨number, nonneg, rfl⟩ | rfl
  · simp only [real_mul, mul_assoc]
  · rw [(top_mul_real positive).1, (top_mul_real weighs).2, (top_mul_real positive).1]

theorem mul_real_mul_real {first second : ℝ} (shining : (0.0 : Unrounded) ≤ light)
    (firstPositive : 0 < first) (secondPositive : 0 < second) :
    light * real first * real second = light * real (first * second) := by
  rcases shining_cases shining with ⟨number, nonneg, rfl⟩ | rfl
  · simp only [real_mul, mul_assoc]
  · rw [(top_mul_real firstPositive).1, (top_mul_real secondPositive).1,
      (top_mul_real (mul_pos firstPositive secondPositive)).1]

end Unrounded

namespace Color

variable {weights exact : Color ℝ} {color : Color Unrounded}

theorem dot_real (weights exact : Color ℝ) :
    (weights.map real).dot (exact.map real) =
      real (weights.r * exact.r + weights.g * exact.g + weights.b * exact.b) := rfl

def IsReal (color : Color Unrounded) : Prop :=
  ∃ exact : Color ℝ, color = exact.map real

def HasSunk (color : Color Unrounded) : Prop :=
  color.r.Sunk ∨ color.g.Sunk ∨ color.b.Sunk

/-- No channel is negative, nor no number. -/
def IsShining (color : Color Unrounded) : Prop :=
  (0.0 : Unrounded) ≤ color.r ∧ (0.0 : Unrounded) ≤ color.g ∧ (0.0 : Unrounded) ≤ color.b

/-- Every channel has a share. -/
def IsPositive (weights : Color ℝ) : Prop :=
  0 < weights.r ∧ 0 < weights.g ∧ 0 < weights.b

theorem isReal_or_hasSunk (r : color.r.Bounded) (g : color.g.Bounded) (b : color.b.Bounded) :
    color.IsReal ∨ color.HasSunk := by
  obtain ⟨red, green, blue⟩ := color
  rcases r with ⟨r, rfl⟩ | sunk
  · rcases g with ⟨g, rfl⟩ | sunk
    · rcases b with ⟨b, rfl⟩ | sunk
      · exact .inl ⟨⟨r, g, b⟩, rfl⟩
      · exact .inr (.inr (.inr sunk))
    · exact .inr (.inr (.inl sunk))
  · exact .inr (.inl sunk)

theorem dot_sunk (positive : weights.IsPositive) (sunk : color.HasSunk) :
    ((weights.map real).dot color).Sunk := by
  obtain ⟨red, green, blue⟩ := positive
  rcases sunk with r | g | b
  · exact (((r.mul red).2.add _).1.add _).1
  · exact (((g.mul green).2.add _).2.add _).1
  · exact ((b.mul blue).2.add _).2

theorem IsShining.mul_real (shining : color.IsShining) {factor : ℝ} (positive : 0 < factor) :
    (color * real factor).IsShining := by
  obtain ⟨r, g, b⟩ := shining
  exact ⟨(shining_mul r positive).1, (shining_mul g positive).1, (shining_mul b positive).1⟩

theorem mul_real_one (color : Color Unrounded) : color * real 1 = color := by
  obtain ⟨r, g, b⟩ := color
  change (⟨r * real 1, g * real 1, b * real 1⟩ : Color Unrounded) = ⟨r, g, b⟩
  rw [Unrounded.mul_real_one, Unrounded.mul_real_one, Unrounded.mul_real_one]

theorem mul_real_mul_real (shining : color.IsShining) {first second : ℝ}
    (firstPositive : 0 < first) (secondPositive : 0 < second) :
    color * real first * real second = color * real (first * second) := by
  obtain ⟨r, g, b⟩ := shining
  change color.map (· * real first * real second) = color.map (· * real (first * second))
  simp only [map, Unrounded.mul_real_mul_real r firstPositive secondPositive,
    Unrounded.mul_real_mul_real g firstPositive secondPositive,
    Unrounded.mul_real_mul_real b firstPositive secondPositive]

/-- Luminance is multiplied by what the channels are multiplied by. -/
theorem dot_mul (positive : weights.IsPositive) (shining : color.IsShining) {factor : ℝ}
    (multiplies : 0 < factor) :
    (weights.map real).dot (color.map (· * real factor)) =
      (weights.map real).dot color * real factor := by
  obtain ⟨red, green, blue⟩ := positive
  obtain ⟨r, g, b⟩ := shining
  have reds := (shining_mul r red).2
  have greens := (shining_mul g green).2
  have blues := (shining_mul b blue).2
  simp only [dot, map, mul_mul_real r red multiplies, mul_mul_real g green multiplies,
    mul_mul_real b blue multiplies]
  rw [add_mul_real (shining_add reds greens) blues multiplies, add_mul_real reds greens multiplies]

end Color

/-- The entries are numbers, each channel keeps a share of itself, and grey stays above black. -/
structure Matrix.Mixes (matrix : Matrix Unrounded) (exact : Matrix ℝ) : Prop where
  entries : matrix = ⟨exact.r.map real, exact.g.map real, exact.b.map real⟩
  own : 0 < exact.r.r ∧ 0 < exact.g.g ∧ 0 < exact.b.b
  grey : 0 < exact.r.r + exact.r.g + exact.r.b ∧ 0 < exact.g.r + exact.g.g + exact.g.b ∧
    0 < exact.b.r + exact.b.g + exact.b.b

namespace Matrix

variable {matrix : Matrix Unrounded} {exact : Matrix ℝ}

theorem Mixes.hasSunk_transform (mixes : matrix.Mixes exact) {color : Color Unrounded}
    (sunk : color.HasSunk) : (matrix.transform color).HasSunk := by
  obtain ⟨rfl, ⟨red, green, blue⟩, _⟩ := mixes
  rcases sunk with r | g | b
  · exact .inl (((r.mul red).2.add _).1.add _).1
  · exact .inr (.inl (((g.mul green).2.add _).2.add _).1)
  · exact .inr (.inr ((b.mul blue).2.add _).2)

end Matrix

namespace Gamut

theorem luminanceWeights?_positive {gamut : Gamut} {weights : Color Unrounded}
    (known : gamut.luminanceWeights? = some weights) :
    ∃ exact : Color ℝ, weights = exact.map real ∧ exact.IsPositive := by
  cases gamut <;> cases known <;>
    exact ⟨⟨_, _, _⟩, rfl, by norm_num, by norm_num, by norm_num⟩

/-- The shares of white add up to one. -/
theorem bt709Weights_dot_splat (light : ℝ) :
    Color.dot bt709Weights (Color.splat (real light)) = real light := by
  change real _ = real _
  congr 1
  norm_num
  ring

theorem conversion?_mixes {source target : Gamut} {convert : Color Unrounded → Color Unrounded}
    (known : conversion? source target = some convert) :
    convert = id ∨
      ∃ (matrix : Matrix Unrounded) (exact : Matrix ℝ), convert = matrix.transform ∧
        matrix.Mixes exact := by
  cases source <;> cases target <;> cases known <;> first
    | exact .inl rfl
    | exact .inr ⟨_, ⟨⟨_, _, _⟩, ⟨_, _, _⟩, ⟨_, _, _⟩⟩, rfl, rfl,
        ⟨by norm_num, by norm_num, by norm_num⟩, ⟨by norm_num, by norm_num, by norm_num⟩⟩

theorem hasSunk_convert {source target : Gamut} {convert : Color Unrounded → Color Unrounded}
    (known : conversion? source target = some convert) {color : Color Unrounded}
    (sunk : color.HasSunk) : (convert color).HasSunk := by
  rcases conversion?_mixes known with rfl | ⟨matrix, exact, rfl, mixes⟩
  · exact sunk
  · exact mixes.hasSunk_transform sunk

/-- The luminance of a converted color is a sum of its channels under shares that grey shines
by. -/
theorem luminance_convert {source target : Gamut} {convert : Color Unrounded → Color Unrounded}
    (known : conversion? source target = some convert) {weights : Color ℝ}
    (positive : weights.IsPositive) :
    ∃ shares : Color ℝ, 0 < shares.r + shares.g + shares.b ∧ ∀ exact : Color ℝ,
      (weights.map real).dot (convert (exact.map real)) =
        real (shares.r * exact.r + shares.g * exact.g + shares.b * exact.b) := by
  obtain ⟨red, green, blue⟩ := positive
  rcases conversion?_mixes known with rfl | ⟨matrix, rows, rfl, rfl, _, r, g, b⟩
  · exact ⟨weights, by positivity, fun exact => Color.dot_real weights exact⟩
  · refine ⟨⟨weights.r * rows.r.r + weights.g * rows.g.r + weights.b * rows.b.r,
      weights.r * rows.r.g + weights.g * rows.g.g + weights.b * rows.b.g,
      weights.r * rows.r.b + weights.g * rows.g.b + weights.b * rows.b.b⟩, ?_, fun exact => ?_⟩
    · have sum := add_pos (add_pos (mul_pos red r) (mul_pos green g)) (mul_pos blue b)
      linarith
    · change real _ = real _
      congr 1
      ring

end Gamut

end HdrGain
