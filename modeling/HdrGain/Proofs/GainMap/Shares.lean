import HdrGain.GainMap
import HdrGain.Proofs.Scalar.Exact

namespace HdrGain

/-! # Shares of the cells

A filter weighs the four cells around a pixel. At an edge some of the four are one cell, and their
weights add up: what counts is the share of each cell of the map. Weights may be negative, shares
are not. -/

open Finset

namespace Axis

variable {size : Nat}

/-- The cell on one side of a coordinate. -/
def side {α : Type} (axis : Axis size α) (upper : Bool) : Fin size :=
  if upper then axis.upper else axis.lower

/-- Between two cells the influence is the part of the way from one to the other. Where both are
one cell, it is any number. -/
def IsPlaced (axis : Axis size Exact) : Prop :=
  axis.lower ≠ axis.upper → 0 ≤ axis.influence.value ∧ axis.influence.value ≤ 1

/-- The weights of the two sides, added up for each cell. -/
def share (axis : Axis size Exact) (lower upper : ℚ) (cell : Fin size) : ℚ :=
  (if axis.lower = cell then lower else 0) + (if axis.upper = cell then upper else 0)

theorem share_nonneg {axis : Axis size Exact} {lower upper : ℚ} (total : 0 ≤ lower + upper)
    (apart : axis.lower ≠ axis.upper → 0 ≤ lower ∧ 0 ≤ upper) (cell : Fin size) :
    0 ≤ axis.share lower upper cell := by
  unfold share
  by_cases same : axis.lower = axis.upper
  · rw [same]
    split
    · exact total
    · exact le_of_eq (add_zero 0).symm
  · obtain ⟨first, second⟩ := apart same
    apply add_nonneg
    · split
      · exact first
      · exact le_refl 0
    · split
      · exact second
      · exact le_refl 0

end Axis

namespace MapFilter

/-- What all weights of a filter sum to. -/
def total : MapFilter → ℚ
  | .legacy => 2
  | .bilinear => 1

/-- The weight of the cell on the given sides of a pixel, by the influence along either axis. -/
def weight (filter : MapFilter) (x y : ℚ) (right below : Bool) : ℚ :=
  match filter with
  | .legacy => ((if right then 1 - x else x) + (if below then 1 - y else y)) / 2
  | .bilinear => (if right then x else 1 - x) * (if below then y else 1 - y)

theorem sum_weight (filter : MapFilter) (x y : ℚ) :
    ∑ right, ∑ below, filter.weight x y right below = filter.total := by
  cases filter with
  | legacy =>
      simp only [Fintype.sum_bool, weight, total, if_true, Bool.false_eq_true, if_false]
      ring
  | bilinear =>
      simp only [Fintype.sum_bool, weight, total, if_true, Bool.false_eq_true, if_false]
      ring

/-- What both columns weigh together does not depend on where the pixel is between them. -/
theorem sum_weight_columns (filter : MapFilter) (x x' y : ℚ) (below : Bool) :
    ∑ right, filter.weight x y right below = ∑ right, filter.weight x' y right below := by
  cases filter with
  | legacy =>
      simp only [Fintype.sum_bool, weight, if_true, Bool.false_eq_true, if_false]
      ring
  | bilinear =>
      simp only [Fintype.sum_bool, weight, if_true, Bool.false_eq_true, if_false]
      ring

theorem sum_weight_rows (filter : MapFilter) (x y y' : ℚ) (right : Bool) :
    ∑ below, filter.weight x y right below = ∑ below, filter.weight x y' right below := by
  cases filter with
  | legacy =>
      simp only [Fintype.sum_bool, weight, if_true, Bool.false_eq_true, if_false]
      ring
  | bilinear =>
      simp only [Fintype.sum_bool, weight, if_true, Bool.false_eq_true, if_false]
      ring

variable {width height : Nat}

/-- The share of a cell: the weights of the sides of the pixel that it is on. -/
def coefficient (filter : MapFilter) (column : Axis width Exact) (row : Axis height Exact)
    (x : Fin width) (y : Fin height) : ℚ :=
  ∑ right, ∑ below,
    if column.side right = x ∧ row.side below = y then
      filter.weight column.influence.value row.influence.value right below
    else 0

variable {filter : MapFilter} {column : Axis width Exact} {row : Axis height Exact}

theorem sum_coefficient_mul (filter : MapFilter) (column : Axis width Exact)
    (row : Axis height Exact) (f : Fin width → Fin height → ℚ) :
    ∑ x, ∑ y, filter.coefficient column row x y * f x y =
      ∑ right, ∑ below,
        filter.weight column.influence.value row.influence.value right below *
          f (column.side right) (row.side below) := by
  simp only [coefficient, Fintype.sum_bool, add_mul, ite_mul, zero_mul, sum_add_distrib, ite_and,
    sum_ite_irrel, sum_const_zero, sum_ite_eq, mem_univ, if_true]
  ring

theorem sum_coefficient (filter : MapFilter) (column : Axis width Exact)
    (row : Axis height Exact) :
    ∑ x, ∑ y, filter.coefficient column row x y = filter.total := by
  have summed := filter.sum_coefficient_mul column row fun _ _ => 1
  simp only [mul_one] at summed
  rw [summed, sum_weight]

theorem coefficient_bilinear (x : Fin width) (y : Fin height) :
    bilinear.coefficient column row x y =
      column.share (1 - column.influence.value) column.influence.value x *
        row.share (1 - row.influence.value) row.influence.value y := by
  simp only [coefficient, Fintype.sum_bool, Axis.side, Axis.share, weight, if_true,
    Bool.false_eq_true, if_false, ite_and]
  split_ifs <;> ring

theorem coefficient_legacy (x : Fin width) (y : Fin height) :
    legacy.coefficient column row x y =
      (column.share column.influence.value (1 - column.influence.value) x * row.share 1 1 y +
        column.share 1 1 x * row.share row.influence.value (1 - row.influence.value) y) / 2 := by
  simp only [coefficient, Fintype.sum_bool, Axis.side, Axis.share, weight, if_true,
    Bool.false_eq_true, if_false, ite_and]
  split_ifs <;> ring

theorem coefficient_nonneg (filter : MapFilter) (across : column.IsPlaced) (down : row.IsPlaced)
    (x : Fin width) (y : Fin height) : 0 ≤ filter.coefficient column row x y := by
  have near {size : Nat} {axis : Axis size Exact} (placed : axis.IsPlaced) (cell : Fin size) :
      0 ≤ axis.share (1 - axis.influence.value) axis.influence.value cell := by
    refine Axis.share_nonneg (by linarith) (fun apart => ?_) cell
    obtain ⟨least, most⟩ := placed apart
    exact ⟨by linarith, least⟩
  have far {size : Nat} {axis : Axis size Exact} (placed : axis.IsPlaced) (cell : Fin size) :
      0 ≤ axis.share axis.influence.value (1 - axis.influence.value) cell := by
    refine Axis.share_nonneg (by linarith) (fun apart => ?_) cell
    obtain ⟨least, most⟩ := placed apart
    exact ⟨least, by linarith⟩
  have count {size : Nat} (axis : Axis size Exact) (cell : Fin size) : 0 ≤ axis.share 1 1 cell :=
    Axis.share_nonneg (by norm_num) (fun _ => ⟨zero_le_one, zero_le_one⟩) cell
  cases filter with
  | legacy =>
      rw [coefficient_legacy]
      have columns := mul_nonneg (far across x) (count row y)
      have rows := mul_nonneg (count column x) (far down y)
      linarith
  | bilinear =>
      rw [coefficient_bilinear]
      exact mul_nonneg (near across x) (near down y)

/-- Cells that are not around the pixel have no share. -/
theorem coefficient_ne_zero {x : Fin width} {y : Fin height}
    (shares : filter.coefficient column row x y ≠ 0) :
    ∃ right below, column.side right = x ∧ row.side below = y := by
  by_contra none
  push Not at none
  refine shares (sum_eq_zero fun right _ => sum_eq_zero fun below _ => if_neg ?_)
  rintro ⟨left, top⟩
  exact none right below left top

/-- More in the cells around a pixel makes no blend less. -/
theorem sum_coefficient_mono (filter : MapFilter) (across : column.IsPlaced) (down : row.IsPlaced)
    {f g : Fin width → Fin height → ℚ}
    (atMost : ∀ right below,
      f (column.side right) (row.side below) ≤ g (column.side right) (row.side below)) :
    ∑ x, ∑ y, filter.coefficient column row x y * f x y ≤
      ∑ x, ∑ y, filter.coefficient column row x y * g x y := by
  refine sum_le_sum fun x _ => sum_le_sum fun y _ => ?_
  by_cases shares : filter.coefficient column row x y = 0
  · rw [shares, zero_mul, zero_mul]
  · obtain ⟨right, below, rfl, rfl⟩ := coefficient_ne_zero shares
    exact mul_le_mul_of_nonneg_left (atMost right below)
      (coefficient_nonneg filter across down _ _)

theorem sum_coefficient_const (filter : MapFilter) (column : Axis width Exact)
    (row : Axis height Exact) (value : ℚ) :
    ∑ x, ∑ y, filter.coefficient column row x y * value = filter.total * value := by
  simp only [← sum_mul, sum_coefficient]

end MapFilter

namespace GainMap

variable (map : GainMap) (filter : MapFilter) (column : Axis map.width Exact)
  (row : Axis map.height Exact)

theorem value_blend :
    (filter.blend (map.neighbourhood column row)).value =
      ∑ right, ∑ below,
        filter.weight column.influence.value row.influence.value right below *
          (map.gain (column.side right) (row.side below) : Exact).value := by
  cases filter with
  | legacy =>
      simp only [MapFilter.blend, neighbourhood, Fintype.sum_bool, MapFilter.weight, Axis.side,
        Exact.value_add, Exact.value_sub, Exact.value_mul, Exact.value_div,
        Exact.value_ofScientific, if_true, Bool.false_eq_true, if_false]
      norm_num
      ring
  | bilinear =>
      simp only [MapFilter.blend, lerp, neighbourhood, Fintype.sum_bool, MapFilter.weight,
        Axis.side, Exact.value_add, Exact.value_sub, Exact.value_mul, if_true, Bool.false_eq_true,
        if_false]
      ring

theorem value_blend_eq_sum :
    (filter.blend (map.neighbourhood column row)).value =
      ∑ x, ∑ y, filter.coefficient column row x y * (map.gain x y : Exact).value := by
  rw [value_blend, MapFilter.sum_coefficient_mul]

/-- Columns are mixed first, then rows. -/
theorem value_blend_bilinear :
    (MapFilter.bilinear.blend (map.neighbourhood column row)).value =
      (1 - row.influence.value) *
          ((1 - column.influence.value) * (map.gain column.lower row.lower : Exact).value +
            column.influence.value * (map.gain column.upper row.lower : Exact).value) +
        row.influence.value *
          ((1 - column.influence.value) * (map.gain column.lower row.upper : Exact).value +
            column.influence.value * (map.gain column.upper row.upper : Exact).value) := by
  simp only [value_blend, Fintype.sum_bool, MapFilter.weight, Axis.side, if_true,
    Bool.false_eq_true, if_false]
  ring

variable {map filter column row}

/-- Where one cell is on both sides of a pixel, it does not matter how far the pixel is from it. -/
theorem value_blend_of_columns {column' : Axis map.width Exact} {cell : Fin map.width}
    (held : ∀ right, column.side right = cell) (held' : ∀ right, column'.side right = cell) :
    (filter.blend (map.neighbourhood column row)).value =
      (filter.blend (map.neighbourhood column' row)).value := by
  have collapsed {axis : Axis map.width Exact} (held : ∀ right, axis.side right = cell) :
      (filter.blend (map.neighbourhood axis row)).value =
        ∑ below, (∑ right, filter.weight axis.influence.value row.influence.value right below) *
          (map.gain cell (row.side below) : Exact).value := by
    rw [value_blend, sum_comm]
    simp only [held, sum_mul]
  rw [collapsed held, collapsed held']
  refine sum_congr rfl fun below _ => ?_
  rw [MapFilter.sum_weight_columns]

theorem value_blend_of_rows {row' : Axis map.height Exact} {cell : Fin map.height}
    (held : ∀ below, row.side below = cell) (held' : ∀ below, row'.side below = cell) :
    (filter.blend (map.neighbourhood column row)).value =
      (filter.blend (map.neighbourhood column row')).value := by
  have collapsed {axis : Axis map.height Exact} (held : ∀ below, axis.side below = cell) :
      (filter.blend (map.neighbourhood column axis)).value =
        ∑ right, (∑ below, filter.weight column.influence.value axis.influence.value right below) *
          (map.gain (column.side right) cell : Exact).value := by
    rw [value_blend]
    simp only [held, sum_mul]
  rw [collapsed held, collapsed held']
  refine sum_congr rfl fun right _ => ?_
  rw [MapFilter.sum_weight_rows]

end GainMap

end HdrGain
