import HdrGain.Proofs.Gain.Bytes
import HdrGain.Proofs.GainMap.Shares

namespace HdrGain

open Finset

namespace Axis

variable {size scale coordinate : Nat} {nonempty : 0 < size}

/-- Where a coordinate falls between the cells, in whole numbers. -/
def around (nonempty : 0 < size) (scale coordinate : Nat) : Axis size Exact where
  lower := nearestIndex nonempty (coordinate / scale)
  upper := nearestIndex nonempty (coordinate / scale + 1)
  influence := ⟨coordinate / scale - (nearestIndex nonempty (coordinate / scale)).val⟩

/-- The part of the way to the next cell. Past an edge there is none. -/
def fraction (size scale coordinate : Nat) : ℚ :=
  if size * scale ≤ coordinate then 0 else Int.fract (coordinate / scale : ℚ)

theorem cellsBefore_exact (word : coordinate < addressLimit) :
    cellsBefore Exact scale coordinate = coordinate / scale := by
  have whole : ⌊(coordinate / scale : ℚ)⌋₊ = coordinate / scale :=
    Rat.natFloor_natCast_div_natCast coordinate scale
  have below : coordinate / scale < addressLimit := (Nat.div_le_self _ _).trans_lt word
  rw [cellsBefore, Exact.truncate_eq, Exact.value_div, Exact.value_ofNat, Exact.value_ofNat, whole]
  exact Nat.min_eq_left (Nat.le_sub_one_of_lt below)

theorem locate_exact (word : coordinate < addressLimit) :
    (locate nonempty scale coordinate : Axis size Exact) = around nonempty scale coordinate := by
  simp only [locate, cellsBefore_exact word]
  rfl

/-- Only the last of all coordinates, at one cell for each pixel, has a cell after it that cannot
be numbered. -/
theorem cellsBefore_exact_lt_iff (positive : 0 < scale) (word : coordinate < addressLimit) :
    cellsBefore Exact scale coordinate + 1 < addressLimit ↔
      ¬ (scale = 1 ∧ coordinate = addressLimit - 1) := by
  rw [cellsBefore_exact word]
  rcases Nat.eq_or_lt_of_le (Nat.succ_le_of_lt positive) with rfl | several
  · rw [Nat.div_one]
    omega
  · have half : coordinate / scale ≤ coordinate / 2 := Nat.div_le_div_left several (by decide)
    simp only [addressLimit] at word ⊢
    omega

theorem side_around (upper : Bool) :
    (around nonempty scale coordinate).side upper =
      nearestIndex nonempty (coordinate / scale + upper.toNat) := by
  cases upper <;> rfl

/-- The way from one cell to another is the fraction; only a single cell has more influence. -/
theorem influence_around (positive : 0 < scale)
    (apart : (around nonempty scale coordinate).lower ≠ (around nonempty scale coordinate).upper) :
    (around nonempty scale coordinate).influence.value = fraction size scale coordinate := by
  have inside : coordinate / scale + 1 < size := by
    by_contra past
    refine apart (Fin.ext ?_)
    simp only [around, nearestIndex]
    omega
  have before : coordinate < size * scale := (Nat.div_lt_iff_lt_mul positive).mp (by omega)
  have whole : ⌊(coordinate / scale : ℚ)⌋ = (coordinate / scale : ℕ) :=
    Rat.floor_natCast_div_natCast coordinate scale
  rw [fraction, if_neg (by omega), Int.fract, whole]
  simp only [around, nearestIndex_of_lt nonempty (Nat.lt_of_succ_lt inside), Int.cast_natCast]

theorem fraction_mem (size scale coordinate : Nat) :
    0 ≤ fraction size scale coordinate ∧ fraction size scale coordinate ≤ 1 := by
  unfold fraction
  split
  · exact ⟨le_refl 0, zero_le_one⟩
  · exact ⟨Int.fract_nonneg _, (Int.fract_lt_one _).le⟩

theorem fraction_mul (positive : 0 < scale) (cell : Nat) :
    fraction size scale (cell * scale) = 0 := by
  have unit : (scale : ℚ) ≠ 0 := by exact_mod_cast positive.ne'
  unfold fraction
  split
  · rfl
  · rw [Nat.cast_mul, mul_div_cancel_right₀ _ unit, Int.fract_natCast]

theorem isPlaced_around (positive : 0 < scale) :
    (around nonempty scale coordinate).IsPlaced := by
  intro apart
  rw [influence_around positive apart]
  exact fraction_mem size scale coordinate

/-- Mixing the cells on both sides by the influence is mixing them by the fraction. -/
theorem mix_around (nonempty : 0 < size) (positive : 0 < scale) (coordinate : Nat)
    (f : Fin size → ℚ) :
    (1 - (around nonempty scale coordinate).influence.value) *
          f (around nonempty scale coordinate).lower +
        (around nonempty scale coordinate).influence.value *
          f (around nonempty scale coordinate).upper =
      (1 - fraction size scale coordinate) * f (nearestIndex nonempty (coordinate / scale)) +
        fraction size scale coordinate * f (nearestIndex nonempty (coordinate / scale + 1)) := by
  change _ = (1 - fraction size scale coordinate) * f (around nonempty scale coordinate).lower +
    fraction size scale coordinate * f (around nonempty scale coordinate).upper
  by_cases same : (around nonempty scale coordinate).lower =
      (around nonempty scale coordinate).upper
  · rw [same]
    ring
  · rw [influence_around positive same]

/-- From the last cell on, that cell is on both sides. -/
theorem side_around_of_le (positive : 0 < scale) (reached : (size - 1) * scale ≤ coordinate)
    (upper : Bool) :
    (around nonempty scale coordinate).side upper = nearestIndex nonempty (size - 1) := by
  have last : size - 1 ≤ coordinate / scale := (Nat.le_div_iff_mul_le positive).mpr reached
  rw [side_around]
  refine Fin.ext ?_
  simp only [nearestIndex]
  omega

end Axis

namespace GainMap

theorem width_pos (map : GainMap) : 0 < map.width :=
  map.valid.width_pos

theorem height_pos (map : GainMap) : 0 < map.height :=
  map.valid.height_pos

/-- The gain at a pixel, when nothing is rounded. -/
def blended (map : GainMap) (filter : MapFilter) (scale x y : Nat) : ℚ :=
  (map.interpolate filter scale x y : Exact).value

/-- The gain of the cell at a place, or of the one nearest to it. -/
def gainNear (map : GainMap) (x y : Nat) : ℚ :=
  (map.gain (nearestIndex map.width_pos x) (nearestIndex map.height_pos y) :
    Exact).value

/-- The mean of the four cells around a pixel under the products of the fractions. -/
def productMean (map : GainMap) (scale x y : Nat) : ℚ :=
  let across := Axis.fraction map.width scale x
  let down := Axis.fraction map.height scale y
  (1 - across) * (1 - down) * map.gainNear (x / scale) (y / scale)
    + across * (1 - down) * map.gainNear (x / scale + 1) (y / scale)
    + (1 - across) * down * map.gainNear (x / scale) (y / scale + 1)
    + across * down * map.gainNear (x / scale + 1) (y / scale + 1)

def leastNear (map : GainMap) (scale x y : Nat) : ℚ :=
  min (min (map.gainNear (x / scale) (y / scale)) (map.gainNear (x / scale + 1) (y / scale)))
    (min (map.gainNear (x / scale) (y / scale + 1)) (map.gainNear (x / scale + 1) (y / scale + 1)))

def greatestNear (map : GainMap) (scale x y : Nat) : ℚ :=
  max (max (map.gainNear (x / scale) (y / scale)) (map.gainNear (x / scale + 1) (y / scale)))
    (max (map.gainNear (x / scale) (y / scale + 1)) (map.gainNear (x / scale + 1) (y / scale + 1)))

/-- The share that a cell has in the gain at a pixel. -/
def shareAt (map : GainMap) (filter : MapFilter) (scale x y : Nat) (column : Fin map.width)
    (row : Fin map.height) : ℚ :=
  filter.coefficient (Axis.around map.width_pos scale x)
    (Axis.around map.height_pos scale y) column row

/-- Maps of one size, of which the second has at least the byte of the first in every cell. -/
structure AtMost (map brighter : GainMap) : Prop where
  width_eq : map.width = brighter.width
  height_eq : map.height = brighter.height
  cells : ∀ x y (column : x < map.width) (row : y < map.height),
    map.cell ⟨x, column⟩ ⟨y, row⟩ ≤ brighter.cell ⟨x, width_eq ▸ column⟩ ⟨y, height_eq ▸ row⟩

/-- A sampled gain blends the four cells around its pixel: it is within their range, as often as
the weights of the filter say, and it follows them. From the last cells on it is held. -/
structure BlendsNear (map : GainMap) (filter : MapFilter) (scale x y : Nat) : Prop where
  sampled : map.sample filter scale x y =
    if scale = 1 ∧ (x = addressLimit - 1 ∨ y = addressLimit - 1) then
      .error (.overflow .addition)
    else .ok (⟨map.blended filter scale x y⟩ : Exact)
  least_le : filter.total * map.leastNear scale x y ≤ map.blended filter scale x y
  le_greatest : map.blended filter scale x y ≤ filter.total * map.greatestNear scale x y
  monotone : ∀ brighter, map.AtMost brighter →
    map.blended filter scale x y ≤ brighter.blended filter scale x y
  uniform : ∀ byte, (∀ column row, map.cell column row = byte) →
    map.blended filter scale x y = filter.total * (Gain.ofByte byte : Exact).value
  columns_held : ∀ x' < addressLimit, (map.width - 1) * scale ≤ x → (map.width - 1) * scale ≤ x' →
    map.blended filter scale x y = map.blended filter scale x' y
  rows_held : ∀ y' < addressLimit, (map.height - 1) * scale ≤ y → (map.height - 1) * scale ≤ y' →
    map.blended filter scale x y = map.blended filter scale x y'

variable {map : GainMap} {filter : MapFilter} {scale x y : Nat}

theorem sample_exact (positive : 0 < scale) (column : x < addressLimit) (row : y < addressLimit) :
    map.sample filter scale x y =
      if scale = 1 ∧ (x = addressLimit - 1 ∨ y = addressLimit - 1) then
        .error (.overflow .addition)
      else .ok (⟨map.blended filter scale x y⟩ : Exact) :=
  sample_eq_ite (· = addressLimit - 1) (Axis.cellsBefore_exact_lt_iff positive column)
    (Axis.cellsBefore_exact_lt_iff positive row)

theorem blended_eq (column : x < addressLimit) (row : y < addressLimit) :
    map.blended filter scale x y =
      (filter.blend (map.neighbourhood (Axis.around map.width_pos scale x)
        (Axis.around map.height_pos scale y))).value := by
  rw [blended, interpolate, Axis.locate_exact column, Axis.locate_exact row]

theorem blended_eq_sum (column : x < addressLimit) (row : y < addressLimit) :
    map.blended filter scale x y =
      ∑ i, ∑ j, map.shareAt filter scale x y i j * (map.gain i j : Exact).value := by
  rw [blended_eq column row, value_blend_eq_sum]
  rfl

theorem gain_side (right below : Bool) :
    (map.gain ((Axis.around map.width_pos scale x).side right)
        ((Axis.around map.height_pos scale y).side below) : Exact).value =
      map.gainNear (x / scale + right.toNat) (y / scale + below.toNat) := by
  rw [Axis.side_around, Axis.side_around, gainNear]

theorem leastNear_le (map : GainMap) (scale x y : Nat) (right below : Bool) :
    map.leastNear scale x y ≤ map.gainNear (x / scale + right.toNat) (y / scale + below.toNat) := by
  cases right <;> cases below <;> simp [leastNear]

theorem le_greatestNear (map : GainMap) (scale x y : Nat) (right below : Bool) :
    map.gainNear (x / scale + right.toNat) (y / scale + below.toNat) ≤
      map.greatestNear scale x y := by
  cases right <;> cases below <;> simp [greatestNear]

section Bounds

variable (positive : 0 < scale) (column : x < addressLimit) (row : y < addressLimit)

include positive column row

theorem le_blended {least : ℚ} (atLeast : ∀ right below : Bool,
    least ≤ map.gainNear (x / scale + right.toNat) (y / scale + below.toNat)) :
    filter.total * least ≤ map.blended filter scale x y := by
  rw [blended_eq_sum column row, ← filter.sum_coefficient_const]
  refine filter.sum_coefficient_mono (Axis.isPlaced_around positive)
    (Axis.isPlaced_around positive) fun right below => ?_
  rw [gain_side]
  exact atLeast right below

theorem blended_le {greatest : ℚ} (atMost : ∀ right below : Bool,
    map.gainNear (x / scale + right.toNat) (y / scale + below.toNat) ≤ greatest) :
    map.blended filter scale x y ≤ filter.total * greatest := by
  rw [blended_eq_sum column row, ← filter.sum_coefficient_const]
  refine filter.sum_coefficient_mono (Axis.isPlaced_around positive)
    (Axis.isPlaced_around positive) fun right below => ?_
  rw [gain_side]
  exact atMost right below

theorem blended_mono {brighter : GainMap} (atMost : map.AtMost brighter) :
    map.blended filter scale x y ≤ brighter.blended filter scale x y := by
  obtain ⟨width, height, bytes, valid, covered⟩ := map
  obtain ⟨width', height', bytes', valid', covered'⟩ := brighter
  obtain ⟨same, same', cells⟩ := atMost
  cases same
  cases same'
  rw [blended_eq_sum column row, blended_eq_sum column row]
  refine filter.sum_coefficient_mono (Axis.isPlaced_around positive)
    (Axis.isPlaced_around positive) fun right below => ?_
  exact Gain.value_ofByte_le_iff.mpr (cells _ _ _ _)

theorem blended_of_uniform {byte : UInt8}
    (uniform : ∀ column row, map.cell column row = byte) :
    map.blended filter scale x y = filter.total * (Gain.ofByte byte : Exact).value := by
  have near (i j : Nat) : map.gainNear i j = (Gain.ofByte byte : Exact).value := by
    rw [gainNear, gain, uniform]
  exact le_antisymm
    (blended_le positive column row fun right below => (near _ _).le)
    (le_blended positive column row fun right below => (near _ _).ge)

theorem blended_of_columns {x' : Nat} (column' : x' < addressLimit)
    (reached : (map.width - 1) * scale ≤ x) (reached' : (map.width - 1) * scale ≤ x') :
    map.blended filter scale x y = map.blended filter scale x' y := by
  rw [blended_eq column row, blended_eq column' row]
  exact value_blend_of_columns (Axis.side_around_of_le positive reached)
    (Axis.side_around_of_le positive reached')

theorem blended_of_rows {y' : Nat} (row' : y' < addressLimit)
    (reached : (map.height - 1) * scale ≤ y) (reached' : (map.height - 1) * scale ≤ y') :
    map.blended filter scale x y = map.blended filter scale x y' := by
  rw [blended_eq column row, blended_eq column row']
  exact value_blend_of_rows (Axis.side_around_of_le positive reached)
    (Axis.side_around_of_le positive reached')

theorem blendsNear : map.BlendsNear filter scale x y where
  sampled := sample_exact positive column row
  least_le := le_blended positive column row (map.leastNear_le scale x y)
  le_greatest := blended_le positive column row (map.le_greatestNear scale x y)
  monotone _ atMost := blended_mono positive column row atMost
  uniform _ uniform := blended_of_uniform positive column row uniform
  columns_held _ column' reached reached' :=
    blended_of_columns positive column row column' reached reached'
  rows_held _ row' reached reached' := blended_of_rows positive column row row' reached reached'

theorem blended_bilinear : map.blended .bilinear scale x y = map.productMean scale x y := by
  have across (j : Fin map.height) := Axis.mix_around map.width_pos positive x
    fun i => (map.gain i j : Exact).value
  have down := Axis.mix_around map.height_pos positive y
    fun j => (1 - Axis.fraction map.width scale x) *
        (map.gain (nearestIndex map.width_pos (x / scale)) j : Exact).value +
      Axis.fraction map.width scale x *
        (map.gain (nearestIndex map.width_pos (x / scale + 1)) j : Exact).value
  rw [blended_eq column row, value_blend_bilinear, across, across]
  refine down.trans ?_
  simp only [productMean, gainNear]
  ring

/-- On a cell both fractions are zero, and the cell after it can be numbered. -/
theorem sample_on_cell {i : Fin map.width} {j : Fin map.height} (onColumn : x = i * scale)
    (onRow : y = j * scale) :
    map.sample .bilinear scale x y = .ok (Gain.ofByte (map.cell i j) : Exact) := by
  have numbered : ¬ (scale = 1 ∧ (x = addressLimit - 1 ∨ y = addressLimit - 1)) := by
    rintro ⟨rfl, far⟩
    have columns := i.isLt
    have rows := j.isLt
    have width_lt := map.valid.width_lt
    have height_lt := map.valid.height_lt
    omega
  have cell : map.gainNear i j = (Gain.ofByte (map.cell i j) : Exact).value := by
    rw [gainNear, nearestIndex_of_lt map.width_pos i.isLt,
      nearestIndex_of_lt map.height_pos j.isLt, gain]
  rw [sample_exact positive column row, if_neg numbered, blended_bilinear positive column row,
    productMean, onColumn, onRow, Axis.fraction_mul positive, Axis.fraction_mul positive,
    Nat.mul_div_cancel _ positive, Nat.mul_div_cancel _ positive, cell]
  simp only [sub_zero, one_mul, zero_mul, add_zero]

end Bounds

/-- At every pixel the bilinear filter gives the mean of the four cells around it under the
products of the fractions. The last of all coordinates is an exception: it has no cell after it
that could be numbered. -/
theorem bilinear_is_product_mean (map : GainMap) {scale : UInt64} (positive : 0 < scale)
    (x y : UInt64) :
    map.BlendsNear .bilinear scale.toNat x.toNat y.toNat ∧
      map.blended .bilinear scale.toNat x.toNat y.toNat =
        map.productMean scale.toNat x.toNat y.toNat ∧
      (-1 ≤ map.blended .bilinear scale.toNat x.toNat y.toNat ∧
        map.blended .bilinear scale.toNat x.toNat y.toNat ≤ 1) ∧
      ∀ column row, x.toNat = column.val * scale.toNat → y.toNat = row.val * scale.toNat →
        map.sample .bilinear scale.toNat x.toNat y.toNat =
          .ok (Gain.ofByte (map.cell column row) : Exact) := by
  have least : 0 < scale.toNat := UInt64.lt_iff_toNat_lt.mp positive
  have column : x.toNat < addressLimit := x.toNat_lt
  have row : y.toNat < addressLimit := y.toNat_lt
  have lower : MapFilter.bilinear.total * -1 ≤
      map.blended .bilinear scale.toNat x.toNat y.toNat := le_blended least column row
    fun right below => (Gain.value_ofByte_mem _).1
  have upper : map.blended .bilinear scale.toNat x.toNat y.toNat ≤
      MapFilter.bilinear.total * 1 := blended_le least column row
    fun right below => (Gain.value_ofByte_mem _).2
  rw [MapFilter.total, one_mul] at lower upper
  exact ⟨blendsNear least column row, blended_bilinear least column row, ⟨lower, upper⟩,
    fun i j onColumn onRow => sample_on_cell least column row onColumn onRow⟩

/-- Half way between two cells, and at the edge below them. -/
theorem half_way_below_edge :
    ∃ map, ofBytes 2 1 #[0, 255] = .ok map ∧ (0 : UInt64) < 2 ∧
      map.BlendsNear .bilinear 2 1 1 ∧ map.blended .bilinear 2 1 1 = map.productMean 2 1 1 ∧
      map.productMean 2 1 1 = 0 := by
  refine ⟨⟨2, 1, #[0, 255], by decide, by decide⟩, rfl, by decide, ?_⟩
  obtain ⟨blends, mean, _⟩ := bilinear_is_product_mean ⟨2, 1, #[0, 255], by decide, by decide⟩
    (by decide : (0 : UInt64) < 2) 1 1
  exact ⟨blends, mean, by decide +kernel⟩

/-- No word numbers the cell after the last of all columns. -/
theorem last_column_unblended :
    ∃ map, ofBytes 2 1 #[0, 255] = .ok map ∧
      map.sample .bilinear 1 18446744073709551615 0 =
        (.error (.overflow .addition) : Except Fault Exact) :=
  ⟨⟨2, 1, #[0, 255], by decide, by decide⟩, rfl, sample_exact (by decide) (by decide) (by decide)⟩

/-- With the legacy weights every cell has a share that is not negative, and all shares sum to 2. -/
theorem legacy_shares_sum_to_two (map : GainMap) {scale : UInt64} (positive : 0 < scale)
    (x y : UInt64) :
    map.BlendsNear .legacy scale.toNat x.toNat y.toNat ∧
      map.blended .legacy scale.toNat x.toNat y.toNat =
        ∑ column, ∑ row, map.shareAt .legacy scale.toNat x.toNat y.toNat column row *
          (map.gain column row : Exact).value ∧
      ∑ column, ∑ row, map.shareAt .legacy scale.toNat x.toNat y.toNat column row = 2 ∧
      ∀ column row, 0 ≤ map.shareAt .legacy scale.toNat x.toNat y.toNat column row ∧
        (map.shareAt .legacy scale.toNat x.toNat y.toNat column row ≠ 0 →
          (column.val = min (x.toNat / scale.toNat) (map.width - 1) ∨
            column.val = min (x.toNat / scale.toNat + 1) (map.width - 1)) ∧
          (row.val = min (y.toNat / scale.toNat) (map.height - 1) ∨
            row.val = min (y.toNat / scale.toNat + 1) (map.height - 1))) := by
  have least : 0 < scale.toNat := UInt64.lt_iff_toNat_lt.mp positive
  have column : x.toNat < addressLimit := x.toNat_lt
  have row : y.toNat < addressLimit := y.toNat_lt
  refine ⟨blendsNear least column row, blended_eq_sum column row,
    MapFilter.sum_coefficient _ _ _, fun i j => ⟨?_, fun shares => ?_⟩⟩
  · exact MapFilter.coefficient_nonneg _ (Axis.isPlaced_around least)
      (Axis.isPlaced_around least) i j
  · obtain ⟨right, below, rfl, rfl⟩ := MapFilter.coefficient_ne_zero shares
    constructor
    · cases right
      · exact .inl rfl
      · exact .inr rfl
    · cases below
      · exact .inl rfl
      · exact .inr rfl

/-- Past the edge the last cell weighs twice, however far the pixel is from it. -/
theorem past_edge_doubled :
    ∃ map, ofBytes 2 1 #[0, 255] = .ok map ∧ (0 : UInt64) < 2 ∧ map.BlendsNear .legacy 2 9 0 ∧
      map.blended .legacy 2 9 0 = 2 := by
  refine ⟨⟨2, 1, #[0, 255], by decide, by decide⟩, rfl, by decide, ?_⟩
  obtain ⟨blends, _⟩ := legacy_shares_sum_to_two ⟨2, 1, #[0, 255], by decide, by decide⟩
    (by decide : (0 : UInt64) < 2) 9 0
  exact ⟨blends, by decide +kernel⟩

/-- No word numbers the cell after the last of all rows. -/
theorem last_row_unblended :
    ∃ map, ofBytes 1 2 #[0, 255] = .ok map ∧
      map.sample .legacy 1 0 18446744073709551615 =
        (.error (.overflow .addition) : Except Fault Exact) :=
  ⟨⟨1, 2, #[0, 255], by decide, by decide⟩, rfl, sample_exact (by decide) (by decide) (by decide)⟩

end GainMap

end HdrGain
