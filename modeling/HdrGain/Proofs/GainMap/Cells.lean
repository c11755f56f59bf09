import HdrGain.Proofs.GainMap.Reach
import HdrGain.Proofs.Scalar.Spacing
import HdrGain.Proofs.Scalar.Uniqueness

namespace HdrGain

open Rounding

namespace Axis

variable {size scale coordinate cell : Nat} {nonempty : 0 < size}

theorem exists_along (positive : 0 < scale) (scale_le : scale ≤ 2 ^ 24)
    (coordinate_le : coordinate ≤ 2 ^ 24) :
    ∃ quotient, numberOf? (Scalar.ofNat coordinate / Scalar.ofNat scale : Float32) = some quotient ∧
      RoundsTo (coordinate / scale) quotient ∧
        cellsBefore Float32 scale coordinate = min ⌊quotient⌋₊ (2 ^ 64 - 1) := by
  have word : 2 ^ 24 ≤ 2 ^ 127 := Nat.pow_le_pow_right (by decide) (by decide)
  obtain ⟨along, unit, quotient, measured⟩ :=
    exists_measured positive (scale_le.trans word) (coordinate_le.trans word)
  have rounds := measured.quotient_rounds
  rw [measured.along_rounds.natCast_eq coordinate_le, measured.unit_rounds.natCast_eq scale_le]
    at rounds
  exact ⟨quotient, measured.stands, rounds, measured.cellsBefore_eq⟩

theorem cellsBefore_eq_div (positive : 0 < scale) (scale_le : scale ≤ 2 ^ 24)
    (coordinate_le : coordinate ≤ 2 ^ 24) :
    cellsBefore Float32 scale coordinate = coordinate / scale := by
  obtain ⟨quotient, _, rounds, truncated⟩ := exists_along positive scale_le coordinate_le
  have word := (Nat.div_le_self coordinate scale).trans coordinate_le
  rw [truncated, rounds.floor_div positive coordinate_le scale_le]
  omega

/-- On a cell the influence is zero. At the first one this is a zero that was divided, at the others
the quotient is the float of the cell. -/
theorem influence_mul (positive : 0 < scale) (scale_le : scale ≤ 2 ^ 24)
    (coordinate_le : cell * scale ≤ 2 ^ 24) (inside : cell < size) :
    (locate nonempty scale (cell * scale) : Axis size Float32).influence = 0.0 := by
  have before : nearestIndex nonempty (cellsBefore Float32 scale (cell * scale)) =
      ⟨cell, inside⟩ := by
    rw [cellsBefore_eq_div positive scale_le coordinate_le, Nat.mul_div_cancel _ positive,
      nearestIndex_of_lt nonempty inside]
  simp only [locate, before]
  rcases Nat.eq_zero_or_pos cell with rfl | later
  · rw [Nat.zero_mul]
    have first : (Scalar.ofNat 0 / Scalar.ofNat scale : Float32) = 0.0 :=
      zero_div_of_pos (numberOf?_ofNat_of_le scale_le) (by exact_mod_cast positive)
    rw [first]
    rfl
  · have unit : (scale : ℚ) ≠ 0 := by exact_mod_cast positive.ne'
    have nonzero : (cell : ℚ) ≠ 0 := by exact_mod_cast later.ne'
    have cell_le : cell ≤ 2 ^ 24 := (Nat.le_mul_of_pos_right cell positive).trans coordinate_le
    obtain ⟨quotient, stands, rounds, _⟩ := exists_along positive scale_le coordinate_le
    rw [Nat.cast_mul, mul_div_cancel_right₀ _ unit] at rounds
    rw [rounds.natCast_eq cell_le] at stands
    rw [eq_of_numberOf? stands (numberOf?_ofNat_of_le cell_le) nonzero]
    exact sub_self_of_number (numberOf?_ofNat_of_le cell_le) nonzero

/-- The cells on both sides of a coordinate are the ones that whole division gives, and on a cell
the other one has no influence. -/
structure DividesWhole (axis : Axis size Float32) (scale coordinate : Nat) : Prop where
  lower_eq : axis.lower.val = min (coordinate / scale) (size - 1)
  upper_eq : axis.upper.val = min (coordinate / scale + 1) (size - 1)
  influence_eq : scale ∣ coordinate → coordinate / scale < size → axis.influence = 0.0

theorem dividesWhole_locate (nonempty : 0 < size) (positive : 0 < scale)
    (scale_le : scale ≤ 2 ^ 24) (coordinate_le : coordinate ≤ 2 ^ 24) :
    (locate nonempty scale coordinate : Axis size Float32).DividesWhole scale coordinate := by
  have before := cellsBefore_eq_div positive scale_le coordinate_le
  constructor
  case lower_eq => simp only [locate, before, nearestIndex]
  case upper_eq => simp only [locate, before, nearestIndex]
  case influence_eq =>
    rintro ⟨cell, rfl⟩ inside
    rw [Nat.mul_div_cancel_left _ positive] at inside
    rw [Nat.mul_comm] at coordinate_le ⊢
    exact influence_mul positive scale_le coordinate_le inside

end Axis

/-- Every level is at least half a level away from the middle. -/
theorem Gain.exists_number_ofByte (byte : UInt8) :
    ∃ number, numberOf? (Gain.ofByte byte : Float32) = some number ∧ number ≠ 0 := by
  have level_le : byte.toNat ≤ 255 := Nat.le_of_lt_succ byte.toNat_lt
  have level := numberOf?_ofNat_of_le (level_le.trans (by decide))
  have least : (0 : ℚ) ≤ byte.toNat := Nat.cast_nonneg _
  have most : (byte.toNat : ℚ) ≤ 255 := by exact_mod_cast level_le
  have inside : |(byte.toNat : ℚ) - 255 / 2| ≤ 2 ^ 7 := by
    rw [abs_le]
    constructor <;> linarith
  have away : 2 ^ (-1 : ℤ) ≤ |(byte.toNat : ℚ) - 255 / 2| := by
    rw [zpow_neg_one, le_abs]
    rcases Nat.lt_or_ge byte.toNat 128 with below | above
    · have below : (byte.toNat : ℚ) ≤ 127 := by exact_mod_cast Nat.le_of_lt_succ below
      exact .inr (by linarith)
    · have above : (128 : ℚ) ≤ byte.toNat := by exact_mod_cast above
      exact .inl (by linarith)
  obtain ⟨difference, apart, moved⟩ := numberOf?_sub level Gain.numberOf?_halfRange
    (inside.trans (two_pow_le_largest (by decide)))
  have apart_away : 2 ^ (-1 : ℤ) ≤ |difference| := moved.two_zpow_le_abs (-1) (by decide) away
  obtain ⟨_, number, stands, rounds⟩ := numberOf?_div_of_one_le apart
    (moved.abs_le_two_pow inside) Gain.numberOf?_halfRange (by norm_num) (by decide)
  have far : 2 ^ (-8 : ℤ) ≤ |difference / (255 / 2)| := by
    rw [abs_div, abs_of_pos (by norm_num : (0 : ℚ) < 255 / 2), le_div_iff₀ (by norm_num)]
    norm_num at apart_away ⊢
    linarith
  refine ⟨number, stands, ?_⟩
  rintro rfl
  have reached := rounds.two_zpow_le_abs (-8) (by decide) far
  rw [abs_zero] at reached
  exact absurd reached (by norm_num)

/-- Where nothing of it is mixed in, the second gain does not count. -/
theorem Gain.lerp_zero (byte byte' : UInt8) :
    lerp (Gain.ofByte byte : Float32) (Gain.ofByte byte') 0.0 = Gain.ofByte byte := by
  have zero : numberOf? (0.0 : Float32) = some 0 := by rfl
  obtain ⟨number, stands, nonzero⟩ := Gain.exists_number_ofByte byte
  obtain ⟨difference, apart⟩ :=
    ((Gain.within_ofByte byte').sub (Gain.within_ofByte byte) (by decide)).exists_number
  obtain ⟨product, vanishes, rounds⟩ := numberOf?_mul apart zero (by
    rw [mul_zero, abs_zero]
    positivity)
  rw [mul_zero] at rounds
  rw [rounds.eq_zero] at vanishes
  exact add_of_zero stands nonzero vanishes

namespace GainMap

variable {map : GainMap} {filter : MapFilter} {scale x y : Nat}

theorem sample_of_places (positive : 0 < scale) (scale_le : scale ≤ 2 ^ 24)
    (column : x ≤ 2 ^ 24) (row : y ≤ 2 ^ 24) :
    map.sample filter scale x y = .ok (map.interpolate filter scale x y : Float32) := by
  have limit : 2 ^ 24 + 1 < addressLimit := by decide
  have columns := (Nat.div_le_self x scale).trans column
  have rows := (Nat.div_le_self y scale).trans row
  refine sample_eq_ok_iff.mpr ⟨?_, rfl⟩
  rw [Axis.cellsBefore_eq_div positive scale_le column,
    Axis.cellsBefore_eq_div positive scale_le row]
  omega

theorem interpolate_on_cell (positive : 0 < scale) (scale_le : scale ≤ 2 ^ 24)
    (column : x ≤ 2 ^ 24) (row : y ≤ 2 ^ 24) (across : scale ∣ x) (down : scale ∣ y)
    (columnInside : x / scale < map.width) (rowInside : y / scale < map.height) :
    (map.interpolate .bilinear scale x y : Float32) =
      Gain.ofByte (map.cell ⟨x / scale, columnInside⟩ ⟨y / scale, rowInside⟩) := by
  have columns := Axis.dividesWhole_locate map.valid.width_pos positive scale_le column
  have rows := Axis.dividesWhole_locate map.valid.height_pos positive scale_le row
  have left : (Axis.locate map.valid.width_pos scale x : Axis map.width Float32).lower =
      ⟨x / scale, columnInside⟩ :=
    Fin.ext (columns.lower_eq.trans (Nat.min_eq_left (Nat.le_sub_one_of_lt columnInside)))
  have top : (Axis.locate map.valid.height_pos scale y : Axis map.height Float32).lower =
      ⟨y / scale, rowInside⟩ :=
    Fin.ext (rows.lower_eq.trans (Nat.min_eq_left (Nat.le_sub_one_of_lt rowInside)))
  simp only [interpolate, neighbourhood, MapFilter.blend, gain, left, top,
    columns.influence_eq across columnInside, rows.influence_eq down rowInside, Gain.lerp_zero]

/-- With coordinates and a scale of at most 24 places, rounding moves no pixel into another cell,
and a pixel on a cell has the gain of that cell. -/
theorem cells_by_whole_division (map : GainMap) {scale x y : Nat} (positive : 0 < scale)
    (scale_le : scale ≤ 2 ^ 24) (column : x ≤ 2 ^ 24) (row : y ≤ 2 ^ 24) :
    (Axis.locate map.valid.width_pos scale x : Axis map.width Float32).DividesWhole scale x ∧
      (Axis.locate map.valid.height_pos scale y : Axis map.height Float32).DividesWhole scale y ∧
      (∀ filter, map.sample filter scale x y =
        .ok (map.interpolate filter scale x y : Float32)) ∧
      (scale ∣ x → scale ∣ y → x / scale < map.width → y / scale < map.height →
        ∃ byte, map.byte (x / scale) (y / scale) = .ok byte ∧
          map.sample .bilinear scale x y = .ok (Gain.ofByte byte : Float32)) := by
  refine ⟨Axis.dividesWhole_locate _ positive scale_le column,
    Axis.dividesWhole_locate _ positive scale_le row,
    fun filter => sample_of_places positive scale_le column row,
    fun across down columnInside rowInside => ?_⟩
  refine ⟨_, map.byte_eq_cell ⟨x / scale, columnInside⟩ ⟨y / scale, rowInside⟩, ?_⟩
  rw [sample_of_places positive scale_le column row,
    interpolate_on_cell positive scale_le column row across down columnInside rowInside]

/-- The second cell of three, at the full precision of coordinates. -/
theorem second_of_three_cells :
    ∃ map, ofBytes 3 1 #[10, 200, 30] = .ok map ∧ 0 < 2 ^ 23 ∧ 2 ^ 23 ≤ 2 ^ 24 ∧ 0 ≤ 2 ^ 24 ∧
      map.sample .bilinear (2 ^ 23) (2 ^ 23) 0 = .ok (Gain.ofByte 200 : Float32) := by
  refine ⟨⟨3, 1, #[10, 200, 30], by decide, by decide⟩, rfl, by decide, by decide, by decide, ?_⟩
  obtain ⟨_, _, _, onCell⟩ := cells_by_whole_division
    ⟨3, 1, #[10, 200, 30], by decide, by decide⟩
    (by decide : 0 < 2 ^ 23) (by decide) (by decide : 2 ^ 23 ≤ 2 ^ 24) (by decide : 0 ≤ 2 ^ 24)
  obtain ⟨byte, read, sampled⟩ :=
    onCell (by decide) (by decide) (by decide) (by decide)
  cases read
  exact sampled

end GainMap

end HdrGain
