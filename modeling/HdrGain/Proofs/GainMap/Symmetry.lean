import HdrGain.Proofs.GainMap.Interpolation
import HdrGain.Proofs.Image.Tiling

namespace HdrGain

open Finset

namespace Axis

variable {size factor : Nat} {nonempty : 0 < size}

theorem ofNat_mul_div_mul (positive : 0 < factor) (scale coordinate : Nat) :
    (Scalar.ofNat (factor * coordinate) / Scalar.ofNat (factor * scale) : Exact) =
      Scalar.ofNat coordinate / Scalar.ofNat scale := by
  have unit : (factor : ℚ) ≠ 0 := by exact_mod_cast positive.ne'
  have quotient : ((factor * coordinate : Nat) / (factor * scale : Nat) : ℚ) =
      coordinate / scale := by
    rw [Nat.cast_mul, Nat.cast_mul, mul_div_mul_left _ _ unit]
  exact congrArg Exact.mk quotient

theorem cellsBefore_mul_mul (positive : 0 < factor) (scale coordinate : Nat) :
    cellsBefore Exact (factor * scale) (factor * coordinate) =
      cellsBefore Exact scale coordinate := by
  rw [cellsBefore, ofNat_mul_div_mul positive, cellsBefore]

theorem locate_mul_mul (positive : 0 < factor) (scale coordinate : Nat) :
    (locate nonempty (factor * scale) (factor * coordinate) : Axis size Exact) =
      locate nonempty scale coordinate := by
  simp only [locate, cellsBefore_mul_mul positive, ofNat_mul_div_mul positive]

end Axis

/-- No filter prefers an axis. -/
theorem MapFilter.weight_swap (filter : MapFilter) (x y : ℚ) (right below : Bool) :
    filter.weight y x below right = filter.weight x y right below := by
  cases filter with
  | legacy => simp only [weight, add_comm]
  | bilinear => simp only [weight, mul_comm]

theorem ValidDimensions.swap {width height : Nat} (valid : ValidDimensions width height) :
    ValidDimensions height width := by
  unfold ValidDimensions at valid ⊢
  rwa [Nat.mul_comm height]

namespace GainMap

/-- The second map holds in its rows what the first one holds in its columns. -/
structure Transposes (map flipped : GainMap) : Prop where
  width_eq : flipped.width = map.height
  height_eq : flipped.height = map.width
  bytes : ∀ x y, x < map.width → y < map.height → flipped.byte y x = map.byte x y

/-- The map turned over its diagonal, column after column. -/
def transpose (map : GainMap) : GainMap where
  width := map.height
  height := map.width
  bytes := Array.ofFn fun index : Fin (map.width * map.height) =>
    map.cell ⟨index / map.height, Nat.div_lt_of_lt_mul (Nat.mul_comm map.width _ ▸ index.isLt)⟩
      ⟨index % map.height, Nat.mod_lt _ map.height_pos⟩
  valid := map.valid.swap
  covered := by rw [Array.size_ofFn, Nat.mul_comm]

variable {map flipped : GainMap} {filter : MapFilter} {scale scale' x y x' y' : Nat}

theorem transposes_transpose (map : GainMap) : map.Transposes map.transpose where
  width_eq := rfl
  height_eq := rfl
  bytes x y column row := by
    obtain ⟨rowOf, columnOf⟩ := rowPlace_divMod x row
    have held : map.transpose.cell ⟨y, row⟩ ⟨x, column⟩ = map.cell ⟨x, column⟩ ⟨y, row⟩ := by
      simp only [transpose, cell, position, Array.getElem_ofFn, rowOf, columnOf]
    rw [map.byte_eq_cell ⟨x, column⟩ ⟨y, row⟩, ← held]
    exact map.transpose.byte_eq_cell ⟨y, row⟩ ⟨x, column⟩

theorem Transposes.cell_eq (turned : map.Transposes flipped) (column : x < map.width)
    (row : y < map.height) :
    flipped.cell ⟨y, turned.width_eq ▸ row⟩ ⟨x, turned.height_eq ▸ column⟩ =
      map.cell ⟨x, column⟩ ⟨y, row⟩ := by
  have same := turned.bytes x y column row
  rw [map.byte_eq_cell ⟨x, column⟩ ⟨y, row⟩,
    flipped.byte_eq_cell ⟨y, turned.width_eq ▸ row⟩ ⟨x, turned.height_eq ▸ column⟩] at same
  exact Except.ok.inj same

theorem Transposes.blended_eq (turned : map.Transposes flipped) (filter : MapFilter)
    (scale x y : Nat) : flipped.blended filter scale y x = map.blended filter scale x y := by
  obtain ⟨width, height, bytes, valid, covered⟩ := flipped
  obtain rfl := turned.width_eq
  obtain rfl := turned.height_eq
  have gains (column : Fin map.width) (row : Fin map.height) :
      GainMap.gain ⟨map.height, map.width, bytes, valid, covered⟩ row column =
        (map.gain column row : Exact) :=
    congrArg Gain.ofByte (turned.cell_eq column.isLt row.isLt)
  rw [blended, blended, interpolate, interpolate, value_blend, value_blend, sum_comm]
  refine sum_congr rfl fun right _ => sum_congr rfl fun below _ => ?_
  rw [gains, filter.weight_swap]

/-- Samplings that number the same cells and blend the same gain have the same outcome. -/
theorem sample_eq_sample {α : Type} [Scalar α] {other : GainMap}
    (numbered : (Axis.cellsBefore α scale x + 1 < addressLimit ∧
        Axis.cellsBefore α scale y + 1 < addressLimit) ↔
      (Axis.cellsBefore α scale' x' + 1 < addressLimit ∧
        Axis.cellsBefore α scale' y' + 1 < addressLimit))
    (blends : (map.interpolate filter scale x y : α) = other.interpolate filter scale' x' y') :
    map.sample filter scale x y = (other.sample filter scale' x' y' : Except Fault α) := by
  by_cases inside : Axis.cellsBefore α scale x + 1 < addressLimit ∧
      Axis.cellsBefore α scale y + 1 < addressLimit
  · rw [sample_eq_ok_iff.mpr ⟨inside, rfl⟩, blends, sample_eq_ok_iff.mpr ⟨numbered.mp inside, rfl⟩]
  · rw [sample_eq_error inside, sample_eq_error (mt numbered.mpr inside)]

theorem Transposes.sample_eq (turned : map.Transposes flipped) (filter : MapFilter)
    (scale x y : Nat) :
    flipped.sample filter scale y x = (map.sample filter scale x y : Except Fault Exact) :=
  sample_eq_sample and_comm (congrArg Exact.mk (turned.blended_eq filter scale x y))

theorem sample_mul_mul {factor : Nat} (positive : 0 < factor) (map : GainMap) (filter : MapFilter)
    (scale x y : Nat) :
    map.sample filter (factor * scale) (factor * x) (factor * y) =
      (map.sample filter scale x y : Except Fault Exact) := by
  refine sample_eq_sample ?_ ?_
  · rw [Axis.cellsBefore_mul_mul positive, Axis.cellsBefore_mul_mul positive]
  · simp only [interpolate, Axis.locate_mul_mul positive]

/-- Turning the map over its diagonal together with the pixel changes nothing, and neither does
taking `factor` times the scale at `factor` times the coordinates. Every map can be turned over,
and only the last of all coordinates has no gain to be compared. -/
theorem sampled_alike_turned_or_enlarged (map : GainMap) (filter : MapFilter) {scale factor : UInt64}
    (positive : 0 < scale) (several : 0 < factor) (x y : UInt64) :
    map.Transposes map.transpose ∧
      (∀ flipped, map.Transposes flipped →
        flipped.sample filter scale.toNat y.toNat x.toNat =
          (map.sample filter scale.toNat x.toNat y.toNat : Except Fault Exact)) ∧
      map.sample filter (factor.toNat * scale.toNat) (factor.toNat * x.toNat)
          (factor.toNat * y.toNat) =
        (map.sample filter scale.toNat x.toNat y.toNat : Except Fault Exact) ∧
      map.sample filter scale.toNat x.toNat y.toNat =
        if scale = 1 ∧ (x.toNat = addressLimit - 1 ∨ y.toNat = addressLimit - 1) then
          .error (.overflow .addition)
        else .ok (⟨map.blended filter scale.toNat x.toNat y.toNat⟩ : Exact) := by
  have least : 0 < scale.toNat := UInt64.lt_iff_toNat_lt.mp positive
  have repeated : 0 < factor.toNat := UInt64.lt_iff_toNat_lt.mp several
  have single : scale = 1 ↔ scale.toNat = 1 := UInt64.toNat_inj.symm
  refine ⟨map.transposes_transpose, fun flipped turned => turned.sample_eq filter _ _ _,
    map.sample_mul_mul repeated filter _ _ _, ?_⟩
  rw [sample_exact least x.toNat_lt y.toNat_lt]
  simp only [single]

/-- Three cells in a column, and the same three in a row, half way between the second and the
third. -/
theorem column_turned_into_row :
    ∃ column row : GainMap, ofBytes 1 3 #[0, 51, 255] = .ok column ∧
      ofBytes 3 1 #[0, 51, 255, 7] = .ok row ∧ (0 : UInt64) < 2 ∧ (0 : UInt64) < 5 ∧
      row.sample .legacy 2 3 0 = (column.sample .legacy 2 0 3 : Except Fault Exact) ∧
      column.sample .legacy 10 0 15 = (column.sample .legacy 2 0 3 : Except Fault Exact) ∧
      column.sample .legacy 2 0 3 = .ok (⟨2 / 5⟩ : Exact) := by
  refine ⟨⟨1, 3, #[0, 51, 255], by decide, by decide⟩, ⟨3, 1, #[0, 51, 255, 7], by decide, by decide⟩,
    rfl, rfl, by decide, by decide, ?_⟩
  obtain ⟨_, turned, enlarged, sampled⟩ := sampled_alike_turned_or_enlarged
    ⟨1, 3, #[0, 51, 255], by decide, by decide⟩ .legacy (by decide : (0 : UInt64) < 2)
    (by decide : (0 : UInt64) < 5) 0 3
  refine ⟨turned _ ⟨rfl, rfl, fun x y first row => ?_⟩, enlarged, sampled.trans (by decide +kernel)⟩
  obtain rfl : x = 0 := Nat.lt_one_iff.mp first
  match y, row with
  | 0, _ | 1, _ | 2, _ => rfl

end GainMap

end HdrGain
