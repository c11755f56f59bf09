import HdrGain.GainMap
import HdrGain.Proofs.Scalar.Magnitude

namespace HdrGain

open Rounding

namespace Axis

variable {scale coordinate : Nat} {along unit quotient : ℚ}

/-- The numbers on the way to a cell: what the coordinate and the scale are rounded to, and what
their quotient is rounded to. -/
structure Measured (scale coordinate : Nat) (along unit quotient : ℚ) : Prop where
  along_rounds : RoundsTo coordinate along
  unit_rounds : RoundsTo scale unit
  quotient_rounds : RoundsTo (along / unit) quotient
  along_nonneg : 0 ≤ along
  one_le : 1 ≤ unit
  stands :
    numberOf? (Scalar.ofNat coordinate / Scalar.ofNat scale : Float32) = some quotient

theorem exists_measured (positive : 0 < scale) (scale_le : scale ≤ 2 ^ 127)
    (coordinate_le : coordinate ≤ 2 ^ 127) :
    ∃ along unit quotient, Measured scale coordinate along unit quotient := by
  obtain ⟨along, alongStands, alongRounds⟩ := numberOf?_ofNat coordinate_le
  obtain ⟨unit, unitStands, unitRounds⟩ := numberOf?_ofNat scale_le
  have along_nonneg : 0 ≤ along := alongRounds.nonneg (Nat.cast_nonneg _)
  have one_le : 1 ≤ unit := unitRounds.one_le (by exact_mod_cast positive)
  have representable : |along / unit| ≤ 2 ^ 127 := by
    rw [abs_of_nonneg (div_nonneg along_nonneg (zero_le_one.trans one_le))]
    exact (div_le_self along_nonneg one_le).trans (alongRounds.natCast_le coordinate_le)
  obtain ⟨quotient, stands, rounds⟩ := numberOf?_div alongStands unitStands
    (one_pos.trans_le one_le).ne' representable
  exact ⟨along, unit, quotient, alongRounds, unitRounds, rounds, along_nonneg, one_le, stands⟩

theorem Measured.cellsBefore_eq (measured : Measured scale coordinate along unit quotient) :
    cellsBefore Float32 scale coordinate = min ⌊quotient⌋₊ (2 ^ 64 - 1) :=
  truncate_eq measured.stands

theorem Measured.quotient_le (measured : Measured scale coordinate along unit quotient)
    {places : Nat} (bound : along / unit ≤ 2 ^ places) : quotient ≤ 2 ^ places :=
  (abs_le.mp (measured.quotient_rounds.abs_le_two_pow (by
    rw [abs_of_nonneg (div_nonneg measured.along_nonneg (zero_le_one.trans measured.one_le))]
    exact bound))).2

/-- Rounding takes no quotient past a power of two that bounds the coordinate. -/
theorem cellsBefore_le {places : Nat} (positive : 0 < scale) (scale_le : scale ≤ 2 ^ 127)
    (places_le : places ≤ 127) (inside : coordinate ≤ 2 ^ places) :
    cellsBefore Float32 scale coordinate ≤ 2 ^ places := by
  obtain ⟨along, unit, quotient, measured⟩ := exists_measured positive scale_le
    (inside.trans (Nat.pow_le_pow_right (by decide) places_le))
  have along_le := measured.along_rounds.natCast_le inside
  have below : quotient ≤ 2 ^ places :=
    measured.quotient_le ((div_le_self measured.along_nonneg measured.one_le).trans along_le)
  rw [measured.cellsBefore_eq]
  exact (Nat.min_le_left _ _).trans (Nat.floor_le_of_le (by exact_mod_cast below))

end Axis

/-- Every pixel below `2 ^ 63` has a gain. Its neighbours are clamped to the map, so the map may be
of any size. -/
theorem GainMap.exists_sample (map : GainMap) (filter : MapFilter) {scale x y : Nat}
    (positive : 0 < scale) (scale_le : scale ≤ 2 ^ 127) (column : x ≤ 2 ^ 63)
    (row : y ≤ 2 ^ 63) : ∃ gain : Float32, map.sample filter scale x y = .ok gain := by
  have columns := Axis.cellsBefore_le positive scale_le (by decide) column
  have rows := Axis.cellsBefore_le positive scale_le (by decide) row
  have limit : 2 ^ 63 + 1 < addressLimit := by decide
  exact ⟨map.interpolate filter scale x y,
    sample_eq_ok_iff.mpr ⟨⟨by omega, by omega⟩, rfl⟩⟩

end HdrGain

namespace HdrGain

open Rounding

theorem Gain.numberOf?_halfRange : numberOf? (Gain.halfRange : Float32) = some (255 / 2) := by
  have unpacked : (Gain.halfRange : Float32).toModel.unpack =
      .finite .positive 16711680 (-17) (by decide) := by rfl
  rw [numberOf?_of_unpack unpacked]
  norm_num [signed]

theorem Gain.within_ofByte (byte : UInt8) : Within (Gain.ofByte byte) 9 := by
  have level : Within (Scalar.ofNat byte.toNat) 8 :=
    .ofNat (Nat.le_of_lt byte.toNat_lt) (by decide)
  have centre : Within (Gain.halfRange : Float32) 8 :=
    ⟨255 / 2, Gain.numberOf?_halfRange, by norm_num⟩
  exact (level.sub centre (by decide)).div Gain.numberOf?_halfRange (by norm_num) (by decide)

theorem within_lerp {first second position : Float32} {places places' : ℕ}
    (within : Within first places) (within' : Within second places)
    (between : Within position places') (small : places + places' + 2 ≤ 127) :
    Within (lerp first second position) (places + places' + 2) := by
  have difference := within'.sub within (by omega)
  have product := difference.mul between (by omega)
  have first' : Within first (places + 1 + places') := within.mono (by omega)
  exact (first'.add product (by omega)).mono (by omega)

theorem Axis.within_influence {size scale coordinate places : ℕ} (nonempty : 0 < size)
    (positive : 0 < scale) (scale_le : scale ≤ 2 ^ 127) (size_le : size ≤ 2 ^ places)
    (inside : coordinate ≤ 2 ^ places) (small : places + 1 ≤ 127) :
    Within (Axis.locate nonempty scale coordinate : Axis size Float32).influence (places + 1) := by
  obtain ⟨unit, unitStands, _, _, one_le⟩ := numberOf?_ofNat_between scale_le (le_refl _)
  have along : Within (Scalar.ofNat coordinate / Scalar.ofNat scale) places :=
    (Within.ofNat inside (by omega)).div unitStands (one_le positive) (by omega)
  have lower : (nearestIndex nonempty (Axis.cellsBefore Float32 scale coordinate)).val ≤
      2 ^ places := (Nat.le_of_lt (Fin.isLt _)).trans size_le
  exact along.sub (.ofNat lower (by omega)) small

namespace MapFilter

variable {around : Neighbourhood Float32} {columns rows : ℕ}

theorem within_share {cell weight : Float32} (gain : Within cell 9) (weighs : Within weight 68) :
    Within (cell * weight / 2.0) 77 := by
  have unpacked : (2.0 : Float32).toModel.unpack =
      .finite .positive 8388608 (-22) (by decide) := by rfl
  exact (gain.mul weighs (by decide)).div (numberOf?_of_unpack unpacked) (by norm_num [signed])
    (by decide)

theorem within_blend (filter : MapFilter) (lowerLower : Within around.lowerLower 9)
    (lowerUpper : Within around.lowerUpper 9) (upperLower : Within around.upperLower 9)
    (upperUpper : Within around.upperUpper 9) (x : Within around.xInfluence columns)
    (y : Within around.yInfluence rows) (few : columns + rows ≤ 65) :
    Within (filter.blend around) 80 := by
  cases filter with
  | legacy =>
      have x : Within around.xInfluence 65 := x.mono (by omega)
      have y : Within around.yInfluence 65 := y.mono (by omega)
      have y' : Within around.yInfluence 66 := y.mono (by decide)
      have one : Within 1.0 65 := within_one.mono (by decide)
      have rest := one.sub x (by decide)
      have neither := x.add y (by decide)
      have below := (x.add one (by decide)).sub y' (by decide)
      have right := rest.add y' (by decide)
      have both := (rest.add (one.mono (by decide)) (by decide)).sub (y.mono (by decide))
        (by decide)
      have near := (within_share lowerLower (neither.mono (by decide))).add
        (within_share lowerUpper (below.mono (by decide))) (by decide)
      have wide := near.add ((within_share upperLower (right.mono (by decide))).mono (by decide))
        (by decide)
      exact wide.add ((within_share upperUpper both).mono (by decide)) (by decide)
  | bilinear =>
      have above := within_lerp lowerLower upperLower x (by omega)
      have below := within_lerp lowerUpper upperUpper x (by omega)
      exact (within_lerp above below y (by omega)).mono (by omega)

end MapFilter

/-- The gain at a pixel of a picture that can be counted is a number. -/
theorem GainMap.within_interpolate (map : GainMap) (filter : MapFilter)
    {scale x y columns rows : ℕ} (positive : 0 < scale) (scale_le : scale ≤ 2 ^ 127)
    (width_le : map.width ≤ 2 ^ columns) (height_le : map.height ≤ 2 ^ rows)
    (column : x ≤ 2 ^ columns) (row : y ≤ 2 ^ rows) (few : columns + rows ≤ 63) :
    Within (map.interpolate filter scale x y) 80 := by
  have across :=
    Axis.within_influence map.valid.width_pos positive scale_le width_le column (by omega)
  have down :=
    Axis.within_influence map.valid.height_pos positive scale_le height_le row (by omega)
  exact filter.within_blend (Gain.within_ofByte _) (Gain.within_ofByte _) (Gain.within_ofByte _)
    (Gain.within_ofByte _) across down (by omega)

end HdrGain
