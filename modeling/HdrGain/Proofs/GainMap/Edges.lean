import HdrGain.Proofs.Codec.Resolution
import HdrGain.Proofs.GainMap.Reach
import HdrGain.Proofs.GainMap.Shares
import HdrGain.Proofs.Scalar.Spacing

namespace HdrGain

/-! # Past the edges

Which cells are found for coordinates that lie far outside of a map. They are always cells of the
map, but a cell is numbered before it is brought back into the map, and the last coordinates of all
are rounded to the first number that no word holds. -/

open Rounding

namespace Axis

variable {size scale coordinate : Nat} {nonempty : 0 < size} {along unit quotient : ℚ}

theorem exists_measured_of_words (positive : 0 < scale) (scale_lt : scale < addressLimit)
    (word : coordinate < addressLimit) :
    ∃ along unit quotient, Measured scale coordinate along unit quotient := by
  have range : addressLimit ≤ 2 ^ 127 := by decide
  exact exists_measured positive (scale_lt.le.trans range) (word.le.trans range)

/-- At two or more pixels for each cell, half of all words stay free. -/
theorem cellsBefore_le_half (several : 2 ≤ scale) (scale_lt : scale < addressLimit)
    (word : coordinate < addressLimit) : cellsBefore Float32 scale coordinate ≤ 2 ^ 63 := by
  obtain ⟨along, unit, quotient, measured⟩ :=
    exists_measured_of_words (by omega) scale_lt word
  have along_le : along ≤ 2 ^ 64 := measured.along_rounds.natCast_le word.le
  have two_le : 2 ≤ unit := by
    have reached := measured.unit_rounds.le_of_ge 2 0 (by decide) (by decide) (by
      rw [zpow_zero, mul_one]
      exact_mod_cast several)
    rw [zpow_zero, mul_one] at reached
    exact_mod_cast reached
  have half : along / unit ≤ 2 ^ 63 := by
    rw [div_le_iff₀ (by linarith)]
    linarith
  rw [measured.cellsBefore_eq]
  exact (Nat.min_le_left _ _).trans
    (Nat.floor_le_of_le (by exact_mod_cast measured.quotient_le half))

/-- At one pixel for each cell, the last `2 ^ 39` coordinates are rounded to `2 ^ 64`. Those before
them stay a step of `2 ^ 40` below it. -/
theorem cellsBefore_one_lt_iff (word : coordinate < addressLimit) :
    cellsBefore Float32 1 coordinate + 1 < addressLimit ↔ coordinate < addressLimit - 2 ^ 39 := by
  obtain ⟨along, unit, quotient, measured⟩ :=
    exists_measured_of_words one_pos (by decide) word
  have limit : addressLimit = 2 ^ 64 := by rfl
  rw [limit] at word ⊢
  have whole : unit = 1 := by
    rw [measured.unit_rounds.natCast_eq (by decide), Nat.cast_one]
  have rounds := measured.quotient_rounds
  rw [whole, div_one] at rounds
  rw [measured.cellsBefore_eq]
  rcases Nat.lt_or_ge coordinate (2 ^ 64 - 2 ^ 39) with short | far
  · have shortCast : (coordinate : ℚ) < 2 ^ (40 + 24 : ℤ) - 2 ^ (40 : ℤ) / 2 := by
      norm_num
      exact_mod_cast short
    have below := measured.along_rounds.le_before (by decide) shortCast
    have quotient_le := rounds.le_of_le (2 ^ 24 - 1) 40 (by decide) (by decide) (by
      norm_num at below ⊢
      exact below)
    have floored : ⌊quotient⌋₊ ≤ 2 ^ 64 - 2 ^ 40 := by
      refine Nat.floor_le_of_le ?_
      norm_num at quotient_le ⊢
      exact quotient_le
    omega
  · have farCast : (2 ^ (40 + 24 : ℤ) - 2 ^ (40 : ℤ) / 2 : ℚ) ≤ coordinate := by
      norm_num
      exact_mod_cast far
    have upper : (coordinate : ℚ) < 2 ^ (40 + 24 : ℤ) := by
      norm_num
      exact_mod_cast word
    have reached := measured.along_rounds.reaches (by decide) farCast upper
    have quotient_ge := rounds.le_of_ge 1 64 (by decide) (by decide) (by
      norm_num at reached ⊢
      exact reached)
    have floored : 2 ^ 64 ≤ ⌊quotient⌋₊ := by
      refine Nat.le_floor ?_
      norm_num at quotient_ge ⊢
      exact quotient_ge
    omega

theorem cellsBefore_succ_lt_iff (positive : 0 < scale) (scale_lt : scale < addressLimit)
    (word : coordinate < addressLimit) :
    cellsBefore Float32 scale coordinate + 1 < addressLimit ↔
      ¬ (scale = 1 ∧ addressLimit - 2 ^ 39 ≤ coordinate) := by
  rcases Nat.eq_or_lt_of_le (Nat.succ_le_of_lt positive) with rfl | several
  · rw [cellsBefore_one_lt_iff word]
    omega
  · have half := cellsBefore_le_half several scale_lt word
    have limit : 2 ^ 63 + 1 < addressLimit := by decide
    omega

/-- Each of the three roundings takes at most one part in `2 ^ 24` off the quotient. -/
theorem Measured.le_quotient (measured : Measured scale coordinate along unit quotient)
    (nonempty : 0 < size) (positive : 0 < scale) (past : size * scale ≤ coordinate) :
    size * (1 - 3 / 2 ^ 24) ≤ quotient := by
  have size_ge : (1 : ℚ) ≤ size := by exact_mod_cast nonempty
  have scale_ge : (1 : ℚ) ≤ scale := by exact_mod_cast positive
  have product_ge : (1 : ℚ) ≤ size * scale := one_le_mul_of_one_le_of_one_le size_ge scale_ge
  have past : (size * scale : ℚ) ≤ coordinate := by exact_mod_cast past
  have along_ge := (measured.along_rounds.relative (by linarith)).1
  have unit_le := (measured.unit_rounds.relative (by linarith)).2
  have ratio_ge : size * (1 - 2 / 2 ^ 24) ≤ along / unit := by
    rw [le_div_iff₀ (one_pos.trans_le measured.one_le)]
    calc (size : ℚ) * (1 - 2 / 2 ^ 24) * unit
        ≤ (size : ℚ) * (1 - 2 / 2 ^ 24) * (scale * (1 + 1 / 2 ^ 24)) := by gcongr
      _ = (size * scale : ℚ) * ((1 - 2 / 2 ^ 24) * (1 + 1 / 2 ^ 24)) := by ring
      _ ≤ (size * scale : ℚ) * (1 - 1 / 2 ^ 24) := by gcongr; norm_num
      _ ≤ (coordinate : ℚ) * (1 - 1 / 2 ^ 24) := by gcongr
      _ ≤ along := along_ge
  have quotient_ge := (measured.quotient_rounds.relative (by linarith)).1
  calc (size : ℚ) * (1 - 3 / 2 ^ 24)
      ≤ (size : ℚ) * ((1 - 2 / 2 ^ 24) * (1 - 1 / 2 ^ 24)) := by gcongr; norm_num
    _ = (size : ℚ) * (1 - 2 / 2 ^ 24) * (1 - 1 / 2 ^ 24) := by ring
    _ ≤ along / unit * (1 - 1 / 2 ^ 24) := by gcongr
    _ ≤ quotient := quotient_ge

/-- Past the edge, the cell before a coordinate may lag behind the last one by as much as rounding
takes off the size of the map. -/
theorem lag_of_past (nonempty : 0 < size) (positive : 0 < scale) (scale_lt : scale < addressLimit)
    (word : coordinate < addressLimit) (past : size * scale ≤ coordinate) :
    (size - 1 - (locate nonempty scale coordinate : Axis size Float32).lower.val) * 2 ^ 24 <
      3 * size := by
  obtain ⟨along, unit, quotient, measured⟩ := exists_measured_of_words positive scale_lt word
  have quotient_ge := measured.le_quotient nonempty positive past
  have size_lt : size < 2 ^ 64 := ((Nat.le_mul_of_pos_right size positive).trans past).trans_lt word
  have lower : (locate nonempty scale coordinate : Axis size Float32).lower.val =
      min (min ⌊quotient⌋₊ (2 ^ 64 - 1)) (size - 1) := by
    rw [← measured.cellsBefore_eq]
    rfl
  rw [lower]
  rcases Nat.lt_or_ge ⌊quotient⌋₊ (size - 1) with before | reached
  · have unclamped : min (min ⌊quotient⌋₊ (2 ^ 64 - 1)) (size - 1) = ⌊quotient⌋₊ := by omega
    obtain ⟨gap, apart⟩ : ∃ gap, size - 1 - ⌊quotient⌋₊ = gap := ⟨_, rfl⟩
    have sizeCast : (size : ℚ) = ⌊quotient⌋₊ + 1 + gap := by
      have sizeEq : size = ⌊quotient⌋₊ + 1 + gap := by omega
      exact_mod_cast sizeEq
    have floored : quotient < ⌊quotient⌋₊ + 1 := Nat.lt_floor_add_one quotient
    have lag : (gap : ℚ) * 2 ^ 24 < 3 * size := by linarith
    rw [unclamped, apart]
    exact_mod_cast lag
  · have last : min (min ⌊quotient⌋₊ (2 ^ 64 - 1)) (size - 1) = size - 1 := by omega
    rw [last, Nat.sub_self, Nat.zero_mul]
    omega

/-- The cells on both sides of a coordinate are cells, in their order. Past the edge of a map that
is not too large, both are the last one. -/
structure StaysInside (axis : Axis size Float32) (scale coordinate : Nat) : Prop where
  lower_le_upper : axis.lower.val ≤ axis.upper.val
  upper_le : axis.upper.val ≤ size - 1
  lag_lt : size * scale ≤ coordinate → (size - 1 - axis.lower.val) * 2 ^ 24 < 3 * size
  held : size * scale ≤ coordinate → 3 * size ≤ 2 ^ 24 →
    axis.lower.val = size - 1 ∧ axis.upper.val = size - 1

theorem staysInside_locate (nonempty : 0 < size) (positive : 0 < scale)
    (scale_lt : scale < addressLimit) (word : coordinate < addressLimit) :
    (locate nonempty scale coordinate : Axis size Float32).StaysInside scale coordinate := by
  have ordered : (locate nonempty scale coordinate : Axis size Float32).lower.val ≤
      (locate nonempty scale coordinate : Axis size Float32).upper.val :=
    locate_lower_le_upper nonempty scale coordinate
  have inside := Nat.le_sub_one_of_lt
    (locate nonempty scale coordinate : Axis size Float32).upper.isLt
  refine ⟨ordered, inside, lag_of_past nonempty positive scale_lt word, fun past small => ?_⟩
  have lag := lag_of_past nonempty positive scale_lt word past
  omega

-- Past the edge of a larger map, the last cell but one may stand for both the pixel and the edge.
example : (locate (by decide) 1 (2 ^ 25 + 2) : Axis (2 ^ 25 + 2) Float32).lower.val = 2 ^ 25 := by
  decide +kernel

end Axis

namespace GainMap

variable {map : GainMap} {filter : MapFilter} {scale x y : Nat}

theorem sample_of_words (positive : 0 < scale) (scale_lt : scale < addressLimit)
    (column : x < addressLimit) (row : y < addressLimit) :
    map.sample filter scale x y =
      if scale = 1 ∧ (addressLimit - 2 ^ 39 ≤ x ∨ addressLimit - 2 ^ 39 ≤ y) then
        .error (.overflow .addition)
      else .ok (map.interpolate filter scale x y : Float32) :=
  sample_eq_ite (addressLimit - 2 ^ 39 ≤ ·) (Axis.cellsBefore_succ_lt_iff positive scale_lt column)
    (Axis.cellsBefore_succ_lt_iff positive scale_lt row)

/-- The blend of the cells on both sides of a pixel, where each read may be outside of the map. -/
def blendRead (map : GainMap) (filter : MapFilter) (column : Axis map.width Float32)
    (row : Axis map.height Float32) : Except Fault Float32 := do
  let lowerLower ← map.byte column.lower row.lower
  let lowerUpper ← map.byte column.lower row.upper
  let upperLower ← map.byte column.upper row.lower
  let upperUpper ← map.byte column.upper row.upper
  return filter.blend
    { lowerLower := Gain.ofByte lowerLower
      lowerUpper := Gain.ofByte lowerUpper
      upperLower := Gain.ofByte upperLower
      upperUpper := Gain.ofByte upperUpper
      xInfluence := column.influence
      yInfluence := row.influence }

theorem blendRead_eq (column : Axis map.width Float32) (row : Axis map.height Float32) :
    map.blendRead filter column row = .ok (filter.blend (map.neighbourhood column row)) := by
  simp only [blendRead, byte_eq_cell]
  rfl

/-- However far outside a pixel is, it is blended from cells of the map. Only at one pixel for each
cell, the last `2 ^ 39` coordinates have no gain: they are rounded to `2 ^ 64`, and no word numbers
the cell after that. -/
theorem faults_only_at_far_end (map : GainMap) {scale : UInt64} (positive : 0 < scale)
    (x y : UInt64) :
    (Axis.locate map.valid.width_pos scale.toNat x.toNat).StaysInside scale.toNat x.toNat ∧
      (Axis.locate map.valid.height_pos scale.toNat y.toNat).StaysInside scale.toNat y.toNat ∧
      ∀ filter,
        map.blendRead filter (Axis.locate map.valid.width_pos scale.toNat x.toNat)
            (Axis.locate map.valid.height_pos scale.toNat y.toNat) =
          .ok (map.interpolate filter scale.toNat x.toNat y.toNat) ∧
        map.sample filter scale.toNat x.toNat y.toNat =
          (if scale.toNat = 1 ∧
              (addressLimit - 2 ^ 39 ≤ x.toNat ∨ addressLimit - 2 ^ 39 ≤ y.toNat) then
            .error (.overflow .addition)
          else .ok (map.interpolate filter scale.toNat x.toNat y.toNat : Float32)) ∧
        ∀ (config : Config Float32) (codec : Codec Float32), Codec.ofConfig config = .ok codec →
          config.mapFilter = filter → config.mapScaleFactor = scale.toNat →
            codec.gainAt map x.toNat y.toNat =
              map.sample filter scale.toNat x.toNat y.toNat := by
  have least : 0 < scale.toNat := UInt64.lt_iff_toNat_lt.mp positive
  have scale_lt : scale.toNat < addressLimit := scale.toNat_lt
  have column : x.toNat < addressLimit := x.toNat_lt
  have row : y.toNat < addressLimit := y.toNat_lt
  refine ⟨Axis.staysInside_locate _ least scale_lt column,
    Axis.staysInside_locate _ least scale_lt row,
    fun filter => ⟨blendRead_eq _ _, sample_of_words least scale_lt column row, ?_⟩⟩
  intro config codec usable filters scales
  obtain ⟨rfl, _⟩ := Codec.config_of_ofConfig usable
  rw [Codec.gainAt, filters, scales]

/-- The last coordinate with a gain, at one pixel for each cell. -/
theorem last_gain_held :
    ∃ map, ofBytes 2 1 #[0, 255] = .ok map ∧ (0 : UInt64) < 1 ∧
      map.sample .bilinear 1 18446743523953737727 0 = (.ok 1.0 : Except Fault Float32) := by
  refine ⟨⟨2, 1, #[0, 255], by decide, by decide⟩, rfl, by decide, ?_⟩
  obtain ⟨_, _, gains⟩ := faults_only_at_far_end ⟨2, 1, #[0, 255], by decide, by decide⟩
    (by decide : (0 : UInt64) < 1) 18446743523953737727 0
  have sampled := (gains .bilinear).2.1
  have gain : (interpolate ⟨2, 1, #[0, 255], by decide, by decide⟩ .bilinear 1
      18446743523953737727 0 : Float32) = 1.0 := by
    decide +kernel
  rw [if_neg (by decide)] at sampled
  exact sampled.trans (congrArg Except.ok gain)

/-- The first coordinate without a gain, at one pixel for each cell. -/
theorem far_column_faults :
    ∃ map, ofBytes 2 1 #[0, 255] = .ok map ∧
      map.sample .bilinear 1 18446743523953737728 0 =
        (.error (.overflow .addition) : Except Fault Float32) :=
  ⟨⟨2, 1, #[0, 255], by decide, by decide⟩, rfl,
    sample_of_words (by decide) (by decide) (by decide) (by decide)⟩

end GainMap

end HdrGain
