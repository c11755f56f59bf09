import HdrGain.Image.Format

namespace HdrGain.Gain

variable {α : Type} [Scalar α]

def halfRange : α := 127.5

def toByte (gain : α) : UInt8 :=
  Scalar.toByte (gain * halfRange + halfRange)

def ofByte (byte : UInt8) : α :=
  (Scalar.ofNat byte.toNat - halfRange) / halfRange

/-- The ratio of two luminances, within `hdrRatio` of zero. Against no light at all it is 1. -/
def ratio (sdr hdr hdrRatio : α) : α :=
  let ratio := if sdr > 0.0 then hdr / sdr else 1.0
  let raised := if ratio < -hdrRatio then -hdrRatio else ratio
  if raised > hdrRatio then hdrRatio else raised

variable [Elementary α]

/-- The byte for two luminances, where `hdrRatio` has the logarithm `logRatio`. -/
def encodeLog (sdr hdr hdrRatio logRatio : α) : UInt8 :=
  toByte (Elementary.log2 (ratio sdr hdr hdrRatio) / logRatio)

def encode (sdr hdr hdrRatio : α) : UInt8 :=
  encodeLog sdr hdr hdrRatio (Elementary.log2 hdrRatio)

/-- Multiplies by the ratio that `gain` stands for, where 1 stands for the logarithm `logRatio`. -/
def applyLog (light gain logRatio : α) : α :=
  Elementary.exp2 (Elementary.log2 light + gain * logRatio)

/-- Multiplies linear light by `hdrRatio` to the power of `gain`. -/
def apply (light gain hdrRatio : α) : α :=
  applyLog light gain (Elementary.log2 hdrRatio)

def applyColor (color : Color α) (gain hdrRatio : α) : Color α :=
  let logRatio := Elementary.log2 hdrRatio
  color.map (applyLog · gain logRatio)

end HdrGain.Gain

namespace HdrGain

/-- From `first` at 0 to `second` at 1, along a line. -/
def lerp {α : Type} [Scalar α] (first second position : α) : α :=
  first + (second - first) * position

/-- The nearest of the positions of a sequence that is not empty. -/
def nearestIndex {size : Nat} (nonempty : 0 < size) (index : Nat) : Fin size :=
  ⟨min index (size - 1), by omega⟩

theorem nearestIndex_of_lt {index size : Nat} (nonempty : 0 < size) (inside : index < size) :
    nearestIndex nonempty index = ⟨index, inside⟩ :=
  Fin.ext (Nat.min_eq_left (Nat.le_sub_one_of_lt inside))

theorem nearestIndex_mono {lower upper size : Nat} (nonempty : 0 < size)
    (ordered : lower ≤ upper) : nearestIndex nonempty lower ≤ nearestIndex nonempty upper := by
  simp only [nearestIndex, Fin.mk_le_mk]
  omega

/-- A grid of gains, a byte for each cell row by row. The buffer may be longer than the grid. -/
structure GainMap where
  width : Nat
  height : Nat
  bytes : Array UInt8
  valid : ValidDimensions width height
  covered : width * height ≤ bytes.size

namespace GainMap

def ofBytes (width height : Nat) (bytes : Array UInt8) : Except LayoutError GainMap :=
  if valid : ValidDimensions width height then
    if covered : width * height ≤ bytes.size then
      .ok ⟨width, height, bytes, valid, covered⟩
    else .error (.bufferTooSmall .gainMap (width * height) bytes.size)
  else .error (.invalidDimensions width height)

def position (map : GainMap) (x y : Nat) : Nat :=
  x + y * map.width

/-- The byte at `(x, y)`. Like a picture, a map fails only past the end of its buffer. -/
def byte (map : GainMap) (x y : Nat) : Except Fault UInt8 :=
  match Address.inRows map.width x y with
  | .error fault => .error fault
  | .ok position =>
      match map.bytes[position]? with
      | some byte => .ok byte
      | none => .error (.outOfRange map.bytes.size position)

theorem position_lt (map : GainMap) {x y : Nat} (column : x < map.width) (row : y < map.height) :
    map.position x y < map.width * map.height := by
  have rows : (y + 1) * map.width ≤ map.height * map.width := Nat.mul_le_mul_right _ row
  rw [Nat.add_mul, Nat.one_mul, Nat.mul_comm map.height] at rows
  unfold position
  omega

def cell (map : GainMap) (x : Fin map.width) (y : Fin map.height) : UInt8 :=
  have inside : map.position x y < map.bytes.size :=
    Nat.lt_of_lt_of_le (map.position_lt x.isLt y.isLt) map.covered
  map.bytes[map.position x y]

theorem byte_eq_cell (map : GainMap) (x : Fin map.width) (y : Fin map.height) :
    map.byte x y = .ok (map.cell x y) := by
  have inside := map.position_lt x.isLt y.isLt
  have located : Address.inRows map.width x y = .ok (map.position x y) :=
    Address.inRows_eq_ok_iff.mpr ⟨rfl, Nat.lt_trans inside map.valid.2⟩
  simp only [byte, located, cell,
    Array.getElem?_eq_getElem (Nat.lt_of_lt_of_le inside map.covered)]

end GainMap

/-- Where a coordinate falls between the cells along one axis. -/
structure Axis (size : Nat) (α : Type) where
  lower : Fin size
  upper : Fin size
  influence : α

namespace Axis

variable {size : Nat} {α : Type} [Scalar α]

def cellsBefore (α : Type) [Scalar α] (scale coordinate : Nat) : Nat :=
  Scalar.truncate (Scalar.ofNat coordinate / Scalar.ofNat scale : α)

def locate (nonempty : 0 < size) (scale coordinate : Nat) : Axis size α :=
  let along : α := Scalar.ofNat coordinate / Scalar.ofNat scale
  let before := cellsBefore α scale coordinate
  let lower := nearestIndex nonempty before
  { lower
    upper := nearestIndex nonempty (before + 1)
    influence := along - Scalar.ofNat lower }

theorem locate_lower_le_upper (nonempty : 0 < size) (scale coordinate : Nat) :
    (locate nonempty scale coordinate : Axis size α).lower ≤
      (locate nonempty scale coordinate : Axis size α).upper :=
  nearestIndex_mono nonempty (Nat.le_succ _)

end Axis

/-- The gains of the cells around a coordinate, the column named first, and how far the coordinate
is past the lower ones. -/
structure Neighbourhood (α : Type) where
  lowerLower : α
  lowerUpper : α
  upperLower : α
  upperUpper : α
  xInfluence : α
  yInfluence : α

inductive MapFilter where
  /-- Weights that sum to 2, with the near cell weighing least. -/
  | legacy
  /-- Weights that sum to 1, with the near cell weighing most. -/
  | bilinear
deriving DecidableEq, Repr

namespace MapFilter

instance : Inhabited MapFilter := ⟨.legacy⟩

def name : MapFilter → String
  | .legacy => "Legacy"
  | .bilinear => "Bilinear"

variable {α : Type} [Scalar α]

def blend (filter : MapFilter) (around : Neighbourhood α) : α :=
  let x := around.xInfluence
  let y := around.yInfluence
  match filter with
  | .legacy =>
      around.lowerLower * (x + y) / 2.0
        + around.lowerUpper * (x + 1.0 - y) / 2.0
        + around.upperLower * (1.0 - x + y) / 2.0
        + around.upperUpper * (1.0 - x + 1.0 - y) / 2.0
  | .bilinear =>
      lerp (lerp around.lowerLower around.upperLower x)
        (lerp around.lowerUpper around.upperUpper x) y

end MapFilter

namespace GainMap

variable {α : Type} [Scalar α]

def gain (map : GainMap) (x : Fin map.width) (y : Fin map.height) : α :=
  Gain.ofByte (map.cell x y)

def neighbourhood (map : GainMap) (column : Axis map.width α) (row : Axis map.height α) :
    Neighbourhood α where
  lowerLower := map.gain column.lower row.lower
  lowerUpper := map.gain column.lower row.upper
  upperLower := map.gain column.upper row.lower
  upperUpper := map.gain column.upper row.upper
  xInfluence := column.influence
  yInfluence := row.influence

/-- The gain at the pixel `(x, y)` of an image `scale` times as large as the map. -/
def interpolate (map : GainMap) (filter : MapFilter) (scale x y : Nat) : α :=
  filter.blend
    (map.neighbourhood (Axis.locate map.valid.width_pos scale x)
      (Axis.locate map.valid.height_pos scale y))

/-- `interpolate`, where the cells after the pixel can be numbered. -/
def sample (map : GainMap) (filter : MapFilter) (scale x y : Nat) : Except Fault α := do
  let _ ← Address.add (Axis.cellsBefore α scale x) 1
  let _ ← Address.add (Axis.cellsBefore α scale y) 1
  return map.interpolate filter scale x y

theorem sample_eq_ok_iff {map : GainMap} {filter : MapFilter} {scale x y : Nat} {found : α} :
    map.sample filter scale x y = .ok found ↔
      (Axis.cellsBefore α scale x + 1 < addressLimit ∧
        Axis.cellsBefore α scale y + 1 < addressLimit) ∧
          map.interpolate filter scale x y = found := by
  simp only [sample, Address.bind_eq_ok_iff, Address.add_eq_ok_iff, pure, Except.pure,
    Except.ok.injEq]
  constructor
  · intro sampled
    obtain ⟨_, ⟨_, columns⟩, _, ⟨_, rows⟩, rfl⟩ := sampled
    exact ⟨⟨columns, rows⟩, rfl⟩
  · intro bounded
    obtain ⟨⟨columns, rows⟩, rfl⟩ := bounded
    exact ⟨_, ⟨rfl, columns⟩, _, ⟨rfl, rows⟩, rfl⟩

theorem sample_eq_error {map : GainMap} {filter : MapFilter} {scale x y : Nat}
    (full : ¬ (Axis.cellsBefore α scale x + 1 < addressLimit ∧
      Axis.cellsBefore α scale y + 1 < addressLimit)) :
    map.sample filter scale x y = (.error (.overflow .addition) : Except Fault α) := by
  by_cases columns : Axis.cellsBefore α scale x + 1 < addressLimit
  · have rows : ¬ Axis.cellsBefore α scale y + 1 < addressLimit := fun rows => full ⟨columns, rows⟩
    simp only [sample, Address.add, Address.checked, if_pos columns, if_neg rows]
    rfl
  · simp only [sample, Address.add, Address.checked, if_neg columns]
    rfl

/-- Where only `far` coordinates at one pixel for each cell have no cell after them. -/
theorem sample_eq_ite {map : GainMap} {filter : MapFilter} {scale x y : Nat} (far : Nat → Prop)
    [DecidablePred far]
    (columns : Axis.cellsBefore α scale x + 1 < addressLimit ↔ ¬ (scale = 1 ∧ far x))
    (rows : Axis.cellsBefore α scale y + 1 < addressLimit ↔ ¬ (scale = 1 ∧ far y)) :
    map.sample filter scale x y =
      (if scale = 1 ∧ (far x ∨ far y) then .error (.overflow .addition)
      else .ok (map.interpolate filter scale x y) : Except Fault α) := by
  have numbered : Axis.cellsBefore α scale x + 1 < addressLimit ∧
      Axis.cellsBefore α scale y + 1 < addressLimit ↔ ¬ (scale = 1 ∧ (far x ∨ far y)) := by
    rw [columns, rows, and_or_left, not_or]
  split
  · rename_i last
    exact sample_eq_error fun bounded => numbered.mp bounded last
  · rename_i inside
    exact sample_eq_ok_iff.mpr ⟨numbered.mpr inside, rfl⟩

end GainMap

end HdrGain
