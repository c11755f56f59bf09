import HdrGain.Color

namespace HdrGain

inductive Gamut where
  | bt709
  | displayP3
  | bt2100
  | unspecified
deriving DecidableEq, Repr

namespace Gamut

instance : Inhabited Gamut := ⟨.unspecified⟩

/-- The gamuts that say what their primaries are, in the order of `tableIndex?`. -/
def specified : List Gamut := [.bt709, .displayP3, .bt2100]

def isSpecified (gamut : Gamut) : Bool :=
  decide (gamut ∈ specified)

def tableIndex? : Gamut → Option Nat
  | .bt709 => some 0
  | .displayP3 => some 1
  | .bt2100 => some 2
  | .unspecified => none

def name : Gamut → String
  | .bt709 => "BT.709"
  | .displayP3 => "Display-P3"
  | .bt2100 => "BT.2100"
  | .unspecified => "Unspecified"

instance : ToString Gamut := ⟨name⟩

/-- The spellings a gamut is known by, in normal form. -/
def spellings : List (String × Gamut) :=
  [("bt709", .bt709), ("bt-709", .bt709), ("srgb", .bt709), ("rec709", .bt709),
    ("p3", .displayP3), ("display-p3", .displayP3), ("displayp3", .displayP3),
    ("bt2100", .bt2100), ("bt-2100", .bt2100), ("bt2020", .bt2100), ("bt-2020", .bt2100),
    ("rec2020", .bt2100),
    ("unspecified", .unspecified)]

/-- ASCII capitals become small letters, dots and underscores become dashes. -/
def normaliseChar (c : Char) : Char :=
  if c = '.' ∨ c = '_' then '-' else c.toLower

def normalise (text : String) : String :=
  String.ofList (text.toList.map normaliseChar)

/-- No gamut goes by this name, which is in normal form. -/
structure UnknownName where
  name : String
deriving DecidableEq, Repr

def UnknownName.message (unknown : UnknownName) : String :=
  s!"unknown color gamut: {unknown.name}"

def parse (text : String) : Except UnknownName Gamut :=
  match spellings.lookup (normalise text) with
  | some gamut => .ok gamut
  | none => .error ⟨normalise text⟩

end Gamut

end HdrGain

namespace HdrGain.Gamut

variable {α : Type} [Scalar α]

def bt709Weights : Color α := ⟨0.299, 0.587, 0.114⟩

def displayP3Weights : Color α := ⟨0.22897, 0.69174, 0.07929⟩

def bt2100Weights : Color α := ⟨0.2627, 0.6780, 0.0593⟩

def luminanceWeights? : Gamut → Option (Color α)
  | .bt709 => some bt709Weights
  | .displayP3 => some displayP3Weights
  | .bt2100 => some bt2100Weights
  | .unspecified => none

theorem isSome_luminanceWeights? (gamut : Gamut) :
    (luminanceWeights? gamut : Option (Color α)).isSome = gamut.isSpecified := by
  cases gamut <;> rfl

def luminance? (gamut : Gamut) (color : Color α) : Option α :=
  gamut.luminanceWeights?.map (·.dot color)

end HdrGain.Gamut

namespace HdrGain.Gamut

variable {α : Type} [Scalar α]

def bt709ToDisplayP3 : Matrix α :=
  ⟨⟨0.82254, 0.17755, 0.00006⟩,
    ⟨0.03312, 0.96684, -0.00001⟩,
    ⟨0.01706, 0.07240, 0.91049⟩⟩

def bt709ToBt2100 : Matrix α :=
  ⟨⟨0.62740, 0.32930, 0.04332⟩,
    ⟨0.06904, 0.91958, 0.01138⟩,
    ⟨0.01636, 0.08799, 0.89555⟩⟩

def displayP3ToBt709 : Matrix α :=
  ⟨⟨1.22482, -0.22490, -0.00007⟩,
    ⟨-0.04196, 1.04199, 0.00001⟩,
    ⟨-0.01961, -0.07865, 1.09831⟩⟩

def displayP3ToBt2100 : Matrix α :=
  ⟨⟨0.75378, 0.19862, 0.04754⟩,
    ⟨0.04576, 0.94177, 0.01250⟩,
    ⟨-0.00121, 0.01757, 0.98359⟩⟩

def bt2100ToBt709 : Matrix α :=
  ⟨⟨1.66045, -0.58764, -0.07286⟩,
    ⟨-0.12445, 1.13282, -0.00837⟩,
    ⟨-0.01811, -0.10057, 1.11878⟩⟩

def bt2100ToDisplayP3 : Matrix α :=
  ⟨⟨1.34369, -0.28223, -0.06135⟩,
    ⟨-0.06533, 1.07580, -0.01051⟩,
    ⟨0.00283, -0.01957, 1.01679⟩⟩

/-- Takes colors of `source` into `target`. A color that stays in its gamut stays as it is. -/
def conversion? (source target : Gamut) : Option (Color α → Color α) :=
  match source, target with
  | .bt709, .bt709 | .displayP3, .displayP3 | .bt2100, .bt2100 => some id
  | .bt709, .displayP3 => some bt709ToDisplayP3.transform
  | .bt709, .bt2100 => some bt709ToBt2100.transform
  | .displayP3, .bt709 => some displayP3ToBt709.transform
  | .displayP3, .bt2100 => some displayP3ToBt2100.transform
  | .bt2100, .bt709 => some bt2100ToBt709.transform
  | .bt2100, .displayP3 => some bt2100ToDisplayP3.transform
  | .unspecified, _ | _, .unspecified => none

theorem isSome_conversion? (source target : Gamut) :
    (conversion? source target : Option (Color α → Color α)).isSome =
      (source.isSpecified && target.isSpecified) := by
  cases source <;> cases target <;> rfl

end HdrGain.Gamut

namespace HdrGain

/-- The share of the first two tristimulus values in the sum of all three. -/
structure Chromaticity (α : Type) where
  x : α
  y : α
deriving BEq, DecidableEq, Repr

structure Primaries (α : Type) where
  red : Chromaticity α
  green : Chromaticity α
  blue : Chromaticity α
  white : Chromaticity α
deriving BEq, DecidableEq, Repr

variable {α : Type} [Scalar α]

/-- The tristimulus values of a chromaticity at luminance 1. There are none on the line without
luminance, and they count as zero. -/
def Chromaticity.toXyz (point : Chromaticity α) : Color α :=
  if Scalar.abs point.y < 1e-10 then Color.zero
  else ⟨point.x / point.y, 1.0, (1.0 - point.x - point.y) / point.y⟩

namespace Primaries

def daylight : Chromaticity α := ⟨0.31270, 0.32900⟩

def bt709 : Primaries α := ⟨⟨0.6400, 0.3300⟩, ⟨0.3000, 0.6000⟩, ⟨0.1500, 0.0600⟩, daylight⟩

def displayP3 : Primaries α := ⟨⟨0.6800, 0.3200⟩, ⟨0.2650, 0.6900⟩, ⟨0.1500, 0.0600⟩, daylight⟩

def bt2100 : Primaries α := ⟨⟨0.7080, 0.2920⟩, ⟨0.1700, 0.7970⟩, ⟨0.1310, 0.0460⟩, daylight⟩

def ofGamut? : Gamut → Option (Primaries α)
  | .bt709 => some bt709
  | .displayP3 => some displayP3
  | .bt2100 => some bt2100
  | .unspecified => none

/-- How much of each primary makes white. Primaries that do not span the colors are taken as the
tristimulus values themselves. -/
def whiteShares (primaries : Primaries α) : Color α :=
  let columns :=
    Matrix.ofColumns primaries.red.toXyz primaries.green.toXyz primaries.blue.toXyz
  (columns.inverse?.getD Matrix.identity).transform primaries.white.toXyz

def toXyz (primaries : Primaries α) : Matrix α :=
  let shares := primaries.whiteShares
  Matrix.ofColumns (primaries.red.toXyz * shares.r) (primaries.green.toXyz * shares.g)
    (primaries.blue.toXyz * shares.b)

def ofXyz (primaries : Primaries α) : Matrix α :=
  primaries.toXyz.inverse?.getD Matrix.identity

/-- From coordinates in `source` to coordinates in `target`, by way of tristimulus values. -/
def conversion (source target : Primaries α) : Matrix α :=
  target.ofXyz * source.toXyz

end Primaries

/-- The conversion that the primaries of two gamuts give, not rounded to a table. -/
def Gamut.derivedConversion? (source target : Gamut) : Option (Matrix α) :=
  match Primaries.ofGamut? source, Primaries.ofGamut? target with
  | some first, some second => some (first.conversion second)
  | _, _ => none

end HdrGain

namespace HdrGain.Chroma

variable {α : Type} [Scalar α]

namespace Srgb

def blueWeights : Color α := ⟨-0.1687, -0.3313, 0.5⟩

def redWeights : Color α := ⟨0.5, -0.4187, -0.0813⟩

def ofRgb (color : Color α) : Color α :=
  ⟨Gamut.bt709Weights.dot color, blueWeights.dot color, redWeights.dot color⟩

def toRgb (color : Color α) : Color α :=
  ⟨color.y + 1.402 * color.v,
    color.y - 0.34414 * color.u - 0.71414 * color.v,
    color.y + 1.772 * color.u⟩

end Srgb

namespace Bt2100

/-- Twice the distance from luma to blue, so that the difference stays within a half. -/
def blueRange : α := 1.8814

def redRange : α := 1.4746

/-- What green gives up for a unit of blue difference, so that luma stays. -/
def greenForBlue : α :=
  (Gamut.bt2100Weights : Color α).b * blueRange / (Gamut.bt2100Weights : Color α).g

def greenForRed : α :=
  (Gamut.bt2100Weights : Color α).r * redRange / (Gamut.bt2100Weights : Color α).g

def ofRgb (color : Color α) : Color α :=
  let luma := Gamut.bt2100Weights.dot color
  ⟨luma, (color.b - luma) / blueRange, (color.r - luma) / redRange⟩

def toRgb (color : Color α) : Color α :=
  ⟨color.y + redRange * color.v,
    color.y - greenForBlue * color.u - greenForRed * color.v,
    color.y + blueRange * color.u⟩

end Bt2100

end HdrGain.Chroma
