import HdrGain.Color

namespace HdrGain

/-! # Picture formats

Where a buffer keeps the luma and the chroma of a pixel. Luma comes first, a sample for each pixel
row by row; chroma follows, a pair for each block of two by two pixels. Planar buffers keep all
blue differences before all red ones, interleaved buffers keep each pair together. -/

inductive Format where
  /-- Planar, 8 bits a sample, full range. -/
  | yuv420
  /-- Interleaved, 10 bits in the high bits of a word, narrow range. -/
  | p010
deriving DecidableEq, Repr

inductive Component where
  | luma
  | u
  | v
deriving DecidableEq, Repr

namespace Format

def name : Format → String
  | .yuv420 => "YUV420"
  | .p010 => "P010"

abbrev Sample : Format → Type
  | .yuv420 => UInt8
  | .p010 => UInt16

/-- The level that a sample stands for: all bits of a byte, the top ten bits of a word. -/
def level : (format : Format) → format.Sample → Nat
  | .yuv420, (sample : UInt8) => sample.toNat
  | .p010, (sample : UInt16) => (sample >>> 6).toNat

def chromaIndex (width x y : Nat) : Nat :=
  x / 2 + y / 2 * (width / 2)

/-- Where the buffer of a `width` by `height` picture keeps a component of the pixel `(x, y)`. -/
def position (format : Format) (width height : Nat) (component : Component) (x y : Nat) : Nat :=
  match component, format with
  | .luma, _ => x + y * width
  | .u, .yuv420 => width * height + chromaIndex width x y
  | .v, .yuv420 => width * height * 5 / 4 + chromaIndex width x y
  | .u, .p010 => width * height + chromaIndex width x y * 2
  | .v, .p010 => width * height + chromaIndex width x y * 2 + 1

def locateChroma (width x y : Nat) : Except Fault Nat :=
  Address.inRows (width / 2) (x / 2) (y / 2)

/-- The position, worked out step by step in a picture whose own size is a word. -/
def locate (format : Format) (width height : Nat) (component : Component) (x y : Nat) :
    Except Fault Nat :=
  match component, format with
  | .luma, _ => Address.inRows width x y
  | .u, .yuv420 => do Address.add (width * height) (← locateChroma width x y)
  | .v, .yuv420 => do Address.add (width * height * 5 / 4) (← locateChroma width x y)
  | .u, .p010 => do
      let pairs ← Address.mul (← locateChroma width x y) 2
      Address.add (width * height) pairs
  | .v, .p010 => do
      let pairs ← Address.mul (← locateChroma width x y) 2
      Address.add (← Address.add (width * height) pairs) 1

/-- How many samples hold every component of every pixel: one more than the last red difference. -/
def required (format : Format) (width height : Nat) : Nat :=
  format.position width height .v (width - 1) (height - 1) + 1

/-- The largest number on the way to `required`. -/
def largestTerm (format : Format) (width height : Nat) : Nat :=
  match format with
  | .yuv420 => max (width * height * 5) (format.required width height)
  | .p010 => format.required width height

/-- The operation on the way to `required` that is the first to leave the words. -/
def overflow : Format → Fault
  | .yuv420 => .overflow .multiplication
  | .p010 => .overflow .addition

theorem locateChroma_eq_ok_iff {width x y found : Nat} :
    locateChroma width x y = .ok found ↔
      chromaIndex width x y = found ∧ chromaIndex width x y < addressLimit :=
  Address.inRows_eq_ok_iff

/-- Working a position out step by step ends well exactly if the position is a word. -/
theorem locate_eq_ok_iff {format : Format} {width height x y found : Nat}
    {component : Component} :
    format.locate width height component x y = .ok found ↔
      format.position width height component x y = found ∧
        format.position width height component x y < addressLimit := by
  cases component with
  | luma => exact Address.inRows_eq_ok_iff
  | u =>
      cases format <;>
        simp only [locate, position, Address.bind_eq_ok_iff, locateChroma_eq_ok_iff,
          Address.add_eq_ok_iff, Address.mul_eq_ok_iff]
      · constructor
        · intro located
          obtain ⟨_, ⟨rfl, _⟩, rfl, bound⟩ := located
          exact ⟨rfl, bound⟩
        · intro placed
          obtain ⟨rfl, bound⟩ := placed
          exact ⟨_, ⟨rfl, by omega⟩, rfl, bound⟩
      · constructor
        · intro located
          obtain ⟨_, ⟨rfl, _⟩, _, ⟨rfl, _⟩, rfl, bound⟩ := located
          exact ⟨rfl, bound⟩
        · intro placed
          obtain ⟨rfl, bound⟩ := placed
          exact ⟨_, ⟨rfl, by omega⟩, _, ⟨rfl, by omega⟩, rfl, bound⟩
  | v =>
      cases format <;>
        simp only [locate, position, Address.bind_eq_ok_iff, locateChroma_eq_ok_iff,
          Address.add_eq_ok_iff, Address.mul_eq_ok_iff]
      · constructor
        · intro located
          obtain ⟨_, ⟨rfl, _⟩, rfl, bound⟩ := located
          exact ⟨rfl, bound⟩
        · intro placed
          obtain ⟨rfl, bound⟩ := placed
          exact ⟨_, ⟨rfl, by omega⟩, rfl, bound⟩
      · constructor
        · intro located
          obtain ⟨_, ⟨rfl, _⟩, _, ⟨rfl, _⟩, _, ⟨rfl, _⟩, rfl, bound⟩ := located
          exact ⟨rfl, bound⟩
        · intro placed
          obtain ⟨rfl, bound⟩ := placed
          exact ⟨_, ⟨rfl, by omega⟩, _, ⟨rfl, by omega⟩, _, ⟨rfl, by omega⟩, rfl, bound⟩

theorem chromaIndex_mono {width x y x' y' : Nat} (column : x ≤ x') (row : y ≤ y') :
    chromaIndex width x y ≤ chromaIndex width x' y' :=
  Nat.add_le_add (Nat.div_le_div_right column)
    (Nat.mul_le_mul_right _ (Nat.div_le_div_right row))

theorem position_luma_lt (format : Format) {width height x y : Nat}
    (column : x < width) (row : y < height) :
    format.position width height .luma x y < width * height := by
  have rows : (y + 1) * width ≤ height * width := Nat.mul_le_mul_right _ row
  rw [Nat.add_mul, Nat.one_mul, Nat.mul_comm height] at rows
  change x + y * width < width * height
  omega

theorem position_lt_required (format : Format) {width height x y : Nat} (component : Component)
    (column : x < width) (row : y < height) :
    format.position width height component x y < format.required width height := by
  have chroma : chromaIndex width x y ≤ chromaIndex width (width - 1) (height - 1) :=
    chromaIndex_mono (by omega) (by omega)
  have luma := format.position_luma_lt column row
  cases component <;> cases format <;> simp only [required, position] at luma ⊢ <;> omega

theorem required_le_largestTerm (format : Format) (width height : Nat) :
    format.required width height ≤ format.largestTerm width height := by
  cases format with
  | yuv420 => exact Nat.le_max_right _ _
  | p010 => exact Nat.le_refl _

variable {α : Type} [Scalar α]

/-- Levels as a color of luma and chroma. White is 255 and chroma centres on 128 in full range;
in narrow range white is 940 and chroma starts at 64. -/
def normalise (format : Format) (luma u v : Nat) : Color α :=
  match format with
  | .yuv420 =>
      ⟨Scalar.ofNat luma / 255.0, (Scalar.ofNat u - 128.0) / 255.0,
        (Scalar.ofNat v - 128.0) / 255.0⟩
  | .p010 =>
      ⟨Scalar.ofNat luma / 940.0, (Scalar.ofNat u - 64.0) / 940.0 - 0.5,
        (Scalar.ofNat v - 64.0) / 940.0 - 0.5⟩

end Format

inductive Layout where
  | picture (format : Format)
  | gainMap
deriving DecidableEq, Repr

def Layout.name : Layout → String
  | .picture format => format.name
  | .gainMap => "gain map"

inductive LayoutError where
  /-- There are no pixels, or more than can be addressed. -/
  | invalidDimensions (width height : Nat)
  | bufferTooSmall (layout : Layout) (required actual : Nat)
  /-- The pixels can be counted, but the samples they need cannot. -/
  | overflow (fault : Fault)
deriving DecidableEq, Repr

def LayoutError.message : LayoutError → String
  | .invalidDimensions width height => s!"invalid dimensions: {width}x{height}"
  | .bufferTooSmall layout required actual =>
      s!"{layout.name} buffer too small: need {required} samples, got {actual}"
  | .overflow fault => fault.message

/-- A grid that has pixels, all of which can be counted. -/
def ValidDimensions (width height : Nat) : Prop :=
  0 < width * height ∧ width * height < addressLimit

instance (width height : Nat) : Decidable (ValidDimensions width height) :=
  inferInstanceAs (Decidable (_ ∧ _))

namespace ValidDimensions

variable {width height : Nat}

theorem width_pos (valid : ValidDimensions width height) : 0 < width :=
  Nat.pos_of_mul_pos_right valid.1

theorem height_pos (valid : ValidDimensions width height) : 0 < height :=
  Nat.pos_of_mul_pos_left valid.1

theorem width_lt (valid : ValidDimensions width height) : width < addressLimit :=
  Nat.lt_of_le_of_lt (Nat.le_mul_of_pos_right width valid.height_pos) valid.2

theorem height_lt (valid : ValidDimensions width height) : height < addressLimit :=
  Nat.lt_of_le_of_lt (Nat.le_mul_of_pos_left height valid.width_pos) valid.2

end ValidDimensions

end HdrGain
