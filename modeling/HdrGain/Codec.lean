import HdrGain.Config
import HdrGain.Image.Picture

namespace HdrGain

/-- A configuration that has been found usable, with what follows from it looked up once. -/
structure Codec (α : Type) where
  config : Config α
  logRatio : α
  toSdrGamut : Color α → Color α
  luminanceWeights : Color α

namespace Codec

variable {α : Type} [Scalar α] [Elementary α]

def ofConfig (config : Config α) : Except (ConfigError α) (Codec α) := do
  config.validate
  match config.conversion?, config.luminanceWeights? with
  | some toSdrGamut, some luminanceWeights =>
      return { config, logRatio := Elementary.log2 config.hdrRatio, toSdrGamut, luminanceWeights }
  | _, _ => throw (.unsupportedConversion config.hdrGamut config.sdrGamut)

/-- The size of the map of an image. Pixels past the last whole block get no cell. -/
def mapSize (codec : Codec α) (width height : Nat) : Nat × Nat :=
  (width / codec.config.mapScaleFactor, height / codec.config.mapScaleFactor)

def luminance (codec : Codec α) (color : Color α) : α :=
  codec.luminanceWeights.dot color

def linearise (codec : Codec α) (signal : Color α) : Color α :=
  signal.map codec.config.hdrTransfer.decode

def delinearise (codec : Codec α) (light : Color α) : Color α :=
  light.map codec.config.hdrTransfer.encode

def gainByte (codec : Codec α) (sdr hdr : α) : UInt8 :=
  Gain.encodeLog sdr hdr codec.config.hdrRatio codec.logRatio

def applyGain (codec : Codec α) (color : Color α) (gain : α) : Color α :=
  color.map (Gain.applyLog · gain codec.logRatio)

def gainAt (codec : Codec α) (map : GainMap) (x y : Nat) : Except Fault α :=
  map.sample codec.config.mapFilter codec.config.mapScaleFactor x y

/-- The mean of the pixels that the map cell `(x, y)` stands for. -/
def block {format : Format} (codec : Codec α) (picture : Picture format) (x y : Nat) :
    Except Fault (Color α) :=
  picture.block codec.config.mapScaleFactor x y

end Codec

inductive Failure (α : Type) where
  | config (error : ConfigError α)
  | layout (error : LayoutError)
  | fault (fault : Fault)
deriving DecidableEq, Repr

namespace Codec

variable {α : Type} [Scalar α] [Elementary α]

/-- Linear light of an HDR block, in the SDR gamut. -/
def hdrLight {format : Format} (codec : Codec α) (hdr : Picture format) (x y : Nat) :
    Except Fault (Color α) := do
  let chroma ← codec.block hdr x y
  return codec.toSdrGamut (codec.linearise (Chroma.Bt2100.toRgb chroma))

def sdrLight {format : Format} (codec : Codec α) (sdr : Picture format) (x y : Nat) :
    Except Fault (Color α) := do
  let chroma ← codec.block sdr x y
  return (Chroma.Srgb.toRgb chroma).map Transfer.Srgb.decode

def mapByte {sdrFormat hdrFormat : Format} (codec : Codec α) (sdr : Picture sdrFormat)
    (hdr : Picture hdrFormat) (x y : Nat) : Except Fault UInt8 := do
  let hdrLight ← codec.hdrLight hdr x y
  let sdrLight ← codec.sdrLight sdr x y
  return codec.gainByte (codec.luminance sdrLight) (codec.luminance hdrLight)

def mapBytes {sdrFormat hdrFormat : Format} (codec : Codec α) (sdr : Picture sdrFormat)
    (hdr : Picture hdrFormat) : Except Fault (Array UInt8) :=
  let (width, height) := codec.mapSize sdr.width sdr.height
  foldPositions
    (fun rows y =>
      foldPositions (fun bytes x => bytes.push <$> codec.mapByte sdr hdr x y) 0 width rows)
    0 height #[]

structure Restored (α : Type) where
  gain : α
  hdr : Color α
  packed : UInt32

/-- Rebuilds the HDR pixel at `(x, y)`. The packed color is relative to the HDR peak. -/
def restore {format : Format} (codec : Codec α) (map : GainMap) (sdr : Picture format)
    (x y : Nat) : Except Fault (Restored α) := do
  let pixels : Codec α := { codec with config := { codec.config with mapScaleFactor := 1 } }
  let gain ← codec.gainAt map x y
  let light ← pixels.sdrLight sdr x y
  let hdr := codec.applyGain light gain
  let relative : Color α := hdr / codec.config.hdrRatio
  return ⟨gain, hdr, Packing.pack (relative.map Transfer.Srgb.encode)⟩

end Codec

structure RoundTrip (α : Type) where
  map : GainMap
  pixels : List (Except Fault (Codec.Restored α))

/-- A picture before its buffer has been measured against its size. -/
structure RawPicture (format : Format) where
  width : Nat
  height : Nat
  samples : Array format.Sample

def RawPicture.check {format : Format} (raw : RawPicture format) :
    Except LayoutError (Picture format) :=
  Picture.ofSamples raw.width raw.height raw.samples

variable {α : Type} [Scalar α] [Elementary α]

/-- Checks the configuration, then the SDR picture, then the HDR picture, makes the map, and
rebuilds the pixels at `positions`, each for itself. -/
def RoundTrip.run (config : Config α) (sdr : RawPicture .yuv420) (hdr : RawPicture .p010)
    (positions : List (Nat × Nat)) : Except (Failure α) (RoundTrip α) := do
  let codec ← (Codec.ofConfig config).mapError .config
  let sdr ← sdr.check.mapError .layout
  let hdr ← hdr.check.mapError .layout
  let bytes ← (codec.mapBytes sdr hdr).mapError .fault
  let (width, height) := codec.mapSize sdr.width sdr.height
  let map ← (GainMap.ofBytes width height bytes).mapError .layout
  return { map, pixels := positions.map fun (x, y) => codec.restore map sdr x y }

end HdrGain
