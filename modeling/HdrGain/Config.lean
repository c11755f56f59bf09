import HdrGain.Decimal
import HdrGain.GainMap
import HdrGain.Gamut
import HdrGain.Transfer

namespace HdrGain

structure Config (α : Type) where
  /-- The largest HDR luminance over the largest SDR luminance. -/
  hdrRatio : α
  /-- Pixels for each cell of the map, along either axis. -/
  mapScaleFactor : Nat
  sdrGamut : Gamut
  hdrGamut : Gamut
  hdrTransfer : HdrTransfer
  mapFilter : MapFilter
deriving BEq, DecidableEq, Repr

inductive ConfigError (α : Type) where
  | invalidHdrRatio (ratio : α)
  | invalidScaleFactor (factor : Nat)
  | unsupportedConversion (source target : Gamut)
deriving DecidableEq, Repr

namespace Config

variable {α : Type} [Scalar α]

instance : Inhabited (Config α) where
  default :=
    { hdrRatio := 4.0
      mapScaleFactor := 4
      sdrGamut := .bt709
      hdrGamut := .bt2100
      hdrTransfer := default
      mapFilter := default }

def conversion? (config : Config α) : Option (Color α → Color α) :=
  Gamut.conversion? config.hdrGamut config.sdrGamut

def luminanceWeights? (config : Config α) : Option (Color α) :=
  config.sdrGamut.luminanceWeights?

/-- Checks the ratio first, then the scale, then the gamuts. -/
def validate (config : Config α) : Except (ConfigError α) Unit :=
  if Scalar.isFinite config.hdrRatio = false ∨ config.hdrRatio ≤ 1.0 then
    .error (.invalidHdrRatio config.hdrRatio)
  else if config.mapScaleFactor = 0 then
    .error (.invalidScaleFactor config.mapScaleFactor)
  else
    match config.conversion? with
    | none => .error (.unsupportedConversion config.hdrGamut config.sdrGamut)
    | some _ => .ok ()

theorem isSome_conversion? (config : Config α) :
    config.conversion?.isSome = (config.hdrGamut.isSpecified && config.sdrGamut.isSpecified) :=
  Gamut.isSome_conversion? config.hdrGamut config.sdrGamut

/-- Usable are exactly a finite ratio above 1, a scale of at least 1 and gamuts that are known. -/
theorem validate_eq_ok_iff {config : Config α} :
    config.validate = .ok () ↔
      (Scalar.isFinite config.hdrRatio = true ∧ ¬ config.hdrRatio ≤ 1.0) ∧
        0 < config.mapScaleFactor ∧
          config.hdrGamut.isSpecified = true ∧ config.sdrGamut.isSpecified = true := by
  have known := config.isSome_conversion?
  unfold validate
  by_cases ratio : Scalar.isFinite config.hdrRatio = false ∨ config.hdrRatio ≤ 1.0
  · rcases ratio with infinite | small
    · simp [infinite]
    · simp [small]
  · by_cases scale : config.mapScaleFactor = 0
    · simp [ratio, scale]
    · rw [if_neg ratio, if_neg scale]
      cases found : config.conversion? with
      | none =>
          rw [found] at known
          simp_all
      | some conversion =>
          rw [found] at known
          simp_all
          omega

end Config

end HdrGain

namespace HdrGain.ConfigError

/-- Ratios are written in full, without an exponent and without a point that nothing follows. -/
def ratioStyle : Decimal.Style where
  tie := .up
  plain _ := true
  wholeMark := ""
  notANumber := "NaN"
  infinite negative := Decimal.Style.sign negative ++ "inf"

def message : ConfigError Float32 → String
  | .invalidHdrRatio ratio =>
      s!"invalid hdr ratio: {ratioStyle.write ratio} (must be finite and > 1)"
  | .invalidScaleFactor factor => s!"invalid map scale factor: {factor}"
  | .unsupportedConversion source target =>
      s!"unsupported gamut conversion: {source.name} -> {target.name}"

end HdrGain.ConfigError
