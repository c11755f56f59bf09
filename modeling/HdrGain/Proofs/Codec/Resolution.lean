import HdrGain.Codec
import HdrGain.Proofs.Scalar.Magnitude

namespace HdrGain

namespace Codec

section Parts

variable {α : Type} [Scalar α] [Elementary α] {codec : Codec α} {config : Config α}

theorem config_of_ofConfig (usable : Codec.ofConfig config = .ok codec) :
    codec.config = config ∧ config.validate = .ok () := by
  unfold Codec.ofConfig at usable
  cases checked : config.validate with
  | error refused =>
      rw [checked] at usable
      cases usable
  | ok done =>
      rw [checked] at usable
      refine ⟨?_, rfl⟩
      simp only [bind, Except.bind] at usable
      split at usable
      · cases usable
        rfl
      · cases usable

theorem scale_pos (usable : Codec.ofConfig config = .ok codec) :
    0 < codec.config.mapScaleFactor := by
  obtain ⟨same, checked⟩ := config_of_ofConfig usable
  rw [same]
  exact (Config.validate_eq_ok_iff.mp checked).2.1

theorem parts_of_ofConfig (usable : Codec.ofConfig config = .ok codec) :
    config.conversion? = some codec.toSdrGamut ∧
      config.luminanceWeights? = some codec.luminanceWeights ∧
        codec.logRatio = Elementary.log2 config.hdrRatio := by
  have checked := (config_of_ofConfig usable).2
  unfold Codec.ofConfig at usable
  rw [checked] at usable
  simp only [bind, Except.bind] at usable
  split at usable
  · rename_i convert weights converts weighs
    cases usable
    exact ⟨converts, weighs, rfl⟩
  · cases usable

theorem ofConfig_eq {convert : Color α → Color α} {weights : Color α}
    (checked : config.validate = .ok ()) (converts : config.conversion? = some convert)
    (weighs : config.luminanceWeights? = some weights) :
    Codec.ofConfig config = .ok ⟨config, Elementary.log2 config.hdrRatio, convert, weights⟩ := by
  simp only [ofConfig, checked, converts, weighs]
  rfl

omit [Elementary α] in
/-- What is usable can be looked up. -/
theorem exists_parts (checked : config.validate = .ok ()) :
    ∃ convert weights, config.conversion? = some convert ∧
      config.luminanceWeights? = some weights := by
  obtain ⟨_, _, hdrKnown, sdrKnown⟩ := Config.validate_eq_ok_iff.mp checked
  have converts := config.isSome_conversion?
  rw [hdrKnown, sdrKnown] at converts
  have weighs := Gamut.isSome_luminanceWeights? (α := α) config.sdrGamut
  rw [sdrKnown] at weighs
  obtain ⟨convert, converts⟩ := Option.isSome_iff_exists.mp converts
  obtain ⟨weights, weighs⟩ := Option.isSome_iff_exists.mp weighs
  exact ⟨convert, weights, converts, weighs⟩

theorem exists_ofConfig (checked : config.validate = .ok ()) :
    ∃ codec, Codec.ofConfig config = .ok codec := by
  obtain ⟨convert, weights, converts, weighs⟩ := exists_parts checked
  exact ⟨_, ofConfig_eq checked converts weighs⟩

theorem ofConfig_eq_error_iff {refused : ConfigError α} :
    Codec.ofConfig config = .error refused ↔ config.validate = .error refused := by
  cases checked : config.validate with
  | ok done =>
      obtain ⟨codec, made⟩ := exists_ofConfig checked
      rw [made]
      exact ⟨nofun, nofun⟩
  | error other =>
      rw [ofConfig, checked]
      simp only [bind, Except.bind, Except.error.injEq]

/-- Every operation of the codec is the function of its name on what `config` says. -/
structure Follows (codec : Codec α) (config : Config α) : Prop where
  config_eq : codec.config = config
  toSdrGamut : Gamut.conversion? config.hdrGamut config.sdrGamut = some codec.toSdrGamut
  luminance : ∀ color, config.sdrGamut.luminance? color = some (codec.luminance color)
  linearise : ∀ signal, codec.linearise signal = signal.map config.hdrTransfer.decode
  delinearise : ∀ light, codec.delinearise light = light.map config.hdrTransfer.encode
  gainByte : ∀ sdr hdr, codec.gainByte sdr hdr = Gain.encode sdr hdr config.hdrRatio
  applyGain : ∀ color gain, codec.applyGain color gain = Gain.applyColor color gain config.hdrRatio
  gainAt : ∀ (map : GainMap) x y,
    codec.gainAt map x y = map.sample config.mapFilter config.mapScaleFactor x y
  block : ∀ {format : Format} (picture : Picture format) x y,
    codec.block picture x y = picture.block config.mapScaleFactor x y
  /-- The sizes of maps are quotients by a number that is not zero. -/
  mapSize : 0 < config.mapScaleFactor ∧ ∀ width height,
    codec.mapSize width height = (width / config.mapScaleFactor, height / config.mapScaleFactor)

theorem follows_of_ofConfig (usable : Codec.ofConfig config = .ok codec) :
    codec.Follows config := by
  obtain ⟨same, _⟩ := config_of_ofConfig usable
  obtain ⟨converts, weighs, log⟩ := parts_of_ofConfig usable
  have positive := scale_pos usable
  subst same
  constructor
  case config_eq => rfl
  case toSdrGamut => exact converts
  case luminance =>
    intro color
    exact congrArg (Option.map (Color.dot · color)) weighs
  case linearise => exact fun _ => rfl
  case delinearise => exact fun _ => rfl
  case gainByte =>
    intro sdr hdr
    rw [Codec.gainByte, log]
    rfl
  case applyGain =>
    intro color gain
    rw [Codec.applyGain, log]
    rfl
  case gainAt => exact fun _ _ _ => rfl
  case block => exact fun _ _ _ => rfl
  case mapSize => exact ⟨positive, fun _ _ => rfl⟩

end Parts

end Codec

namespace Config

open Rounding

variable {config : Config Float32}

def HasUsableRatio (config : Config Float32) : Prop :=
  Scalar.isFinite config.hdrRatio = true ∧ 1.0 < config.hdrRatio

def KnowsGamuts (config : Config Float32) : Prop :=
  config.sdrGamut.isSpecified = true ∧ config.hdrGamut.isSpecified = true

-- A ratio that is no number is neither at most 1 nor above it; finite ones are one or the other.
theorem hasUsableRatio_iff :
    config.HasUsableRatio ↔
      Scalar.isFinite config.hdrRatio = true ∧ ¬ config.hdrRatio ≤ 1.0 := by
  refine and_congr_right fun finite => ?_
  obtain ⟨ratio, stands⟩ := isFinite_iff.mp finite
  rw [le_iff stands numberOf?_unit, lt_iff numberOf?_unit stands, not_le]

theorem validate_of_ratio (unusable : ¬ config.HasUsableRatio) :
    config.validate = .error (.invalidHdrRatio config.hdrRatio) := by
  rw [hasUsableRatio_iff, not_and_or, not_not, Bool.not_eq_true] at unusable
  rw [validate, if_pos unusable]

theorem validate_of_scale (usable : config.HasUsableRatio) (empty : config.mapScaleFactor = 0) :
    config.validate = .error (.invalidScaleFactor config.mapScaleFactor) := by
  obtain ⟨finite, above⟩ := hasUsableRatio_iff.mp usable
  rw [validate, if_neg (by simp [finite, above]), if_pos empty]

theorem validate_of_gamuts (usable : config.HasUsableRatio) (scaled : 0 < config.mapScaleFactor)
    (unknown : ¬ config.KnowsGamuts) :
    config.validate = .error (.unsupportedConversion config.hdrGamut config.sdrGamut) := by
  obtain ⟨finite, above⟩ := hasUsableRatio_iff.mp usable
  have none : config.conversion? = none := by
    rw [← Option.not_isSome_iff_eq_none, isSome_conversion?, Bool.and_eq_true]
    exact fun known => unknown known.symm
  rw [validate, if_neg (by simp [finite, above]), if_neg scaled.ne', none]

theorem usable_iff : config.validate = .ok () ↔
    config.HasUsableRatio ∧ 1 ≤ config.mapScaleFactor ∧ config.KnowsGamuts := by
  rw [validate_eq_ok_iff, hasUsableRatio_iff, KnowsGamuts,
    and_comm (a := config.sdrGamut.isSpecified = true)]
  rfl

end Config

/-- A codec is refused with the first thing that makes its configuration unusable and for no other
reason, and a codec that is made follows its configuration. -/
theorem Codec.resolved_exactly [Elementary Float32] (config : Config Float32) :
    (∀ refused, Codec.ofConfig config = .error refused ↔ config.validate = .error refused) ∧
    (config.validate = .ok () ↔
      config.HasUsableRatio ∧ 1 ≤ config.mapScaleFactor ∧ config.KnowsGamuts) ∧
    (¬ config.HasUsableRatio →
      config.validate = .error (.invalidHdrRatio config.hdrRatio)) ∧
    (config.HasUsableRatio → config.mapScaleFactor = 0 →
      config.validate = .error (.invalidScaleFactor config.mapScaleFactor)) ∧
    (config.HasUsableRatio → 1 ≤ config.mapScaleFactor → ¬ config.KnowsGamuts →
      config.validate = .error (.unsupportedConversion config.hdrGamut config.sdrGamut)) ∧
    (config.validate = .ok () → ∃ convert weights,
      config.conversion? = some convert ∧ config.luminanceWeights? = some weights) ∧
    (∀ codec, Codec.ofConfig config = .ok codec → codec.Follows config) :=
  ⟨fun _ => ofConfig_eq_error_iff, Config.usable_iff, Config.validate_of_ratio,
    Config.validate_of_scale, Config.validate_of_gamuts, exists_parts,
    fun _ => follows_of_ofConfig⟩

end HdrGain
