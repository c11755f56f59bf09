import HdrGain.Proofs.Color.Signals
import HdrGain.Proofs.Gain.Extremes
import HdrGain.Proofs.GainMap.Reach
import HdrGain.Proofs.RoundTrip.Restoration

namespace HdrGain

/-! # Signals below zero

Not every triple of bytes lies inside the cube of red, green and blue, and gains are applied to
logarithms. In 32-bit floats the channels that come out as no number are exactly those whose signal
is below zero: a sampled gain is always a number, and neither the sRGB curve nor the gain makes a
channel that is not below zero lose its own. -/

open Rounding

section Light

variable [Elementary Float32] (special : SpecialCases)

include special

/-- Under a gain of moderate size, only light below zero comes out as no number. -/
theorem Gain.applyLog_isNaN_iff {light gain logRatio : Float32} {places : ℕ}
    (within : Within (gain * logRatio) places) (moderate : 8 ≤ places) (small : places < 127)
    (ordered : light < 0.0 ∨ 0.0 ≤ light) :
    (Gain.applyLog light gain logRatio).isNaN = true ↔ light < 0.0 := by
  rw [Gain.applyLog, special.exp2_isNaN_iff]
  rcases ordered with negative | above
  · exact iff_of_true (isNaN_add_of_isNaN (special.log2_negative light negative)) negative
  · obtain ⟨_, stands⟩ := within.exists_number
    refine iff_of_false (Bool.eq_false_iff.mp ?_) (not_neg_of_nonneg above)
    rcases zero_or_pos above with ⟨dark, _⟩ | bright
    · have endless : (-Float32.inf).toModel.unpack = .infinity .negative := rfl
      rw [special.log2_zero light above dark]
      exact isNaN_add_of_infinity endless stands
    · rcases unpack_of_pos bright with unpacked | ⟨_, _, _, unpacked⟩
      · have isInfinite : light.isInf = true := by
          change light.toModel.unpack.isInf = true
          rw [unpacked]
          rfl
        have endless : Float32.inf.toModel.unpack = .infinity .positive := rfl
        rw [special.log2_infinite light bright isInfinite]
        exact isNaN_add_of_infinity endless stands
      · have finite := isFinite_iff.mpr ⟨_, numberOf?_of_unpack unpacked⟩
        obtain ⟨lower, upper⟩ := special.log2_positive light bright finite
        exact isNaN_of_within (((within_log lower upper).mono moderate).add within small)

namespace Codec

variable {codec : Codec Float32} {config : Config Float32}

theorem within_logRatio (usable : Codec.ofConfig config = .ok codec) :
    Within codec.logRatio 8 := by
  obtain ⟨_, checked⟩ := config_of_ofConfig usable
  obtain ⟨ratio, stands, large⟩ := Config.exists_ratio checked
  have positive : 0.0 < config.hdrRatio := (lt_iff numberOf?_zero stands).mpr (one_pos.trans large)
  obtain ⟨lower, upper⟩ := special.log2_positive config.hdrRatio positive
    (isFinite_iff.mpr ⟨ratio, stands⟩)
  rw [(parts_of_ofConfig usable).2.2]
  exact within_log lower upper

omit special in
/-- The gain at a pixel is a number of moderate size. -/
theorem exists_gainAt (usable : Codec.ofConfig config = .ok codec) {sdr : Picture .yuv420}
    {map : GainMap} (size : codec.mapSize sdr.width sdr.height = (map.width, map.height))
    {x y : Nat} (contained : sdr.Contains x y) :
    ∃ gain, codec.gainAt map x y = .ok gain ∧ Within gain 80 := by
  have positive := scale_pos usable
  have valid := map.valid
  obtain ⟨width, height⟩ := Prod.mk.inj size
  obtain ⟨columns, rows, few, width_le, height_le⟩ := sdr.sides_le
  obtain ⟨width_lt, height_lt⟩ := sdr.sides_lt
  obtain ⟨column, row⟩ := contained
  have scale_le : codec.config.mapScaleFactor ≤ sdr.width := by
    rw [← width, ← height] at valid
    exact (Nat.div_pos_iff.mp valid.width_pos).2
  have mapWidth : map.width ≤ sdr.width := by
    rw [← width]
    exact Nat.div_le_self _ _
  have mapHeight : map.height ≤ sdr.height := by
    rw [← height]
    exact Nat.div_le_self _ _
  obtain ⟨gain, sampled⟩ := map.exists_sample codec.config.mapFilter positive
    (x := x) (y := y) (by omega) (by omega) (by omega)
  obtain ⟨_, rfl⟩ := GainMap.sample_eq_ok_iff.mp sampled
  exact ⟨_, sampled, map.within_interpolate codec.config.mapFilter positive (by omega)
    (by omega) (by omega) (by omega) (by omega) few⟩

omit special in
theorem exists_mapBytes (usable : Codec.ofConfig config = .ok codec) (sdr : Picture .yuv420)
    (hdr : Picture .p010) (wide : sdr.width = hdr.width) (high : sdr.height = hdr.height) :
    ∃ bytes, codec.mapBytes sdr hdr = .ok bytes := by
  have positive := scale_pos usable
  have covers (x y : Nat) (column : x < sdr.width / codec.config.mapScaleFactor)
      (row : y < sdr.height / codec.config.mapScaleFactor) :
      sdr.CoversBlock codec.config.mapScaleFactor x y ∧
        hdr.CoversBlock codec.config.mapScaleFactor x y :=
    ⟨sdr.coversBlock_of_lt positive column row (le_refl _) (le_refl _),
      hdr.coversBlock_of_lt positive column row wide.le high.le⟩
  obtain ⟨bytes, swept, _⟩ := mapBytes_holdsCells rfl covers
  exact ⟨bytes, swept⟩

/-- Whatever the bytes of a map, a pixel decodes to no number in exactly the channels in which its
own signal is below zero. -/
theorem exists_decoded (usable : Codec.ofConfig config = .ok codec) {sdr : Picture .yuv420}
    {map : GainMap} (size : codec.mapSize sdr.width sdr.height = (map.width, map.height))
    {x y : Nat} (contained : sdr.Contains x y) :
    ∃ (pixel : Color Float32) (gain : Float32) (decoded : Color Float32),
      sdr.pixel x y = .ok pixel ∧ codec.gainAt map x y = .ok gain ∧
      decoded = codec.applyGain ((Chroma.Srgb.toRgb pixel).map Transfer.Srgb.decode) gain ∧
      (decoded.r.isNaN = true ↔ (Chroma.Srgb.toRgb pixel).r < 0.0) ∧
      (decoded.g.isNaN = true ↔ (Chroma.Srgb.toRgb pixel).g < 0.0) ∧
      (decoded.b.isNaN = true ↔ (Chroma.Srgb.toRgb pixel).b < 0.0) := by
  obtain ⟨luma, u, v, read⟩ := Picture.exists_levels contained
  obtain ⟨yClear, uClear, vClear⟩ := clear_normalise luma u v
  obtain ⟨red, green, blue⟩ := Chroma.Srgb.isClear_toRgb yClear uClear vClear
  obtain ⟨gain, sampled, moderate⟩ := exists_gainAt usable size contained
  have product := moderate.mul (within_logRatio special usable) (by decide)
  have channel {signal : Float32} (clear : Clear signal 79 11) :
      (Gain.applyLog (Transfer.Srgb.decode signal) gain codec.logRatio).isNaN = true ↔
        signal < 0.0 := by
    rcases Transfer.Srgb.decode_keeps_sign special clear with ⟨negative, dark⟩ | ⟨nonneg, light⟩
    · exact iff_of_true ((Gain.applyLog_isNaN_iff special product (by decide) (by decide)
        (.inl dark)).mpr dark) negative
    · rw [Gain.applyLog_isNaN_iff special product (by decide) (by decide) (.inr light)]
      exact iff_of_false (not_neg_of_nonneg light) nonneg
  exact ⟨_, gain, _, read, sampled, rfl, channel red, channel green, channel blue⟩

/-- A signal of a pixel below zero is the only way to a channel that is no number. Every usable
configuration makes a byte for each cell of the map of any two pictures of one size, and if these
make a map, each pixel of the SDR picture has a gain in it and decodes with that gain to a color
with a number or endless light in just the channels in which its own signal is not below zero. -/
theorem isNaN_exactly_where_negative (usable : Codec.ofConfig config = .ok codec)
    (sdr : Picture .yuv420) (hdr : Picture .p010) (wide : sdr.width = hdr.width)
    (high : sdr.height = hdr.height) {columns rows : Nat}
    (sizes : codec.mapSize sdr.width sdr.height = (columns, rows)) :
    ∃ bytes, codec.mapBytes sdr hdr = .ok bytes ∧
      ∀ map, GainMap.ofBytes columns rows bytes = .ok map → ∀ x y, sdr.Contains x y →
        ∃ (pixel : Color Float32) (gain : Float32) (decoded : Color Float32),
          sdr.pixel x y = .ok pixel ∧ codec.gainAt map x y = .ok gain ∧
          decoded = codec.applyGain ((Chroma.Srgb.toRgb pixel).map Transfer.Srgb.decode) gain ∧
          (decoded.r.isNaN = true ↔ (Chroma.Srgb.toRgb pixel).r < 0.0) ∧
          (decoded.g.isNaN = true ↔ (Chroma.Srgb.toRgb pixel).g < 0.0) ∧
          (decoded.b.isNaN = true ↔ (Chroma.Srgb.toRgb pixel).b < 0.0) := by
  obtain ⟨bytes, swept⟩ := exists_mapBytes usable sdr hdr wide high
  refine ⟨bytes, swept, fun map accepted x y contained => ?_⟩
  obtain ⟨rfl, rfl, _⟩ := GainMap.ofBytes_eq_ok_iff.mp accepted
  exact exists_decoded special usable sizes contained

end Codec

end Light

namespace Codec

/-- A map of full resolution for a picture of two by two pixels. -/
theorem exists_square_map [Elementary Float32] {sdr : Picture .yuv420} (wide : sdr.width = 2)
    (high : sdr.height = 2) :
    ∃ (codec : Codec Float32) (hdr : Picture .p010) (bytes : Array UInt8) (map : GainMap),
      Codec.ofConfig { (default : Config Float32) with mapScaleFactor := 1 } = .ok codec ∧
      Picture.ofSamples 2 2 (Array.replicate 6 (32768 : UInt16)) = .ok hdr ∧
      sdr.width = hdr.width ∧ sdr.height = hdr.height ∧
      codec.mapSize sdr.width sdr.height = (2, 2) ∧ codec.mapBytes sdr hdr = .ok bytes ∧
      GainMap.ofBytes 2 2 bytes = .ok map := by
  obtain ⟨codec, usable⟩ : ∃ codec : Codec Float32,
      Codec.ofConfig { (default : Config Float32) with mapScaleFactor := 1 } = .ok codec :=
    ⟨_, rfl⟩
  obtain ⟨hdr, hdrAccepted⟩ : ∃ hdr : Picture .p010,
      Picture.ofSamples 2 2 (Array.replicate 6 (32768 : UInt16)) = .ok hdr := ⟨_, rfl⟩
  obtain ⟨hdrWidth, hdrHeight, _⟩ := Picture.ofSamples_eq_ok_iff.mp hdrAccepted
  have unit : codec.config.mapScaleFactor = 1 := by rw [(config_of_ofConfig usable).1]
  have sizes : codec.mapSize sdr.width sdr.height = (2, 2) := by rw [mapSize, unit, wide, high]
  obtain ⟨bytes, swept⟩ := exists_mapBytes usable sdr hdr (by omega) (by omega)
  have four : bytes.size = 4 := (holdsCells_of_mapBytes sizes swept).1
  exact ⟨codec, hdr, bytes, ⟨2, 2, bytes, by decide, by omega⟩, usable, hdrAccepted, by omega,
    by omega, sizes, swept, GainMap.ofBytes_eq_ok_iff.mpr ⟨rfl, rfl, rfl⟩⟩

/-- Black has no channel below zero and decodes to numbers in all three. -/
theorem black_decodes :
    ∃ _ : Elementary Float32, SpecialCases ∧
      ∃ (codec : Codec Float32) (sdr : Picture .yuv420) (hdr : Picture .p010)
        (bytes : Array UInt8) (map : GainMap) (gain : Float32) (decoded : Color Float32),
        Codec.ofConfig { (default : Config Float32) with mapScaleFactor := 1 } = .ok codec ∧
        Picture.ofSamples 2 2 #[0, 0, 0, 0, 128, 128] = .ok sdr ∧
        Picture.ofSamples 2 2 (Array.replicate 6 (32768 : UInt16)) = .ok hdr ∧
        codec.mapBytes sdr hdr = .ok bytes ∧ GainMap.ofBytes 2 2 bytes = .ok map ∧
        sdr.pixel 0 0 = .ok (Color.zero : Color Float32) ∧ codec.gainAt map 0 0 = .ok gain ∧
        decoded = codec.applyGain
          ((Chroma.Srgb.toRgb Color.zero).map Transfer.Srgb.decode) gain ∧
        decoded.r.isNaN = false ∧ decoded.g.isNaN = false ∧ decoded.b.isNaN = false := by
  refine ⟨WholePlaces.elementary, WholePlaces.specialCases, ?_⟩
  let _ := WholePlaces.elementary
  obtain ⟨sdr, pictured⟩ : ∃ sdr : Picture .yuv420,
      sdr = ⟨2, 2, #[0, 0, 0, 0, 128, 128], by decide, by decide, by decide⟩ := ⟨_, rfl⟩
  have read : sdr.pixel 0 0 = .ok (Color.zero : Color Float32) := by
    rw [pictured]
    rfl
  obtain ⟨codec, hdr, bytes, map, usable, hdrAccepted, wide, high, sizes, swept, accepted⟩ :=
    exists_square_map (show sdr.width = 2 by rw [pictured]) (by rw [pictured])
  obtain ⟨_, swept', decodes⟩ :=
    isNaN_exactly_where_negative WholePlaces.specialCases usable sdr hdr wide high sizes
  obtain rfl := Except.ok.inj (swept.symm.trans swept')
  obtain ⟨_, gain, decoded, read', sampled, decode, red, green, blue⟩ :=
    decodes map accepted 0 0 (by rw [pictured]; exact ⟨by decide, by decide⟩)
  obtain rfl := Except.ok.inj (read.symm.trans read')
  exact ⟨codec, sdr, hdr, bytes, map, gain, decoded, usable, by rw [pictured]; rfl, hdrAccepted,
    swept, accepted, read, sampled, decode, Bool.eq_false_iff.mpr (mt red.mp (by decide)),
    Bool.eq_false_iff.mpr (mt green.mp (by decide)),
    Bool.eq_false_iff.mpr (mt blue.mp (by decide))⟩

/-- Bytes without luma and with the least blue difference are a pixel of an accepted picture, and
whatever the library of logarithms and powers, its blue decodes to no number. -/
theorem dark_blue_is_no_number :
    (∃ _ : Elementary Float32, SpecialCases) ∧
    ∀ [Elementary Float32], SpecialCases →
      ∃ (codec : Codec Float32) (sdr : Picture .yuv420) (hdr : Picture .p010)
        (bytes : Array UInt8) (map : GainMap) (pixel : Color Float32) (gain : Float32),
        Codec.ofConfig { (default : Config Float32) with mapScaleFactor := 1 } = .ok codec ∧
        Picture.ofSamples 2 2 #[0, 0, 0, 0, 0, 128] = .ok sdr ∧
        Picture.ofSamples 2 2 (Array.replicate 6 (32768 : UInt16)) = .ok hdr ∧
        codec.mapBytes sdr hdr = .ok bytes ∧ GainMap.ofBytes 2 2 bytes = .ok map ∧
        sdr.Contains 0 0 ∧ sdr.pixel 0 0 = .ok pixel ∧ codec.gainAt map 0 0 = .ok gain ∧
        (codec.applyGain
          ((Chroma.Srgb.toRgb pixel).map Transfer.Srgb.decode) gain).b.isNaN = true := by
  refine ⟨⟨WholePlaces.elementary, WholePlaces.specialCases⟩, fun special => ?_⟩
  obtain ⟨sdr, pictured⟩ : ∃ sdr : Picture .yuv420,
      sdr = ⟨2, 2, #[0, 0, 0, 0, 0, 128], by decide, by decide, by decide⟩ := ⟨_, rfl⟩
  have contained : sdr.Contains 0 0 := by
    rw [pictured]
    exact ⟨by decide, by decide⟩
  have read : sdr.pixel 0 0 = .ok (⟨0.0, (0.0 - 128.0) / 255.0, 0.0⟩ : Color Float32) := by
    rw [pictured]
    rfl
  obtain ⟨codec, hdr, bytes, map, usable, hdrAccepted, _, _, sizes, swept, accepted⟩ :=
    exists_square_map (show sdr.width = 2 by rw [pictured]) (by rw [pictured])
  obtain ⟨mapWidth, mapHeight, _⟩ := GainMap.ofBytes_eq_ok_iff.mp accepted
  have size : codec.mapSize sdr.width sdr.height = (map.width, map.height) := by
    rw [sizes, mapWidth, mapHeight]
  obtain ⟨_, gain, decoded, read', sampled, decode, _, _, blue⟩ :=
    exists_decoded special usable size contained
  obtain rfl := Except.ok.inj (read.symm.trans read')
  refine ⟨codec, sdr, hdr, bytes, map, _, gain, usable, by rw [pictured]; rfl, hdrAccepted, swept,
    accepted, contained, read, sampled, ?_⟩
  rw [← decode]
  exact blue.mpr (by decide)

end Codec

end HdrGain
