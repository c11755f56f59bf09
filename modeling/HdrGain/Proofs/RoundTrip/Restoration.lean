import HdrGain.Proofs.Gain.Powers
import HdrGain.Proofs.Image.Mean
import HdrGain.Proofs.RoundTrip.Coverage
import HdrGain.Proofs.Transfer.Order

namespace HdrGain

open Unrounded

namespace Axis

variable {scale cell : Nat}

theorem ofNat_mul_div (positive : 0 < scale) :
    (Scalar.ofNat (cell * scale) / Scalar.ofNat scale : Unrounded) = real cell := by
  have unit : (scale : ℝ) ≠ 0 := by exact_mod_cast positive.ne'
  rw [ofNat_eq, ofNat_eq, real_div unit, Nat.cast_mul, mul_div_cancel_right₀ _ unit]

theorem cellsBefore_mul (positive : 0 < scale) (word : cell < addressLimit) :
    cellsBefore Unrounded scale (cell * scale) = cell := by
  rw [cellsBefore, ofNat_mul_div positive, truncate_real, Nat.floor_natCast]
  exact Nat.min_eq_left (Nat.le_sub_one_of_lt word)

theorem locate_mul {size : Nat} (nonempty : 0 < size) (positive : 0 < scale) (inside : cell < size)
    (word : cell < addressLimit) :
    (locate nonempty scale (cell * scale) : Axis size Unrounded).lower = ⟨cell, inside⟩ ∧
      (locate nonempty scale (cell * scale) : Axis size Unrounded).influence = real 0 := by
  have nearest : nearestIndex nonempty (cellsBefore Unrounded scale (cell * scale)) =
      ⟨cell, inside⟩ := by
    rw [cellsBefore_mul positive word, nearestIndex_of_lt nonempty inside]
  refine ⟨nearest, ?_⟩
  simp only [locate, nearest, ofNat_mul_div positive]
  rw [ofNat_eq, real_sub, sub_self]

end Axis

theorem lerp_zero (first second : ℝ) :
    lerp (real first) (real second) (real 0) = real first := by
  simp only [lerp, real_sub, real_mul, real_add, mul_zero, add_zero]

namespace GainMap

theorem interpolate_mul (map : GainMap) {scale x y : Nat} (positive : 0 < scale)
    (column : x < map.width) (row : y < map.height) (columnWord : x < addressLimit)
    (rowWord : y < addressLimit) :
    (map.interpolate .bilinear scale (x * scale) (y * scale) : Unrounded) =
      Gain.ofByte (map.cell ⟨x, column⟩ ⟨y, row⟩) := by
  obtain ⟨left, across⟩ := Axis.locate_mul map.valid.width_pos positive column columnWord
  obtain ⟨top, down⟩ := Axis.locate_mul map.valid.height_pos positive row rowWord
  simp only [interpolate, neighbourhood, MapFilter.blend, gain, Gain.ofByte_eq, across, down,
    lerp_zero, left, top]

theorem sample_mul (map : GainMap) {scale x y : Nat} (positive : 0 < scale)
    (column : x < map.width) (row : y < map.height) :
    map.sample .bilinear scale (x * scale) (y * scale) =
      .ok (Gain.ofByte (map.cell ⟨x, column⟩ ⟨y, row⟩) : Unrounded) := by
  have width_lt := map.valid.width_lt
  have height_lt := map.valid.height_lt
  rw [sample_eq_ok_iff, Axis.cellsBefore_mul positive (by omega),
    Axis.cellsBefore_mul positive (by omega)]
  exact ⟨⟨by omega, by omega⟩,
    map.interpolate_mul positive column row (by omega) (by omega)⟩

end GainMap

end HdrGain

namespace HdrGain

open Unrounded

namespace Chroma

variable {color : Color Unrounded}

theorem Srgb.toRgb_real (exact : Color ℝ) :
    toRgb (exact.map real) = Color.map real ⟨exact.r + 1.402 * exact.b,
      exact.r - 0.34414 * exact.g - 0.71414 * exact.b, exact.r + 1.772 * exact.g⟩ := by
  simp only [toRgb, Color.map, Color.y, Color.u, Color.v, ofScientific_eq, real_mul, real_add,
    real_sub]

theorem Srgb.toRgb_isReal (colorReal : color.IsReal) : (toRgb color).IsReal := by
  obtain ⟨exact, rfl⟩ := colorReal
  exact ⟨_, toRgb_real exact⟩

theorem Srgb.toRgb_grey (luma : ℝ) :
    toRgb (⟨real luma, real 0, real 0⟩ : Color Unrounded) = Color.splat (real luma) := by
  simpa [Color.map, Color.splat] using toRgb_real ⟨luma, 0, 0⟩

theorem Bt2100.toRgb_real (exact : Color ℝ) :
    toRgb (exact.map real) = Color.map real ⟨exact.r + 1.4746 * exact.b,
      exact.r - 0.0593 * 1.8814 / 0.6780 * exact.g - 0.2627 * 1.4746 / 0.6780 * exact.b,
      exact.r + 1.8814 * exact.g⟩ := by
  have blue : (greenForBlue : Unrounded) = real (0.0593 * 1.8814 / 0.6780) :=
    real_div (by norm_num)
  have red : (greenForRed : Unrounded) = real (0.2627 * 1.4746 / 0.6780) :=
    real_div (by norm_num)
  simp only [toRgb, Color.map, Color.y, Color.u, Color.v, redRange, blueRange, blue, red,
    ofScientific_eq, real_mul, real_add, real_sub]

theorem Bt2100.toRgb_isReal (colorReal : color.IsReal) : (toRgb color).IsReal := by
  obtain ⟨exact, rfl⟩ := colorReal
  exact ⟨_, toRgb_real exact⟩

theorem Bt2100.toRgb_grey (luma : ℝ) :
    toRgb (⟨real luma, real 0, real 0⟩ : Color Unrounded) = Color.splat (real luma) := by
  simpa [Color.map, Color.splat] using toRgb_real ⟨luma, 0, 0⟩

end Chroma

namespace Codec

section Exact

variable {codec : Codec Unrounded} {config : Config Unrounded}

theorem exists_ratio (usable : Codec.ofConfig config = .ok codec) :
    ∃ ratio : ℝ, 1 < ratio ∧ config.hdrRatio = real ratio ∧
      codec.logRatio = real (Real.logb 2 ratio) := by
  obtain ⟨_, checked⟩ := config_of_ofConfig usable
  obtain ⟨⟨finite, above⟩, _⟩ := Config.validate_eq_ok_iff.mp checked
  obtain ⟨_, _, log⟩ := parts_of_ofConfig usable
  cases stands : config.hdrRatio with
  | real ratio =>
      rw [stands, ofScientific_eq, real_le] at above
      have larger : 1 < ratio := by
        norm_num at above
        exact above
      exact ⟨ratio, larger, rfl, by rw [log, stands, log2_real (one_pos.trans larger)]⟩
  | top | bottom | nan =>
      rw [stands] at finite
      cases finite

theorem luminanceWeights_positive (usable : Codec.ofConfig config = .ok codec) :
    ∃ weights : Color ℝ, codec.luminanceWeights = weights.map real ∧ weights.IsPositive :=
  Gamut.luminanceWeights?_positive (parts_of_ofConfig usable).2.1

variable {format : Format} {picture : Picture format} {x y : Nat} {color : Color Unrounded}

theorem sdrLight_isReal (usable : Codec.ofConfig config = .ok codec)
    (read : codec.sdrLight picture x y = .ok color) : color.IsReal := by
  simp only [sdrLight, block, Address.bind_eq_ok_iff, pure, Except.pure, Except.ok.injEq] at read
  obtain ⟨mean, read, rfl⟩ := read
  obtain ⟨exact, signals⟩ :=
    Chroma.Srgb.toRgb_isReal (Picture.block_isReal (scale_pos usable) read)
  rw [signals]
  obtain ⟨red, r⟩ := Transfer.Srgb.decode_isReal exact.r
  obtain ⟨green, g⟩ := Transfer.Srgb.decode_isReal exact.g
  obtain ⟨blue, b⟩ := Transfer.Srgb.decode_isReal exact.b
  exact ⟨⟨red, green, blue⟩, by simp only [Color.map, r, g, b]⟩

/-- Luminance is a number, or there is none: it never comes to endless light. -/
theorem luminance_bounded (usable : Codec.ofConfig config = .ok codec) {signal : Color ℝ}
    {transfer : HdrTransfer} :
    (codec.luminance (codec.toSdrGamut ((signal.map real).map transfer.decode))).Bounded := by
  obtain ⟨converts, _, _⟩ := parts_of_ofConfig usable
  obtain ⟨weights, weighs, positive⟩ := luminanceWeights_positive usable
  have decoded : ((signal.map real).map transfer.decode).IsReal ∨
      ((signal.map real).map transfer.decode).HasSunk :=
    Color.isReal_or_hasSunk (Transfer.decode_bounded transfer signal.r)
      (Transfer.decode_bounded transfer signal.g) (Transfer.decode_bounded transfer signal.b)
  rw [luminance, weighs]
  rcases decoded with ⟨light, lit⟩ | sunk
  · obtain ⟨shares, _, linear⟩ := Gamut.luminance_convert converts positive
    rw [lit, linear]
    exact .inl ⟨_, rfl⟩
  · exact .inr (Color.dot_sunk positive (Gamut.hasSunk_convert converts sunk))

theorem luminance_hdrLight_bounded (usable : Codec.ofConfig config = .ok codec)
    (read : codec.hdrLight picture x y = .ok color) : (codec.luminance color).Bounded := by
  simp only [hdrLight, block, Address.bind_eq_ok_iff, pure, Except.pure, Except.ok.injEq] at read
  obtain ⟨mean, read, rfl⟩ := read
  obtain ⟨signal, signals⟩ :=
    Chroma.Bt2100.toRgb_isReal (Picture.block_isReal (scale_pos usable) read)
  rw [signals]
  exact luminance_bounded usable

theorem luminance_sdrLight_isReal (usable : Codec.ofConfig config = .ok codec)
    (read : codec.sdrLight picture x y = .ok color) :
    ∃ number, codec.luminance color = real number := by
  obtain ⟨weights, weighs, _⟩ := luminanceWeights_positive usable
  obtain ⟨exact, rfl⟩ := sdrLight_isReal usable read
  exact ⟨_, by rw [luminance, weighs, Color.dot_real]⟩

/-- A gain multiplies the luminance of every color without negative channels. -/
theorem luminance_applyGain (usable : Codec.ofConfig config = .ok codec) {ratio : ℝ}
    (above : 0 < ratio) (log : codec.logRatio = real (Real.logb 2 ratio)) (gain : ℝ)
    {base : Color Unrounded} (shining : base.IsShining) :
    codec.luminance (codec.applyGain base (real gain)) =
      codec.luminance base * real (ratio ^ gain) := by
  obtain ⟨weights, weighs, positive⟩ := luminanceWeights_positive usable
  have applied : codec.applyGain base (real gain) = base * real (ratio ^ gain) := by
    rw [applyGain, log]
    exact Gain.map_applyLog shining above gain
  rw [applied, luminance, luminance, weighs]
  exact Color.dot_mul positive shining (Real.rpow_pos_of_pos above gain)

variable {sdrFormat hdrFormat : Format} {sdr : Picture sdrFormat} {hdr : Picture hdrFormat}
  {columns rows : Nat} {bytes : Array UInt8} {map : GainMap}

/-- The gain that is sampled on a cell is the one that the byte of the cell stands for. -/
theorem gainAt_mul (usable : Codec.ofConfig config = .ok codec)
    (filter : config.mapFilter = .bilinear)
    (sizes : codec.mapSize sdr.width sdr.height = (columns, rows))
    (swept : codec.mapBytes sdr hdr = .ok bytes)
    (accepted : GainMap.ofBytes columns rows bytes = .ok map) (column : x < columns)
    (row : y < rows) :
    ∃ byte, codec.mapByte sdr hdr x y = .ok byte ∧
      codec.gainAt map (x * config.mapScaleFactor) (y * config.mapScaleFactor) =
        .ok (Gain.ofByte byte) := by
  obtain ⟨byte, made, kept⟩ := (holdsCells_of_mapBytes sizes swept).cell column row
  obtain ⟨rfl, _⟩ := config_of_ofConfig usable
  obtain ⟨rfl, rfl, rfl⟩ := GainMap.ofBytes_eq_ok_iff.mp accepted
  have cell : map.cell ⟨x, column⟩ ⟨y, row⟩ = byte := by
    obtain ⟨_, held⟩ := Array.getElem?_eq_some_iff.mp kept
    exact held
  refine ⟨byte, made, ?_⟩
  rw [gainAt, filter, map.sample_mul (scale_pos usable) column row, cell]

theorem exists_map (usable : Codec.ofConfig config = .ok codec)
    (sizes : codec.mapSize sdr.width sdr.height = (columns, rows))
    (swept : codec.mapBytes sdr hdr = .ok bytes) (column : x < columns) (row : y < rows) :
    ∃ map, GainMap.ofBytes columns rows bytes = .ok map := by
  have size := (holdsCells_of_mapBytes sizes swept).1
  obtain ⟨rfl, rfl⟩ := Prod.mk.inj sizes
  have columns := Nat.div_pos_iff.mp (Nat.zero_lt_of_lt column)
  have rows := Nat.div_pos_iff.mp (Nat.zero_lt_of_lt row)
  have enough : sdr.width / codec.config.mapScaleFactor *
      (sdr.height / codec.config.mapScaleFactor) ≤ bytes.size := by
    rw [size, Nat.mul_comm]
  exact (GainMap.ofBytes_div (scale_pos usable) sdr.valid.2 enough).1.mpr ⟨columns.2, rows.2⟩

/-- With a cell for each pixel, the pixel is restored from its own light and its own cell. -/
theorem restore_one (unit : codec.config.mapScaleFactor = 1) {gain : Unrounded}
    (sampled : codec.gainAt map x y = .ok gain) (read : codec.sdrLight sdr x y = .ok color) :
    ∃ restored, codec.restore map sdr x y = .ok restored ∧
      restored.hdr = codec.applyGain color gain := by
  have pixels : { codec with config := { codec.config with mapScaleFactor := 1 } } = codec := by
    rw [← unit]
  simp only [restore, pixels, sampled, read]
  exact ⟨_, rfl, rfl⟩

theorem block_one (unit : codec.config.mapScaleFactor = 1) (contained : picture.Contains x y) :
    codec.block picture x y = picture.pixel x y := by
  rw [block, unit, Picture.block_one contained]

theorem sdrLight_one (unit : codec.config.mapScaleFactor = 1) (contained : sdr.Contains x y)
    (read : codec.sdrLight sdr x y = .ok color) :
    ∃ pixel, sdr.pixel x y = .ok pixel ∧
      color = (Chroma.Srgb.toRgb pixel).map Transfer.Srgb.decode := by
  rw [sdrLight, block_one unit contained, Address.bind_eq_ok_iff] at read
  obtain ⟨pixel, read, same⟩ := read
  exact ⟨pixel, read, (Except.ok.inj same).symm⟩

/-- On every cell whose blocks are lit, a configuration without rounding and with the bilinear
filter multiplies the luminance of a color by the ratio of the two blocks, within the largest ratio
and up to the step of a byte. Where each pixel has a cell, that restores the luminance of the HDR
pixel, up to the step. -/
theorem luminance_restored (usable : Codec.ofConfig config = .ok codec)
    (filter : config.mapFilter = .bilinear) (sdr : Picture .yuv420) (hdr : Picture .p010)
    (sizes : codec.mapSize sdr.width sdr.height = (columns, rows))
    (swept : codec.mapBytes sdr hdr = .ok bytes) (column : x < columns) (row : y < rows) :
    ∃ (ratio : ℝ) (map : GainMap) (sdrLight hdrLight : Color Unrounded),
      config.hdrRatio = real ratio ∧ GainMap.ofBytes columns rows bytes = .ok map ∧
      codec.sdrLight sdr x y = .ok sdrLight ∧ codec.hdrLight hdr x y = .ok hdrLight ∧
      ((0.0 : Unrounded) < codec.luminance sdrLight →
        (0.0 : Unrounded) < codec.luminance hdrLight →
        ∃ (sdrLuminance hdrLuminance gain : ℝ) (sampled : Unrounded),
          codec.luminance sdrLight = real sdrLuminance ∧
          codec.luminance hdrLight = real hdrLuminance ∧
          codec.gainAt map (x * config.mapScaleFactor) (y * config.mapScaleFactor) =
            .ok sampled ∧
          Gain.target sdrLuminance hdrLuminance ratio - 2 / 255 < gain ∧
          gain ≤ Gain.target sdrLuminance hdrLuminance ratio ∧
          (∀ base : Color Unrounded, base.IsShining →
            codec.luminance (codec.applyGain base sampled) =
              codec.luminance base * real (ratio ^ gain)) ∧
          (config.mapScaleFactor = 1 → sdrLight.IsShining →
            sdrLuminance / ratio ≤ hdrLuminance → hdrLuminance ≤ sdrLuminance * ratio →
            ∃ (pixel : Color Unrounded) (restored : Restored Unrounded) (light : ℝ),
              sdr.pixel x y = .ok pixel ∧
              sdrLight = (Chroma.Srgb.toRgb pixel).map Transfer.Srgb.decode ∧
              codec.restore map sdr x y = .ok restored ∧
              restored.hdr = codec.applyGain sdrLight sampled ∧
              codec.luminance restored.hdr = real light ∧
              hdrLuminance * ratio ^ (-(2 / 255) : ℝ) < light ∧ light ≤ hdrLuminance)) := by
  obtain ⟨ratio, above, stands, log⟩ := exists_ratio usable
  have positive : 0 < ratio := one_pos.trans above
  have scale := scale_pos usable
  obtain ⟨same, _⟩ := config_of_ofConfig usable
  have holds := holdsCells_of_mapBytes sizes swept
  obtain ⟨map, accepted⟩ := exists_map usable sizes swept column row
  obtain ⟨byte, made, sampled⟩ := gainAt_mul usable filter sizes swept accepted column row
  obtain ⟨hdrLight, sdrLight, hdrRead, sdrRead, encoded⟩ := mapByte_eq_ok_iff.mp made
  refine ⟨ratio, map, sdrLight, hdrLight, stands, accepted, sdrRead, hdrRead,
    fun sdrLit hdrLit => ?_⟩
  obtain ⟨sdrLuminance, sdrIs⟩ := luminance_sdrLight_isReal usable sdrRead
  obtain ⟨hdrLuminance, hdrIs⟩ : ∃ number, codec.luminance hdrLight = real number :=
    (luminance_hdrLight_bounded usable hdrRead).resolve_right fun sunk => sunk.not_pos hdrLit
  rw [sdrIs, zero_eq, real_lt] at sdrLit
  rw [hdrIs, zero_eq, real_lt] at hdrLit
  have gain : (Gain.ofByte byte : Unrounded) =
      real (Gain.quantised (Gain.target sdrLuminance hdrLuminance ratio)) := by
    rw [← encoded, gainByte, sdrIs, hdrIs, same, stands, log, ← log2_real positive]
    exact Gain.ofByte_encode sdrLit above hdrLit
  rw [gain] at sampled
  have short := Gain.lt_quantised (Gain.target sdrLuminance hdrLuminance ratio)
  have within := Gain.quantised_le (Gain.target_mem sdrLuminance hdrLuminance ratio).1
  refine ⟨sdrLuminance, hdrLuminance, _, _, sdrIs, hdrIs, sampled, short, within,
    fun base shining => luminance_applyGain usable positive log _ shining,
    fun unit shining lower upper => ?_⟩
  rw [unit, Nat.mul_one, Nat.mul_one] at sampled
  rw [← same] at unit
  have contained : sdr.Contains x y := by
    rw [mapSize, unit, Nat.div_one, Nat.div_one] at sizes
    obtain ⟨rfl, rfl⟩ := Prod.mk.inj sizes
    exact ⟨column, row⟩
  obtain ⟨pixel, read, decoded⟩ := sdrLight_one unit contained sdrRead
  obtain ⟨restored, made, applied⟩ := restore_one unit sampled sdrRead
  have light : codec.luminance restored.hdr = real (sdrLuminance *
      ratio ^ Gain.quantised (Gain.target sdrLuminance hdrLuminance ratio)) := by
    rw [applied, luminance_applyGain usable positive log _ shining, sdrIs, real_mul]
  exact ⟨pixel, restored, _, read, decoded, made, applied, light,
    Gain.mul_rpow_between sdrLit hdrLit above lower upper short within⟩

/-- A white pixel, and a grey one at the knee of hybrid log-gamma, whose light is a twelfth. -/
theorem knee_restored_on_white :
    ∃ (config : Config Unrounded) (codec : Codec Unrounded) (sdr : Picture .yuv420)
      (hdr : Picture .p010) (bytes : Array UInt8) (map : GainMap) (restored : Restored Unrounded)
      (light : ℝ),
      Codec.ofConfig config = .ok codec ∧ config.mapFilter = .bilinear ∧
      codec.mapSize sdr.width sdr.height = (1, 1) ∧ codec.mapBytes sdr hdr = .ok bytes ∧
      GainMap.ofBytes 1 1 bytes = .ok map ∧ codec.restore map sdr 0 0 = .ok restored ∧
      codec.luminance restored.hdr = real light ∧
      1 / 12 * 16 ^ (-(2 / 255) : ℝ) < light ∧ light ≤ 1 / 12 := by
  obtain ⟨sdr, sdrWidth, sdrHeight, white, uncolored⟩ : ∃ sdr : Picture .yuv420,
      sdr.width = 1 ∧ sdr.height = 1 ∧ sdr.luma 0 0 = .ok 255 ∧ sdr.chroma 0 0 = .ok (128, 128) :=
    ⟨⟨1, 1, #[(255 : UInt8), (128 : UInt8)], by decide, by decide, by decide⟩, rfl, rfl, rfl, rfl⟩
  obtain ⟨hdr, hdrWidth, hdrHeight, half, grey⟩ : ∃ hdr : Picture .p010,
      hdr.width = 1 ∧ hdr.height = 1 ∧ hdr.luma 0 0 = .ok 470 ∧ hdr.chroma 0 0 = .ok (534, 534) :=
    ⟨⟨1, 1, #[(30080 : UInt16), (34176 : UInt16), (34176 : UInt16)], by decide, by decide,
      by decide⟩, rfl, rfl, rfl, rfl⟩
  have checked : Config.validate (α := Unrounded) ⟨16.0, 1, .bt709, .bt709, .hlg, .bilinear⟩ =
      .ok () := by
    refine Config.validate_eq_ok_iff.mpr ⟨⟨rfl, ?_⟩, by decide, by decide, by decide⟩
    change ¬ (16.0 : ℝ) ≤ 1.0
    norm_num
  have usable := ofConfig_eq checked rfl rfl
  have sizes : mapSize (α := Unrounded)
      ⟨⟨16.0, 1, .bt709, .bt709, .hlg, .bilinear⟩, Elementary.log2 16.0, id, Gamut.bt709Weights⟩
      sdr.width sdr.height = (1, 1) := by
    rw [sdrWidth, sdrHeight]
    rfl
  have sdrContained : sdr.Contains 0 0 := ⟨by omega, by omega⟩
  have hdrContained : hdr.Contains 0 0 := ⟨by omega, by omega⟩
  have covers (x y : Nat) (column : x < 1) (row : y < 1) :
      sdr.CoversBlock 1 x y ∧ hdr.CoversBlock 1 x y := by
    obtain rfl : x = 0 := by omega
    obtain rfl : y = 0 := by omega
    exact ⟨Picture.coversBlock_one sdrContained, Picture.coversBlock_one hdrContained⟩
  obtain ⟨bytes, swept, _⟩ := mapBytes_holdsCells sizes covers
  obtain ⟨ratio, map, sdrLight, hdrLight, stands, accepted, sdrRead, hdrRead, lit⟩ :=
    luminance_restored usable rfl sdr hdr sizes swept (x := 0) (y := 0) one_pos one_pos
  obtain rfl : ratio = 16 := by
    have same := Unrounded.real.inj stands
    norm_num at same
    exact same.symm
  obtain rfl : sdrLight = Color.splat (real 1) := by
    obtain ⟨pixel, read, decoded⟩ := sdrLight_one rfl sdrContained sdrRead
    rw [Picture.pixel_eq white uncolored, Format.normalise_white] at read
    cases read
    rw [decoded, Chroma.Srgb.toRgb_grey]
    exact congrArg Color.splat Transfer.Srgb.decode_one
  obtain rfl : hdrLight = Color.splat (real (1 / 12)) := by
    rw [Codec.hdrLight, block_one rfl hdrContained, Picture.pixel_eq half grey,
      Format.normalise_half] at hdrRead
    cases hdrRead
    rw [Chroma.Bt2100.toRgb_grey]
    exact congrArg Color.splat Transfer.Hlg.decode_half
  obtain ⟨sdrLuminance, hdrLuminance, gain, sampled, sdrIs, hdrIs, _, _, _, _, restored⟩ :=
    lit (by rw [luminance, Gamut.bt709Weights_dot_splat, zero_eq, real_lt]; norm_num)
      (by rw [luminance, Gamut.bt709Weights_dot_splat, zero_eq, real_lt]; norm_num)
  rw [luminance, Gamut.bt709Weights_dot_splat] at sdrIs hdrIs
  cases sdrIs
  cases hdrIs
  have shining : (Color.splat (real 1)).IsShining := by
    have lit : (0.0 : Unrounded) ≤ real 1 := by
      rw [zero_eq, real_le]
      norm_num
    exact ⟨lit, lit, lit⟩
  obtain ⟨_, pixel, light, _, _, made, _, lightIs, above, below⟩ :=
    restored rfl shining (by norm_num) (by norm_num)
  exact ⟨_, _, sdr, hdr, bytes, map, pixel, light, usable, rfl, sizes, swept, accepted, made,
    lightIs, above, below⟩

end Exact

end Codec

end HdrGain
