import HdrGain.Image.Picture
import HdrGain.Proofs.Scalar.Exact
import HdrGain.Proofs.Scalar.SignedZeros

namespace HdrGain

open Rounding

/-- Every channel is a number or an end, and none is the lower zero. -/
def Color.IsUpper (color : Color Float32) : Prop :=
  ∀ channel, (color.channels channel).isNaN = false ∧ color.channels channel ≠ -0.0

theorem Color.IsUpper.mean_eq {color : Color Float32} (upper : color.IsUpper) :
    (Color.zero + color) / (Scalar.ofNat 1 : Float32) = color := by
  have kept (channel : Fin 3) :
      (0.0 + color.channels channel) / 1.0 = color.channels channel :=
    zero_add_div_unit_eq_iff.mpr (upper channel).2
  have r := kept 0
  have g := kept 1
  have b := kept 2
  cases color
  exact (Color.mk.injEq ..).mpr ⟨r, g, b⟩

namespace Format

theorem level_lt (format : Format) (sample : format.Sample) : format.level sample < 2 ^ 10 := by
  cases format with
  | yuv420 => exact (UInt8.toNat_lt sample).trans (by decide)
  | p010 =>
      have word := UInt16.toNat_lt sample
      change (sample >>> 6).toNat < 2 ^ 10
      rw [UInt16.toNat_shiftRight, Nat.shiftRight_eq_div_pow]
      change sample.toNat / 2 ^ 6 < 2 ^ 10
      omega

section Channels

variable {level : ℕ} {origin white : Float32} {number : ℚ}

theorem upper_luma (inside : level ≤ 2 ^ 10) (stands : numberOf? white = some number)
    (least : 1 ≤ number) (most : number ≤ 2 ^ 10) :
    Upper (Scalar.ofNat level / white) 10 10 :=
  (Upper.ofNat inside (by decide)).div stands least most (by decide) (by decide)

theorem upper_chroma (inside : level ≤ 2 ^ 10) (clear : Clear origin 0 10)
    (stands : numberOf? white = some number) (least : 1 ≤ number) (most : number ≤ 2 ^ 10) :
    Upper ((Scalar.ofNat level - origin) / white) 33 11 :=
  ((Upper.ofNat inside (by decide)).sub clear (by decide) (by decide)).div stands least most
    (by decide) (by decide)

end Channels

theorem numberOf?_fullWhite : numberOf? 255.0 = some 255 := by
  have unpacked : (255.0 : Float32).toModel.unpack =
      .finite .positive 16711680 (-16) (by decide) := by rfl
  rw [numberOf?_of_unpack unpacked]
  norm_num [signed]

theorem numberOf?_narrowWhite : numberOf? 940.0 = some 940 := by
  have unpacked : (940.0 : Float32).toModel.unpack =
      .finite .positive 15400960 (-14) (by decide) := by rfl
  rw [numberOf?_of_unpack unpacked]
  norm_num [signed]

theorem clear_fullOrigin : Clear 128.0 0 8 := by
  have unpacked : (128.0 : Float32).toModel.unpack =
      .finite .positive 8388608 (-16) (by decide) := by rfl
  exact .of_unpack unpacked (by norm_num) (by norm_num)

theorem clear_narrowOrigin : Clear 64.0 0 8 := by
  have unpacked : (64.0 : Float32).toModel.unpack =
      .finite .positive 8388608 (-17) (by decide) := by rfl
  exact .of_unpack unpacked (by norm_num) (by norm_num)

theorem clear_half : Clear 0.5 1 0 := by
  have unpacked : (0.5 : Float32).toModel.unpack =
      .finite .positive 8388608 (-24) (by decide) := by rfl
  exact .of_unpack unpacked (by norm_num) (by norm_num)

theorem isUpper_normalise (format : Format) {luma u v : ℕ} (lumaInside : luma ≤ 2 ^ 10)
    (uInside : u ≤ 2 ^ 10) (vInside : v ≤ 2 ^ 10) :
    (format.normalise luma u v : Color Float32).IsUpper := by
  cases format with
  | yuv420 =>
      have brightness : Upper (Scalar.ofNat luma / 255.0) 10 10 :=
        upper_luma lumaInside numberOf?_fullWhite (by norm_num) (by norm_num)
      have difference {level : ℕ} (inside : level ≤ 2 ^ 10) :
          Upper ((Scalar.ofNat level - 128.0) / 255.0) 33 11 :=
        upper_chroma inside (clear_fullOrigin.mono (by decide) (by decide)) numberOf?_fullWhite
          (by norm_num) (by norm_num)
      intro channel
      fin_cases channel
      · exact brightness.kept
      · exact (difference uInside).kept
      · exact (difference vInside).kept
  | p010 =>
      have brightness : Upper (Scalar.ofNat luma / 940.0) 10 10 :=
        upper_luma lumaInside numberOf?_narrowWhite (by norm_num) (by norm_num)
      have difference {level : ℕ} (inside : level ≤ 2 ^ 10) :
          Upper ((Scalar.ofNat level - 64.0) / 940.0 - 0.5) 56 12 :=
        (upper_chroma inside (clear_narrowOrigin.mono (by decide) (by decide))
          numberOf?_narrowWhite (by norm_num) (by norm_num)).sub
            (clear_half.mono (by decide) (by decide)) (by decide) (by decide)
      intro channel
      fin_cases channel
      · exact brightness.kept
      · exact (difference uInside).kept
      · exact (difference vInside).kept

end Format

namespace Picture

variable {format : Format} {picture : Picture format} {x y : ℕ}

theorem level_lt {component : Component} {found : ℕ}
    (read : picture.level component x y = .ok found) : found < 2 ^ 10 := by
  obtain ⟨_, held⟩ := level_eq_ok_iff.mp read
  obtain ⟨sample, _, rfl⟩ := Option.map_eq_some_iff.mp held
  exact format.level_lt sample

theorem isUpper_pixel {color : Color Float32} (read : picture.pixel x y = .ok color) :
    color.IsUpper := by
  simp only [pixel, luma, chroma, Address.bind_eq_ok_iff, pure, Except.pure,
    Except.ok.injEq] at read
  obtain ⟨luma, lumaRead, _, ⟨u, uRead, v, vRead, rfl⟩, rfl⟩ := read
  exact format.isUpper_normalise (level_lt lumaRead).le (level_lt uRead).le (level_lt vRead).le

theorem block_one_eq_pixel (column : x < addressLimit) (row : y < addressLimit) :
    picture.block 1 x y = (picture.pixel x y : Except Fault (Color Float32)) := by
  rw [block_one_eq_map column row]
  cases read : (picture.pixel x y : Except Fault (Color Float32)) with
  | error fault => rfl
  | ok color => exact congrArg Except.ok (isUpper_pixel read).mean_eq

/-- At a scale of one, every block of a picture or of a source is its pixel or faults as its pixel
does, at all coordinates that words can hold. The pixels of both formats are numbers, and none of
their channels is the lower zero, the only float besides what is no number that its own mean could
differ from. -/
theorem unit_blocks_are_pixels (x y : UInt64) :
    (∀ {format : Format} (picture : Picture format),
      picture.block 1 x.toNat y.toNat =
        (picture.pixel x.toNat y.toNat : Except Fault (Color Float32))) ∧
    (∀ source : Source, source.block 1 x.toNat y.toNat =
      (source.pixel x.toNat y.toNat : Except Fault (Color Float32))) ∧
    (∀ {format : Format} (picture : Picture format) (color : Color Float32),
      picture.pixel x.toNat y.toNat = .ok color →
        ∀ channel, (color.channels channel).isNaN = false ∧ color.channels channel ≠ -0.0) ∧
    ∀ value : Float32, value.isNaN = false →
      ((0.0 + value) / Scalar.ofNat 1 = value ↔ value ≠ -0.0) := by
  have column : x.toNat < addressLimit := x.toNat_lt
  have row : y.toNat < addressLimit := y.toNat_lt
  refine ⟨fun picture => block_one_eq_pixel column row, fun source => ?_,
    fun picture color read => isUpper_pixel read, fun value _ => zero_add_div_unit_eq_iff⟩
  cases source with
  | yuv420 picture => exact block_one_eq_pixel column row
  | p010 picture => exact block_one_eq_pixel column row

/-- Black without chroma, where all that is taken off leaves the upper zero, and a pixel to the
right of the picture, the luma of which is still in the buffer. -/
theorem neutral_black_kept :
    ∃ picture : Picture .p010,
      ofSamples 2 2 #[0, 0, 0, 0, 34176, 34176] = .ok picture ∧
      picture.pixel 0 0 = .ok (⟨0.0, 0.0, 0.0⟩ : Color Float32) ∧
      picture.block 1 0 0 = .ok (⟨0.0, 0.0, 0.0⟩ : Color Float32) ∧
      (∀ channel, ((⟨0.0, 0.0, 0.0⟩ : Color Float32).channels channel).isNaN = false ∧
        (⟨0.0, 0.0, 0.0⟩ : Color Float32).channels channel ≠ -0.0) ∧
      ((Source.p010 picture).block 1 5 0 : Except Fault (Color Float32)) =
        .error (.outOfRange 6 8) ∧
      (0.5 : Float32).isNaN = false ∧ (0.0 + 0.5) / Scalar.ofNat 1 = (0.5 : Float32) := by
  obtain ⟨picture, accepted⟩ : ∃ picture : Picture .p010,
      ofSamples 2 2 #[0, 0, 0, 0, 34176, 34176] = .ok picture := ⟨_, rfl⟩
  have black : picture.pixel 0 0 = .ok (⟨0.0, 0.0, 0.0⟩ : Color Float32) := by
    cases accepted
    rfl
  have outside : (picture.pixel 5 0 : Except Fault (Color Float32)) = .error (.outOfRange 6 8) := by
    cases accepted
    rfl
  obtain ⟨pictures, -, upper, means⟩ := unit_blocks_are_pixels 0 0
  obtain ⟨-, sources, -, -⟩ := unit_blocks_are_pixels 5 0
  exact ⟨picture, accepted, black, (pictures picture).trans black, upper picture _ black,
    (sources (.p010 picture)).trans outside, by decide, (means 0.5 (by decide)).mpr (by decide)⟩

end Picture

end HdrGain
