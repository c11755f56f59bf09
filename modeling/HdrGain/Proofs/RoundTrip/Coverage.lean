import HdrGain.Codec
import HdrGain.Proofs.Codec.Resolution
import HdrGain.Proofs.GainMap.Reach
import HdrGain.Proofs.Image.Acceptance
import HdrGain.Proofs.Image.Tiling

namespace HdrGain

namespace Codec

variable {α : Type} [Scalar α] [Elementary α] {codec : Codec α}
  {sdrFormat hdrFormat : Format} {sdr : Picture sdrFormat} {hdr : Picture hdrFormat}

theorem mapByte_eq_ok_iff {x y : Nat} {byte : UInt8} :
    codec.mapByte sdr hdr x y = .ok byte ↔
      ∃ hdrLight sdrLight, codec.hdrLight hdr x y = .ok hdrLight ∧
        codec.sdrLight sdr x y = .ok sdrLight ∧
          codec.gainByte (codec.luminance sdrLight) (codec.luminance hdrLight) = byte := by
  simp only [mapByte, Address.bind_eq_ok_iff, pure, Except.pure, Except.ok.injEq]
  constructor
  · intro made
    obtain ⟨hdrLight, hdrRead, sdrLight, sdrRead, same⟩ := made
    exact ⟨hdrLight, sdrLight, hdrRead, sdrRead, same⟩
  · intro made
    obtain ⟨hdrLight, sdrLight, hdrRead, sdrRead, same⟩ := made
    exact ⟨hdrLight, hdrRead, sdrLight, sdrRead, same⟩

theorem exists_mapByte {x y : Nat} (sdrCovers : sdr.CoversBlock codec.config.mapScaleFactor x y)
    (hdrCovers : hdr.CoversBlock codec.config.mapScaleFactor x y) :
    ∃ byte, codec.mapByte sdr hdr x y = .ok byte := by
  obtain ⟨sdrMean, sdrRead⟩ := Picture.exists_block (α := α) sdrCovers
  obtain ⟨hdrMean, hdrRead⟩ := Picture.exists_block (α := α) hdrCovers
  simp only [mapByte, hdrLight, sdrLight, block, sdrRead, hdrRead]
  exact ⟨_, rfl⟩

/-- The bytes are those of the first `count` cells in rows of `columns`. -/
def HoldsCells (codec : Codec α) (sdr : Picture sdrFormat) (hdr : Picture hdrFormat)
    (columns count : Nat) (bytes : Array UInt8) : Prop :=
  bytes.size = count ∧ ∀ index, index < count →
    ∃ byte, codec.mapByte sdr hdr (index % columns) (index / columns) = .ok byte ∧
      bytes[index]? = some byte

theorem HoldsCells.push {columns count : Nat} {bytes : Array UInt8} {byte : UInt8}
    (holds : codec.HoldsCells sdr hdr columns count bytes)
    (next : codec.mapByte sdr hdr (count % columns) (count / columns) = .ok byte) :
    codec.HoldsCells sdr hdr columns (count + 1) (bytes.push byte) := by
  obtain ⟨size, cells⟩ := holds
  refine ⟨by rw [Array.size_push, size], fun index before => ?_⟩
  rcases Nat.lt_or_eq_of_le (Nat.le_of_lt_succ before) with earlier | last
  · obtain ⟨found, made, kept⟩ := cells index earlier
    refine ⟨found, made, ?_⟩
    rw [Array.getElem?_push_lt (by omega)]
    rw [Array.getElem?_eq_getElem (by omega)] at kept
    exact kept
  · refine ⟨byte, by rw [last]; exact next, ?_⟩
    rw [last, ← size]
    exact Array.getElem?_push_size

section Cells

variable {columns rows : Nat} {bytes : Array UInt8}

theorem HoldsCells.cell {x y : Nat}
    (holds : codec.HoldsCells sdr hdr columns (rows * columns) bytes) (column : x < columns)
    (row : y < rows) :
    ∃ byte, codec.mapByte sdr hdr x y = .ok byte ∧ bytes[x + y * columns]? = some byte := by
  have inside : (y + 1) * columns ≤ rows * columns := Nat.mul_le_mul_right _ row
  rw [Nat.add_mul, Nat.one_mul] at inside
  obtain ⟨byte, made, kept⟩ := holds.2 (x + y * columns) (by omega)
  obtain ⟨columnOf, rowOf⟩ := rowPlace_divMod y column
  rw [columnOf, rowOf] at made
  exact ⟨byte, made, kept⟩

variable (sizes : codec.mapSize sdr.width sdr.height = (columns, rows))

include sizes

/-- A sweep that comes to its end has passed every cell. -/
theorem holdsCells_of_mapBytes (swept : codec.mapBytes sdr hdr = .ok bytes) :
    codec.HoldsCells sdr hdr columns (rows * columns) bytes := by
  have started : codec.HoldsCells sdr hdr columns (0 * columns) #[] := by
    rw [Nat.zero_mul]
    exact ⟨rfl, fun index before => absurd before (Nat.not_lt_zero index)⟩
  have reached : rows * columns = (0 + rows) * columns := by rw [Nat.zero_add]
  unfold mapBytes at swept
  rw [sizes] at swept
  rw [reached]
  refine foldPositions_preserves
    (motive := fun y bytes => codec.HoldsCells sdr hdr columns (y * columns) bytes) swept started
    (fun bytes y next _ _ held stepped => ?_)
  have row : (y + 1) * columns = 0 + columns + y * columns := by
    rw [Nat.succ_mul]
    omega
  rw [row]
  refine foldPositions_preserves
    (motive := fun x bytes => codec.HoldsCells sdr hdr columns (x + y * columns) bytes) stepped
    (by rw [Nat.zero_add]; exact held) (fun bytes x next _ column held pushed => ?_)
  rw [Nat.zero_add] at column
  cases made : codec.mapByte sdr hdr x y with
  | error fault =>
      rw [made] at pushed
      cases pushed
  | ok byte =>
      rw [made] at pushed
      cases pushed
      obtain ⟨columnOf, rowOf⟩ := rowPlace_divMod y column
      rw [Nat.add_right_comm]
      apply held.push
      rw [columnOf, rowOf]
      exact made

theorem exists_mapBytes_iff :
    (∃ bytes, codec.mapBytes sdr hdr = .ok bytes) ↔
      ∀ x y, x < columns → y < rows → ∃ byte, codec.mapByte sdr hdr x y = .ok byte := by
  constructor
  · rintro ⟨bytes, swept⟩ x y column row
    obtain ⟨byte, made, _⟩ := (holdsCells_of_mapBytes sizes swept).cell column row
    exact ⟨byte, made⟩
  · intro cells
    unfold mapBytes
    rw [sizes]
    refine exists_foldPositions (fun bytes y _ row => ?_) #[]
    refine exists_foldPositions (fun bytes x _ column => ?_) bytes
    obtain ⟨byte, made⟩ := cells x y (by omega) (by omega)
    exact ⟨bytes.push byte, by rw [made]; rfl⟩

/-- The sweep faults at no cell whose block lies in both pictures. -/
theorem mapBytes_holdsCells
    (covers : ∀ x y, x < columns → y < rows →
      sdr.CoversBlock codec.config.mapScaleFactor x y ∧
        hdr.CoversBlock codec.config.mapScaleFactor x y) :
    ∃ bytes, codec.mapBytes sdr hdr = .ok bytes ∧
      codec.HoldsCells sdr hdr columns (rows * columns) bytes := by
  obtain ⟨bytes, swept⟩ := (exists_mapBytes_iff sizes).mpr fun x y column row =>
    exists_mapByte (covers x y column row).1 (covers x y column row).2
  exact ⟨bytes, swept, holdsCells_of_mapBytes sizes swept⟩

end Cells

end Codec

/-- The sides of a picture stay below the words that its samples are counted with. -/
theorem Picture.sides_lt (picture : Picture .yuv420) :
    picture.width < 2 ^ 62 ∧ picture.height < 2 ^ 62 := by
  have samples : picture.width * picture.height * 5 < addressLimit :=
    Nat.lt_of_le_of_lt (Nat.le_max_left _ _) picture.addressable
  have width_le := Nat.le_mul_of_pos_right picture.width picture.valid.height_pos
  have height_le := Nat.le_mul_of_pos_left picture.height picture.valid.width_pos
  have limit : addressLimit = 2 ^ 64 := rfl
  omega

/-- The samples of a picture are counted in words, and so both sides together have few places. -/
theorem Picture.sides_le (picture : Picture .yuv420) :
    ∃ columns rows, columns + rows ≤ 63 ∧ picture.width ≤ 2 ^ columns ∧
      picture.height ≤ 2 ^ rows := by
  have samples : picture.width * picture.height * 5 < 2 ^ 64 :=
    Nat.lt_of_le_of_lt (Nat.le_max_left _ _) picture.addressable
  have width := Nat.log2_self_le picture.valid.width_pos.ne'
  have height := Nat.log2_self_le picture.valid.height_pos.ne'
  have pixels : 2 ^ (picture.width.log2 + picture.height.log2) < 2 ^ 62 := by
    rw [Nat.pow_add]
    have product := Nat.mul_le_mul width height
    omega
  have places := (Nat.pow_lt_pow_iff_right (by decide)).mp pixels
  exact ⟨picture.width.log2 + 1, picture.height.log2 + 1, by omega, Nat.lt_log2_self.le,
    Nat.lt_log2_self.le⟩

/-- There is a cell exactly if there is a whole block. -/
theorem GainMap.ofBytes_div {width height scale : Nat} {bytes : Array UInt8} (positive : 0 < scale)
    (countable : width * height < addressLimit)
    (enough : width / scale * (height / scale) ≤ bytes.size) :
    ((∃ map, GainMap.ofBytes (width / scale) (height / scale) bytes = .ok map) ↔
      scale ≤ width ∧ scale ≤ height) ∧
    (¬ (scale ≤ width ∧ scale ≤ height) →
      GainMap.ofBytes (width / scale) (height / scale) bytes =
        .error (.invalidDimensions (width / scale) (height / scale))) := by
  have few : width / scale * (height / scale) ≤ width * height :=
    Nat.mul_le_mul (Nat.div_le_self _ _) (Nat.div_le_self _ _)
  have valid : ValidDimensions (width / scale) (height / scale) ↔
      scale ≤ width ∧ scale ≤ height := by
    constructor
    · intro cells
      exact ⟨(Nat.div_pos_iff.mp cells.width_pos).2, (Nat.div_pos_iff.mp cells.height_pos).2⟩
    · intro whole
      obtain ⟨columns, rows⟩ := whole
      exact ⟨Nat.mul_pos (Nat.div_pos columns positive) (Nat.div_pos rows positive),
        Nat.lt_of_le_of_lt few countable⟩
  refine ⟨⟨?_, fun whole => ?_⟩, fun none => ?_⟩
  · intro made
    obtain ⟨map, accepted⟩ := made
    obtain ⟨columns, rows, _⟩ := GainMap.ofBytes_eq_ok_iff.mp accepted
    have cells := map.valid
    rw [columns, rows] at cells
    exact valid.mp cells
  · exact ⟨⟨_, _, bytes, valid.mpr whole, enough⟩,
      GainMap.ofBytes_eq_ok_iff.mpr ⟨rfl, rfl, rfl⟩⟩
  · simp only [GainMap.ofBytes, dif_neg (mt valid.mp none)]

namespace Codec

/-- Every usable configuration makes a byte for each cell of the map of any picture and of an HDR
rendition that is at least as large, and the two samplers find every pixel again, those past the
last whole block included. Only where the picture holds no whole block is there no map. -/
theorem sweep_reads_inside {config : Config Float32} {codec : Codec Float32}
    (usable : Codec.ofConfig config = .ok codec) (sdr : Picture .yuv420) (hdr : Picture .p010)
    (wide : sdr.width ≤ hdr.width) (high : sdr.height ≤ hdr.height) {columns rows : Nat}
    (sizes : codec.mapSize sdr.width sdr.height = (columns, rows)) :
    ∃ bytes, codec.mapBytes sdr hdr = .ok bytes ∧ bytes.size = columns * rows ∧
      (∀ x y, x < columns → y < rows →
        ∃ byte, codec.mapByte sdr hdr x y = .ok byte ∧ bytes[x + y * columns]? = some byte) ∧
      ((∃ map, GainMap.ofBytes columns rows bytes = .ok map) ↔
        config.mapScaleFactor ≤ sdr.width ∧ config.mapScaleFactor ≤ sdr.height) ∧
      (¬ (config.mapScaleFactor ≤ sdr.width ∧ config.mapScaleFactor ≤ sdr.height) →
        GainMap.ofBytes columns rows bytes = .error (.invalidDimensions columns rows)) ∧
      ∀ map, GainMap.ofBytes columns rows bytes = .ok map → ∀ x y, sdr.Contains x y →
        (∀ filter, ∃ gain : Float32,
          map.sample filter config.mapScaleFactor x y = .ok gain) ∧
        (∃ color : Color Float32, sdr.block 1 x y = .ok color) ∧
        ∃ color : Color Float32, hdr.block 1 x y = .ok color := by
  obtain ⟨rfl, _⟩ := config_of_ofConfig usable
  have positive := scale_pos usable
  obtain ⟨rfl, rfl⟩ := Prod.mk.inj sizes
  obtain ⟨bytes, swept, holds⟩ := mapBytes_holdsCells sizes fun x y column row =>
    ⟨sdr.coversBlock_of_lt positive column row (le_refl _) (le_refl _),
      hdr.coversBlock_of_lt positive column row wide high⟩
  have size : bytes.size = sdr.width / codec.config.mapScaleFactor *
      (sdr.height / codec.config.mapScaleFactor) := by
    rw [holds.1, Nat.mul_comm]
  obtain ⟨accepted_iff, refused⟩ :=
    GainMap.ofBytes_div positive sdr.valid.2 (Nat.le_of_eq size.symm)
  refine ⟨bytes, swept, size, fun x y column row => holds.cell column row, accepted_iff, refused,
    fun map accepted x y contained => ?_⟩
  have contained' : hdr.Contains x y :=
    ⟨Nat.lt_of_lt_of_le contained.1 wide, Nat.lt_of_lt_of_le contained.2 high⟩
  refine ⟨fun filter => ?_, Picture.exists_block (Picture.coversBlock_one contained),
    Picture.exists_block (Picture.coversBlock_one contained')⟩
  -- The map is there, so the scale is at most a side of the picture, and the quotients stay words.
  obtain ⟨scale_le, _⟩ := accepted_iff.mp ⟨map, accepted⟩
  obtain ⟨width_lt, height_lt⟩ := sdr.sides_lt
  obtain ⟨column, row⟩ := contained
  exact map.exists_sample filter positive (by omega) (by omega) (by omega)

/-- Blocks of two cover four of the five columns and two of the three rows. The last pixel has a
gain and a color nevertheless. -/
theorem last_of_five_by_three :
    ∃ (codec : Codec Float32) (sdr : Picture .yuv420) (hdr : Picture .p010) (bytes : Array UInt8)
      (map : GainMap),
      Codec.ofConfig { (default : Config Float32) with mapScaleFactor := 2 } = .ok codec ∧
      Picture.ofSamples 5 3 (Array.replicate 23 (128 : UInt8)) = .ok sdr ∧
      Picture.ofSamples 6 3 (Array.replicate 30 (32768 : UInt16)) = .ok hdr ∧
      codec.mapBytes sdr hdr = .ok bytes ∧ bytes.size = 2 ∧
      GainMap.ofBytes 2 1 bytes = .ok map ∧
      (∃ gain : Float32, map.sample .bilinear 2 4 2 = .ok gain) ∧
      ∃ color : Color Float32, sdr.block 1 4 2 = .ok color := by
  obtain ⟨codec, usable⟩ : ∃ codec : Codec Float32,
      Codec.ofConfig { (default : Config Float32) with mapScaleFactor := 2 } = .ok codec :=
    ⟨_, rfl⟩
  obtain ⟨sdr, sdrAccepted⟩ : ∃ sdr : Picture .yuv420,
      Picture.ofSamples 5 3 (Array.replicate 23 (128 : UInt8)) = .ok sdr := ⟨_, rfl⟩
  obtain ⟨hdr, hdrAccepted⟩ : ∃ hdr : Picture .p010,
      Picture.ofSamples 6 3 (Array.replicate 30 (32768 : UInt16)) = .ok hdr := ⟨_, rfl⟩
  obtain ⟨sdrWidth, sdrHeight, _⟩ := Picture.ofSamples_eq_ok_iff.mp sdrAccepted
  obtain ⟨hdrWidth, hdrHeight, _⟩ := Picture.ofSamples_eq_ok_iff.mp hdrAccepted
  have scale : codec.config.mapScaleFactor = 2 := by rw [(config_of_ofConfig usable).1]
  have sizes : codec.mapSize sdr.width sdr.height = (2, 1) := by
    rw [mapSize, scale, sdrWidth, sdrHeight]
  obtain ⟨bytes, swept, size, _, accepted_iff, _, restored⟩ :=
    sweep_reads_inside usable sdr hdr (by omega) (by omega) sizes
  obtain ⟨map, accepted⟩ := accepted_iff.mpr (by
    rw [sdrWidth, sdrHeight]
    decide)
  obtain ⟨sampled, color, _⟩ := restored map accepted 4 2 (by
    unfold Picture.Contains
    omega)
  exact ⟨codec, sdr, hdr, bytes, map, usable, sdrAccepted, hdrAccepted, swept, size, accepted,
    sampled .bilinear, color⟩

end Codec

end HdrGain
