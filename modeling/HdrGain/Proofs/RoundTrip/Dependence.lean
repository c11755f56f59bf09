import HdrGain.Proofs.Codec.Resolution
import HdrGain.Proofs.Image.Acceptance
import HdrGain.Proofs.Image.Dependence
import HdrGain.Proofs.RoundTrip.Coverage

namespace HdrGain

/-- The bytes of two maps agree at all cells `inRange` other than `(x, y)`. If that is not a cell of
the maps, and all their cells are `inRange`, then it is one map. -/
structure DifferOnlyAt (columns rows : Nat) (inRange : Nat → Nat → Prop) (x y : Nat)
    (first second : Array UInt8) : Prop where
  size_eq : second.size = first.size
  elsewhere : ∀ column row, column < columns → row < rows → inRange column row →
    column ≠ x ∨ row ≠ y →
      second[column + row * columns]? = first[column + row * columns]?
  outside : ¬ (x < columns ∧ y < rows) →
    (∀ column row, column < columns → row < rows → inRange column row) → second = first

theorem DifferOnlyAt.of_elsewhere {columns rows x y : Nat} {inRange : Nat → Nat → Prop}
    {first second : Array UInt8} (size : first.size = rows * columns)
    (size' : second.size = rows * columns)
    (elsewhere : ∀ column row, column < columns → row < rows → inRange column row →
      column ≠ x ∨ row ≠ y →
        second[column + row * columns]? = first[column + row * columns]?) :
    DifferOnlyAt columns rows inRange x y first second where
  size_eq := size'.trans size.symm
  elsewhere := elsewhere
  outside := by
    intro outside within
    refine Array.ext_getElem? fun index => ?_
    by_cases inside : index < columns * rows
    · obtain ⟨column, row, inColumns, inRows, rfl⟩ := Format.exists_rowPlace inside
      refine elsewhere column row inColumns inRows (within column row inColumns inRows) ?_
      by_contra same
      rw [not_or, not_not, not_not] at same
      obtain ⟨rfl, rfl⟩ := same
      exact outside ⟨inColumns, inRows⟩
    · rw [Nat.mul_comm] at inside
      rw [Array.getElem?_eq_none (by omega), Array.getElem?_eq_none (by omega)]

namespace Codec

variable {α : Type} [Scalar α] [Elementary α] {codec : Codec α}

section Congruence

variable {sdrFormat hdrFormat : Format} {sdr sdr' : Picture sdrFormat}
  {hdr hdr' : Picture hdrFormat} {x y : Nat}

theorem mapByte_congr (sdrAlike : codec.block sdr' x y = codec.block sdr x y)
    (hdrAlike : codec.block hdr' x y = codec.block hdr x y) :
    codec.mapByte sdr' hdr' x y = codec.mapByte sdr hdr x y := by
  rw [mapByte, mapByte, hdrLight, hdrLight, sdrLight, sdrLight, sdrAlike, hdrAlike]

theorem mapBytes_congr (same : sdr.SameSize sdr')
    (cells : ∀ x y, x < sdr.width / codec.config.mapScaleFactor →
      y < sdr.height / codec.config.mapScaleFactor →
        codec.mapByte sdr' hdr' x y = codec.mapByte sdr hdr x y) :
    codec.mapBytes sdr' hdr' = codec.mapBytes sdr hdr := by
  unfold mapBytes
  rw [same.1, same.2]
  refine foldPositions_congr (fun bytes y _ row => ?_) #[]
  refine foldPositions_congr (fun bytes x _ column => ?_) bytes
  rw [cells x y (by omega) (by omega)]

/-- A byte faults as its HDR block does, or else as its SDR block does. -/
theorem fault?_mapByte :
    fault? (codec.mapByte sdr hdr x y) =
      (fault? (codec.block hdr x y)).or (fault? (codec.block sdr x y)) := by
  have hdrEnds : fault? (codec.hdrLight hdr x y) = fault? (codec.block hdr x y) :=
    fault?_bind_pure _
  have sdrEnds : fault? (codec.sdrLight sdr x y) = fault? (codec.block sdr x y) :=
    fault?_bind_pure _
  have made : fault? (codec.mapByte sdr hdr x y) =
      (fault? (codec.hdrLight hdr x y)).or (fault? (codec.sdrLight sdr x y)) :=
    fault?_bind fun _ _ => fault?_bind_pure _
  rw [made, hdrEnds, sdrEnds]

end Congruence

section Interchange

variable {format : Format} {first second : Picture format}

/-- The cells of the map of a picture are made from pixels of a region only. -/
def MapsFrom (codec : Codec α) (sdr : Picture format) (region : Nat → Nat → Prop) : Prop :=
  ∀ x y, x < sdr.width / codec.config.mapScaleFactor →
    y < sdr.height / codec.config.mapScaleFactor →
      ∀ dx dy, dx < codec.config.mapScaleFactor → dy < codec.config.mapScaleFactor →
        region (dx + x * codec.config.mapScaleFactor) (dy + y * codec.config.mapScaleFactor)

/-- Two pictures that are alike in a region give the same maps as either rendition, and the same
restored pixels. -/
structure Interchangeable (codec : Codec α) (first second : Picture format)
    (region : Nat → Nat → Prop) : Prop where
  alike : first.AlikeOn α second region
  asSdr : ∀ {hdrFormat : Format} (hdr : Picture hdrFormat),
    codec.mapBytes second hdr = codec.mapBytes first hdr
  asHdr : ∀ {sdrFormat : Format} (sdr : Picture sdrFormat), codec.MapsFrom sdr region →
    codec.mapBytes sdr second = codec.mapBytes sdr first
  restored : ∀ (map : GainMap) (x y : Nat), region x y →
    codec.restore map second x y = codec.restore map first x y

omit [Scalar α] [Elementary α] in
theorem mapsFrom_contains (first : Picture format) : codec.MapsFrom first first.Contains := by
  intro x y column row dx dy inColumns inRows
  have covered := first.coversBlock_of_lt (by omega) column row (Nat.le_refl _) (Nat.le_refl _)
  exact covered.contains inColumns inRows

theorem restore_congr {x y : Nat} (map : GainMap)
    (alike : second.block 1 x y = (first.block 1 x y : Except Fault (Color α))) :
    codec.restore map second x y = codec.restore map first x y := by
  simp only [restore, sdrLight, block, alike]

/-- A region with all pixels of the picture has those that its own map is made from. -/
theorem interchangeable_of_alikeOn {region : Nat → Nat → Prop} (same : first.SameSize second)
    (contained : ∀ x y, first.Contains x y → region x y)
    (alike : first.AlikeOn α second region) : codec.Interchangeable first second region where
  alike := alike
  asSdr hdr := mapBytes_congr same fun x y column row =>
    mapByte_congr (alike.block _ x y fun dx dy inColumns inRows =>
      contained _ _ (mapsFrom_contains first x y column row dx dy inColumns inRows)) rfl
  asHdr sdr within := mapBytes_congr ⟨rfl, rfl⟩ fun x y column row =>
    mapByte_congr rfl (alike.block _ x y (within x y column row))
  restored map x y inside := restore_congr map <| alike.block 1 x y fun dx dy inColumns inRows => by
    obtain rfl := Nat.lt_one_iff.mp inColumns
    obtain rfl := Nat.lt_one_iff.mp inRows
    rw [Nat.mul_one, Nat.mul_one, Nat.zero_add, Nat.zero_add]
    exact inside

end Interchange

section Luma

variable {sdrFormat hdrFormat : Format} {sdr sdr' : Picture sdrFormat}
  {hdr hdr' : Picture hdrFormat} {columns rows x y : Nat} {bytes : Array UInt8}

/-- Pictures with buffers of unchanged lengths are swept to the same end, and only cells with other
blocks get other bytes. -/
theorem exists_mapBytes_differ (sizes : codec.mapSize sdr.width sdr.height = (columns, rows))
    (swept : codec.mapBytes sdr hdr = .ok bytes) {inRange : Nat → Nat → Prop}
    (sdrSame : sdr.SameSize sdr') (sdrLength : sdr'.samples.size = sdr.samples.size)
    (hdrSame : hdr.SameSize hdr') (hdrLength : hdr'.samples.size = hdr.samples.size)
    (alike : ∀ column row, column < columns → row < rows → inRange column row →
      column ≠ x ∨ row ≠ y →
        codec.mapByte sdr' hdr' column row = codec.mapByte sdr hdr column row) :
    ∃ bytes', codec.mapBytes sdr' hdr' = .ok bytes' ∧
      DifferOnlyAt columns rows inRange x y bytes bytes' := by
  have sizes' : codec.mapSize sdr'.width sdr'.height = (columns, rows) := by
    rw [sdrSame.1, sdrSame.2, sizes]
  -- Whether a read faults is decided by the length of the buffer alone, so no cell is lost.
  have ends (column row : Nat) : fault? (codec.mapByte sdr' hdr' column row) =
      fault? (codec.mapByte sdr hdr column row) := by
    rw [fault?_mapByte, fault?_mapByte]
    exact congrArg₂ Option.or (Picture.fault?_block_eq hdrSame hdrLength _ column row)
      (Picture.fault?_block_eq sdrSame sdrLength _ column row)
  have made := (exists_mapBytes_iff sizes).mp ⟨bytes, swept⟩
  obtain ⟨bytes', swept'⟩ := (exists_mapBytes_iff sizes').mpr fun column row inColumns inRows => by
    rw [← fault?_eq_none_iff, ends, fault?_eq_none_iff]
    exact made column row inColumns inRows
  have holds := holdsCells_of_mapBytes sizes swept
  have holds' := holdsCells_of_mapBytes sizes' swept'
  refine ⟨bytes', swept', .of_elsewhere holds.1 holds'.1 ?_⟩
  intro column row inColumns inRows within apart
  obtain ⟨byte, kept, at'⟩ := holds.cell inColumns inRows
  obtain ⟨byte', kept', at''⟩ := holds'.cell inColumns inRows
  rw [alike column row inColumns inRows within apart, kept] at kept'
  cases kept'
  rw [at', at'']

/-- A cell of the map has a block in the SDR picture, and so its byte changes with no luma outside
that block. -/
theorem exists_mapBytes_setLuma_sdr
    (sizes : codec.mapSize sdr.width sdr.height = (columns, rows))
    (swept : codec.mapBytes sdr hdr = .ok bytes) (contained : sdr.Contains x y)
    (sample : sdrFormat.Sample) :
    ∃ bytes', codec.mapBytes (sdr.setLuma x y sample) hdr = .ok bytes' ∧
      DifferOnlyAt columns rows (fun _ _ => True) (x / codec.config.mapScaleFactor)
        (y / codec.config.mapScaleFactor) bytes bytes' := by
  refine exists_mapBytes_differ sizes swept (sdr.sameSize_setLuma sample)
    (sdr.size_setLuma sample) ⟨rfl, rfl⟩ rfl ?_
  intro column row inColumns inRows _ apart
  obtain ⟨rfl, rfl⟩ := Prod.mk.inj sizes
  have positive : 0 < codec.config.mapScaleFactor :=
    (Nat.div_pos_iff.mp (Nat.zero_lt_of_lt inColumns)).1
  have covered := sdr.coversBlock_of_lt positive inColumns inRows (Nat.le_refl _) (Nat.le_refl _)
  exact mapByte_congr (Picture.block_setLuma contained covered apart) rfl

theorem exists_mapBytes_setLuma_hdr
    (sizes : codec.mapSize sdr.width sdr.height = (columns, rows))
    (swept : codec.mapBytes sdr hdr = .ok bytes) (contained : hdr.Contains x y)
    (sample : hdrFormat.Sample) :
    ∃ bytes', codec.mapBytes sdr (hdr.setLuma x y sample) = .ok bytes' ∧
      DifferOnlyAt columns rows (hdr.CoversBlock codec.config.mapScaleFactor)
        (x / codec.config.mapScaleFactor) (y / codec.config.mapScaleFactor) bytes bytes' := by
  refine exists_mapBytes_differ sizes swept ⟨rfl, rfl⟩ rfl (hdr.sameSize_setLuma sample)
    (hdr.size_setLuma sample) ?_
  intro column row _ _ covered apart
  exact mapByte_congr rfl (Picture.block_setLuma contained covered apart)

end Luma

/-- Blocks of two pictures of one size whose samples have the same levels have the same color. The
low bits of the words of narrow range change nothing at all, nor do samples past the last one that a
pixel needs change anything inside the picture, whichever rendition the picture is. A luma sample
changes the byte of the cell that its pixel belongs to and no other, as far as the cells have their
blocks inside the picture. -/
theorem map_depends_on_levels (codec : Codec α) :
    (∀ {format : Format} (first second : Picture format) (scale x y : Nat),
      first.SameSize second → x < first.width / scale → y < first.height / scale →
      (∀ dx dy component, dx < scale → dy < scale →
        second.held component (dx + x * scale) (dy + y * scale) =
          first.held component (dx + x * scale) (dy + y * scale)) →
      ∃ color : Color α,
        first.block scale x y = .ok color ∧ second.block scale x y = .ok color) ∧
    (∀ first second : Picture .p010, first.SameSize second →
      second.topBits = first.topBits → codec.Interchangeable first second fun _ _ => True) ∧
    (∀ {format : Format} (first second : Picture format), first.SameSize second →
      (∀ index, index < format.required first.width first.height →
        second.samples[index]? = first.samples[index]?) →
      codec.Interchangeable first second first.Contains) ∧
    ∀ {sdrFormat hdrFormat : Format} (sdr : Picture sdrFormat) (hdr : Picture hdrFormat)
      {columns rows : Nat} {bytes : Array UInt8},
      codec.mapSize sdr.width sdr.height = (columns, rows) →
      codec.mapBytes sdr hdr = .ok bytes → ∀ x y,
        (sdr.Contains x y → ∀ sample,
          ∃ bytes', codec.mapBytes (sdr.setLuma x y sample) hdr = .ok bytes' ∧
            DifferOnlyAt columns rows (fun _ _ => True) (x / codec.config.mapScaleFactor)
              (y / codec.config.mapScaleFactor) bytes bytes') ∧
        (hdr.Contains x y → ∀ sample,
          ∃ bytes', codec.mapBytes sdr (hdr.setLuma x y sample) = .ok bytes' ∧
            DifferOnlyAt columns rows (hdr.CoversBlock codec.config.mapScaleFactor)
              (x / codec.config.mapScaleFactor) (y / codec.config.mapScaleFactor) bytes
              bytes') := by
  refine ⟨?_, ?_, ?_, ?_⟩
  · intro format first second scale x y same column row agree
    have positive : 0 < scale := (Nat.div_pos_iff.mp (Nat.zero_lt_of_lt column)).1
    have covered :=
      first.coversBlock_of_lt positive column row (Nat.le_refl _) (Nat.le_refl _)
    exact Picture.exists_same_color same covered agree
  · intro first second same topBits
    exact interchangeable_of_alikeOn same (fun _ _ _ => trivial)
      (Picture.alikeOn_of_topBits same topBits)
  · intro format first second same agree
    exact interchangeable_of_alikeOn same (fun _ _ contained => contained)
      (Picture.alikeOn_of_required same agree)
  · intro sdrFormat hdrFormat sdr hdr columns rows bytes sizes swept x y
    exact ⟨exists_mapBytes_setLuma_sdr sizes swept, exists_mapBytes_setLuma_hdr sizes swept⟩

/-- Of two cells, the first keeps its byte when the last pixel turns white, and both keep theirs when
the low bits of all words are set. -/
theorem first_of_two_cells_kept :
    ∃ (codec : Codec Float32) (sdr : Picture .yuv420) (hdr padded : Picture .p010)
      (bytes changed : Array UInt8),
      Codec.ofConfig { (default : Config Float32) with mapScaleFactor := 2 } = .ok codec ∧
      Picture.ofSamples 4 2 (Array.replicate 12 (128 : UInt8)) = .ok sdr ∧
      Picture.ofSamples 4 2 (Array.replicate 12 (32768 : UInt16)) = .ok hdr ∧
      Picture.ofSamples 4 2 (Array.replicate 12 (32831 : UInt16)) = .ok padded ∧
      codec.mapBytes sdr hdr = .ok bytes ∧ codec.mapBytes sdr padded = .ok bytes ∧
      codec.mapBytes sdr (hdr.setLuma 3 1 (60160 : UInt16)) = .ok changed ∧
      changed.size = bytes.size ∧ changed[0]? = bytes[0]? := by
  obtain ⟨codec, usable⟩ : ∃ codec : Codec Float32,
      Codec.ofConfig { (default : Config Float32) with mapScaleFactor := 2 } = .ok codec :=
    ⟨_, rfl⟩
  obtain ⟨sdr, sdrAccepted⟩ : ∃ sdr : Picture .yuv420,
      Picture.ofSamples 4 2 (Array.replicate 12 (128 : UInt8)) = .ok sdr := ⟨_, rfl⟩
  obtain ⟨hdr, hdrAccepted⟩ : ∃ hdr : Picture .p010,
      Picture.ofSamples 4 2 (Array.replicate 12 (32768 : UInt16)) = .ok hdr := ⟨_, rfl⟩
  obtain ⟨padded, paddedAccepted⟩ : ∃ padded : Picture .p010,
      Picture.ofSamples 4 2 (Array.replicate 12 (32831 : UInt16)) = .ok padded := ⟨_, rfl⟩
  obtain ⟨sdrWidth, sdrHeight, _⟩ := Picture.ofSamples_eq_ok_iff.mp sdrAccepted
  obtain ⟨hdrWidth, hdrHeight, hdrSamples⟩ := Picture.ofSamples_eq_ok_iff.mp hdrAccepted
  obtain ⟨width, height, samples⟩ := Picture.ofSamples_eq_ok_iff.mp paddedAccepted
  have scale : codec.config.mapScaleFactor = 2 := by rw [(config_of_ofConfig usable).1]
  have sizes : codec.mapSize sdr.width sdr.height = (2, 1) := by
    rw [mapSize, scale, sdrWidth, sdrHeight]
  have covers (x y : Nat) (column : x < 2) (row : y < 1) :
      sdr.CoversBlock codec.config.mapScaleFactor x y ∧
        hdr.CoversBlock codec.config.mapScaleFactor x y := by
    unfold Picture.CoversBlock
    rw [scale]
    omega
  obtain ⟨bytes, swept, _⟩ := mapBytes_holdsCells sizes covers
  obtain ⟨_, lowBits, _, luma⟩ := map_depends_on_levels codec
  have topBits : padded.topBits = hdr.topBits := by
    rw [Picture.topBits, Picture.topBits, samples, hdrSamples, Array.map_replicate,
      Array.map_replicate]
    rfl
  have same : hdr.SameSize padded := ⟨by omega, by omega⟩
  have kept := (lowBits hdr padded same topBits).asHdr sdr fun _ _ _ _ _ _ _ _ => trivial
  have contained : hdr.Contains 3 1 := ⟨by omega, by omega⟩
  obtain ⟨changed, resumed, differ⟩ := (luma sdr hdr sizes swept 3 1).2 contained (60160 : UInt16)
  rw [scale] at differ
  have first := differ.elsewhere 0 0 (by decide) (by decide)
    (scale ▸ (covers 0 0 (by decide) (by decide)).2) (by decide)
  exact ⟨codec, sdr, hdr, padded, bytes, changed, usable, sdrAccepted, hdrAccepted,
    paddedAccepted, swept, kept.trans swept, resumed, differ.size_eq, first⟩

end Codec

end HdrGain
