import HdrGain.Proofs.Image.Faults
import HdrGain.Proofs.Image.Tiling

namespace HdrGain

namespace Picture

variable {format : Format} {α : Type} [Scalar α]

def SameSize (first second : Picture format) : Prop :=
  second.width = first.width ∧ second.height = first.height

/-- The level that the buffer holds for a component of a pixel. -/
def held (picture : Picture format) (component : Component) (x y : Nat) : Option Nat :=
  picture.samples[picture.position component x y]?.map format.level

/-- The words of a picture of narrow range without the low bits that pad them. -/
def topBits (picture : Picture .p010) : Array UInt16 :=
  picture.samples.map fun sample : UInt16 => sample >>> 6

/-- Both pictures give the same where all pixels belong to a region, faults included. -/
structure AlikeOn (α : Type) [Scalar α] (first second : Picture format)
    (region : Nat → Nat → Prop) : Prop where
  luma : ∀ x y, region x y → second.luma x y = first.luma x y
  chroma : ∀ x y, region x y → second.chroma x y = first.chroma x y
  pixel : ∀ x y, region x y → second.pixel x y = (first.pixel x y : Except Fault (Color α))
  block : ∀ scale x y,
    (∀ dx dy, dx < scale → dy < scale → region (dx + x * scale) (dy + y * scale)) →
      second.block scale x y = (first.block scale x y : Except Fault (Color α))

variable {first second : Picture format} {component : Component} {x y : Nat}

theorem alikeOn_of_levels {region : Nat → Nat → Prop}
    (levels : ∀ component x y, region x y →
      second.level component x y = first.level component x y) :
    first.AlikeOn α second region := by
  have luma : ∀ x y, region x y → second.luma x y = first.luma x y :=
    fun x y inside => levels .luma x y inside
  have chroma : ∀ x y, region x y → second.chroma x y = first.chroma x y := fun x y inside => by
    rw [Picture.chroma, Picture.chroma, levels .u x y inside, levels .v x y inside]
  have pixel : ∀ x y, region x y →
      second.pixel x y = (first.pixel x y : Except Fault (Color α)) := fun x y inside => by
    rw [Picture.pixel, Picture.pixel, luma x y inside, chroma x y inside]
  refine ⟨luma, chroma, pixel, fun scale x y inside => ?_⟩
  have summed : second.blockSum scale x y = (first.blockSum scale x y : Except Fault (Color α)) := by
    refine foldPositions_congr (fun rows dy _ row => ?_) Color.zero
    refine foldPositions_congr (fun sum dx _ column => ?_) rows
    have read : second.blockPixel scale x y dx dy =
        (first.blockPixel scale x y dx dy : Except Fault (Color α)) := by
      unfold blockPixel
      cases columnOf : Address.inRows scale dx x with
      | error fault => rfl
      | ok column =>
          cases rowOf : Address.inRows scale dy y with
          | error fault => rfl
          | ok row =>
              obtain ⟨rfl, _⟩ := Address.inRows_eq_ok_iff.mp columnOf
              obtain ⟨rfl, _⟩ := Address.inRows_eq_ok_iff.mp rowOf
              exact pixel _ _ (inside dx dy (by omega) (by omega))
    rw [read]
  rw [Picture.block, Picture.block, summed]

section SameSize

variable (same : first.SameSize second)

include same

theorem SameSize.locate_eq (component : Component) (x y : Nat) :
    format.locate second.width second.height component x y =
      format.locate first.width first.height component x y := by
  rw [same.1, same.2]

theorem SameSize.position_eq (component : Component) (x y : Nat) :
    second.position component x y = first.position component x y := by
  rw [position, position, same.1, same.2]

theorem level_eq_of_held (contained : first.Contains x y)
    (agree : second.held component x y = first.held component x y) :
    second.level component x y = first.level component x y := by
  obtain ⟨found, read⟩ := exists_level component contained
  obtain ⟨word, holds⟩ := level_eq_ok_iff.mp read
  rw [read, level_eq_ok_iff, same.position_eq]
  refine ⟨word, ?_⟩
  rw [held, held, same.position_eq] at agree
  exact agree.trans holds

/-- How reading a level ends depends on the length of the buffer, but on no sample in it. -/
theorem fault?_level_eq (length : second.samples.size = first.samples.size) :
    fault? (second.level component x y) = fault? (first.level component x y) := by
  unfold level
  rw [same.locate_eq, length]
  cases format.locate first.width first.height component x y with
  | error fault => rfl
  | ok position =>
      by_cases inside : position < first.samples.size
      · simp only [Array.getElem?_eq_getElem inside, Array.getElem?_eq_getElem (length ▸ inside),
          fault?]
      · have past := Nat.le_of_not_lt inside
        simp only [Array.getElem?_eq_none past, Array.getElem?_eq_none (length ▸ past)]

theorem fault?_block_eq (length : second.samples.size = first.samples.size) (scale x y : Nat) :
    fault? (second.block scale x y : Except Fault (Color α)) =
      fault? (first.block scale x y : Except Fault (Color α)) := by
  have reads : ∀ dx dy component, second.readFault? scale x y dx dy component =
      first.readFault? scale x y dx dy component := by
    intro dx dy component
    cases component with
    | luma =>
        unfold readFault?
        cases Address.inRows scale dx x with
        | error fault => rfl
        | ok column =>
            cases Address.inRows scale dy y with
            | error fault => rfl
            | ok row => exact fault?_level_eq same length
    | u => exact fault?_level_eq same length
    | v => exact fault?_level_eq same length
  simp only [fault?_block, reads]

/-- Where all samples have the same levels, whatever else their words hold, every reading ends
alike, inside the picture or not. -/
theorem level_eq_of_levels
    (levels : second.samples.map format.level = first.samples.map format.level) :
    second.level component x y = first.level component x y := by
  have length : second.samples.size = first.samples.size := by
    have counted := congrArg Array.size levels
    rwa [Array.size_map, Array.size_map] at counted
  unfold level
  rw [same.locate_eq, length]
  cases format.locate first.width first.height component x y with
  | error fault => rfl
  | ok position =>
      have agree : second.samples[position]?.map format.level =
          first.samples[position]?.map format.level := by
        rw [← Array.getElem?_map, ← Array.getElem?_map, levels]
      cases sample : first.samples[position]? <;> cases sample' : second.samples[position]? <;>
        simp_all

/-- Inside the picture a reading needs no more than the level of its own sample. -/
theorem alikeOn_of_held {region : Nat → Nat → Prop}
    (contained : ∀ x y, region x y → first.Contains x y)
    (agree : ∀ component x y, region x y →
      second.held component x y = first.held component x y) :
    first.AlikeOn α second region :=
  alikeOn_of_levels fun component x y inside =>
    level_eq_of_held same (contained x y inside) (agree component x y inside)

/-- A block needs no more than the levels of the samples of its own pixels. -/
theorem exists_same_color {scale : Nat} (covered : first.CoversBlock scale x y)
    (agree : ∀ dx dy component, dx < scale → dy < scale →
      second.held component (dx + x * scale) (dy + y * scale) =
        first.held component (dx + x * scale) (dy + y * scale)) :
    ∃ color : Color α, first.block scale x y = .ok color ∧ second.block scale x y = .ok color := by
  have alike : first.AlikeOn α second fun column row =>
      ∃ dx dy, dx < scale ∧ dy < scale ∧ dx + x * scale = column ∧ dy + y * scale = row := by
    refine alikeOn_of_held same ?_ ?_
    · rintro _ _ ⟨dx, dy, column, row, rfl, rfl⟩
      exact covered.contains column row
    · rintro component _ _ ⟨dx, dy, column, row, rfl, rfl⟩
      exact agree dx dy component column row
  obtain ⟨color, read⟩ := exists_block (α := α) covered
  refine ⟨color, read, ?_⟩
  rw [alike.block scale x y fun dx dy column row => ⟨dx, dy, column, row, rfl, rfl⟩, read]

/-- Samples past the last one that some pixel needs are never read inside the picture. -/
theorem alikeOn_of_required
    (agree : ∀ index, index < format.required first.width first.height →
      second.samples[index]? = first.samples[index]?) :
    first.AlikeOn α second first.Contains := by
  refine alikeOn_of_held same (fun x y contained => contained) fun component x y contained => ?_
  have needed : first.position component x y < format.required first.width first.height :=
    format.position_lt_required component contained.1 contained.2
  rw [held, held, same.position_eq, agree _ needed]

end SameSize

/-- The low bits of a word have no part in its level. -/
theorem alikeOn_of_topBits {first second : Picture .p010} (same : first.SameSize second)
    (topBits : second.topBits = first.topBits) :
    first.AlikeOn α second fun _ _ => True := by
  have levels : second.samples.map (Format.level .p010) =
      first.samples.map (Format.level .p010) := by
    have numbers := congrArg (Array.map UInt16.toNat) topBits
    rwa [Picture.topBits, Picture.topBits, Array.map_map, Array.map_map] at numbers
  exact alikeOn_of_levels fun _ _ _ _ => level_eq_of_levels same levels

section SetLuma

/-- The picture with another luma sample for the pixel `(x, y)`. -/
def setLuma (picture : Picture format) (x y : Nat) (sample : format.Sample) : Picture format :=
  { picture with
    samples := picture.samples.setIfInBounds (picture.position .luma x y) sample
    covered := by
      rw [Array.size_setIfInBounds]
      exact picture.covered }

variable (picture : Picture format) (sample : format.Sample) {column row : Nat}

theorem sameSize_setLuma : picture.SameSize (picture.setLuma x y sample) := ⟨rfl, rfl⟩

theorem size_setLuma : (picture.setLuma x y sample).samples.size = picture.samples.size :=
  Array.size_setIfInBounds

variable {picture} {sample}

/-- No other pixel of the picture is read from the luma sample of `(x, y)`, nor is any chroma. -/
theorem position_ne_luma (contained : picture.Contains x y) (other : picture.Contains column row)
    (apart : column ≠ x ∨ row ≠ y) :
    picture.position component column row ≠ picture.position .luma x y := by
  have luma := format.position_luma_lt contained.1 contained.2
  cases component with
  | luma =>
      intro same
      obtain ⟨sameColumn, sameRow⟩ :=
        (Format.rowPlace_inj other.1 other.2 contained.1 contained.2).mp same
      exact apart.elim (· sameColumn) (· sameRow)
  -- Chroma starts only after the last luma sample, in both layouts.
  | u => cases format <;> simp only [position, Format.position] at luma ⊢ <;> omega
  | v => cases format <;> simp only [position, Format.position] at luma ⊢ <;> omega

theorem alikeOn_setLuma (contained : picture.Contains x y) :
    picture.AlikeOn α (picture.setLuma x y sample)
      fun column row => picture.Contains column row ∧ (column ≠ x ∨ row ≠ y) := by
  refine alikeOn_of_held (picture.sameSize_setLuma sample) (fun _ _ inside => inside.1) ?_
  rintro component column row ⟨other, apart⟩
  have elsewhere : picture.position component column row ≠ picture.position .luma x y :=
    position_ne_luma contained other apart
  exact congrArg (Option.map format.level) (Array.getElem?_setIfInBounds_ne elsewhere.symm)

/-- Only the block that a pixel belongs to depends on the luma of the pixel. -/
theorem block_setLuma {scale : Nat} (contained : picture.Contains x y)
    (covered : picture.CoversBlock scale column row)
    (apart : column ≠ x / scale ∨ row ≠ y / scale) :
    (picture.setLuma x y sample).block scale column row =
      (picture.block scale column row : Except Fault (Color α)) := by
  refine (alikeOn_setLuma contained).block scale column row fun dx dy inColumns inRows =>
    ⟨covered.contains inColumns inRows, ?_⟩
  rcases apart with apart | apart
  · refine .inl fun same => apart ?_
    rw [← same, (rowPlace_divMod column inColumns).2]
  · refine .inr fun same => apart ?_
    rw [← same, (rowPlace_divMod row inRows).2]

end SetLuma

end Picture

end HdrGain
