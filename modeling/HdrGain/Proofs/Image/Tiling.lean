import HdrGain.Image.Picture
import Mathlib.Data.Set.Function
import Mathlib.Tactic.Ring

namespace HdrGain

theorem rowPlace_divMod {columns x : Nat} (y : Nat) (column : x < columns) :
    (x + y * columns) % columns = x ∧ (x + y * columns) / columns = y := by
  rw [Nat.add_mul_mod_self_right, Nat.mod_eq_of_lt column,
    Nat.add_mul_div_right _ _ (by omega), Nat.div_eq_of_lt column, Nat.zero_add]
  exact ⟨rfl, rfl⟩

namespace Format

/-- Rows that follow each other without a gap number the places of a grid. -/
theorem bijOn_rowPlace (columns rows : Nat) :
    Set.BijOn (fun place : Nat × Nat => place.1 + place.2 * columns)
      {place | place.1 < columns ∧ place.2 < rows} (Set.Iio (columns * rows)) := by
  refine ⟨?_, ?_, ?_⟩
  · intro place inside
    exact position_luma_lt .yuv420 inside.1 inside.2
  · intro place inside place' inside' same
    obtain ⟨column, row⟩ := rowPlace_divMod place.2 inside.1
    obtain ⟨column', row'⟩ := rowPlace_divMod place'.2 inside'.1
    change place.1 + place.2 * columns = place'.1 + place'.2 * columns at same
    rw [same] at column row
    exact Prod.ext (column.symm.trans column') (row.symm.trans row')
  · intro index bound
    have inside : index < columns * rows := bound
    have nonempty : 0 < columns := Nat.pos_of_mul_pos_right (Nat.zero_lt_of_lt inside)
    exact ⟨(index % columns, index / columns),
      ⟨Nat.mod_lt _ nonempty, Nat.div_lt_of_lt_mul inside⟩, Nat.mod_add_div' index columns⟩

variable {columns rows column row column' row' : Nat}

theorem rowPlace_lt (inColumns : column < columns) (inRows : row < rows) :
    column + row * columns < columns * rows :=
  (bijOn_rowPlace columns rows).mapsTo (show (column, row) ∈ _ from ⟨inColumns, inRows⟩)

theorem rowPlace_inj (inColumns : column < columns) (inRows : row < rows)
    (inColumns' : column' < columns) (inRows' : row' < rows) :
    column + row * columns = column' + row' * columns ↔ column = column' ∧ row = row' := by
  constructor
  · intro same
    have place := (bijOn_rowPlace columns rows).injOn
      (show (column, row) ∈ _ from ⟨inColumns, inRows⟩)
      (show (column', row') ∈ _ from ⟨inColumns', inRows'⟩) same
    exact ⟨congrArg Prod.fst place, congrArg Prod.snd place⟩
  · rintro ⟨rfl, rfl⟩
    rfl

theorem exists_rowPlace {place : Nat} (inside : place < columns * rows) :
    ∃ column row, column < columns ∧ row < rows ∧ column + row * columns = place := by
  obtain ⟨⟨column, row⟩, ⟨inColumns, inRows⟩, placed⟩ :=
    (bijOn_rowPlace columns rows).surjOn inside
  exact ⟨column, row, inColumns, inRows, placed⟩

/-- The blue or the red difference. -/
def difference (red : Bool) : Component :=
  if red then .v else .u

/-- Where after luma a buffer of `blocks` blocks keeps a difference of the block `place`. -/
def chromaOffset (format : Format) (blocks : Nat) (red : Bool) (place : Nat) : Nat :=
  match format with
  | .yuv420 => place + if red then blocks else 0
  | .p010 => place * 2 + if red then 1 else 0

section Offsets

variable {blocks place place' : Nat} {red red' : Bool}

theorem chromaOffset_lt (format : Format) (red : Bool) (inside : place < blocks) :
    format.chromaOffset blocks red place < 2 * blocks := by
  cases format <;> cases red <;> simp only [chromaOffset] <;> grind

theorem chromaOffset_inj (format : Format) (inside : place < blocks) (inside' : place' < blocks) :
    format.chromaOffset blocks red place = format.chromaOffset blocks red' place' ↔
      red = red' ∧ place = place' := by
  cases format <;> cases red <;> cases red' <;> simp only [chromaOffset] <;> grind

/-- After luma every sample is a difference of some block. -/
theorem exists_chromaOffset (format : Format) {index : Nat} (inside : index < 2 * blocks) :
    ∃ red place, place < blocks ∧ format.chromaOffset blocks red place = index := by
  cases format with
  | yuv420 =>
      by_cases blue : index < blocks
      · exact ⟨false, index, blue, rfl⟩
      · refine ⟨true, index - blocks, by omega, ?_⟩
        change index - blocks + blocks = index
        omega
  | p010 =>
      refine ⟨decide (index % 2 = 1), index / 2, by omega, ?_⟩
      simp only [chromaOffset, decide_eq_true_eq]
      split <;> omega

end Offsets

theorem count_of_even : 2 * columns * (2 * rows) = 4 * (columns * rows) := by
  ring

theorem position_of_even (format : Format) (red : Bool) (x y : Nat) :
    format.position (2 * columns) (2 * rows) (difference red) x y =
      4 * (columns * rows) +
        format.chromaOffset (columns * rows) red (x / 2 + y / 2 * columns) := by
  have quarter : 4 * (columns * rows) * 5 / 4 = 5 * (columns * rows) := by omega
  cases format <;> cases red <;>
    simp only [position, difference, chromaOffset, chromaIndex, count_of_even, quarter,
      Nat.mul_div_cancel_left _ Nat.zero_lt_two, if_true, if_false, Bool.false_eq_true] <;>
    omega

theorem required_of_even (format : Format) (wide : 0 < columns) (high : 0 < rows) :
    format.required (2 * columns) (2 * rows) = 6 * (columns * rows) := by
  obtain ⟨before, rfl⟩ : ∃ before, rows = before + 1 := ⟨rows - 1, by omega⟩
  have lastColumn : (2 * columns - 1) / 2 = columns - 1 := by omega
  have lastRow : (2 * (before + 1) - 1) / 2 = before := by omega
  have blocks : columns * (before + 1) = before * columns + columns := by ring
  have last : format.position (2 * columns) (2 * (before + 1)) (difference true)
      (2 * columns - 1) (2 * (before + 1) - 1) = _ := format.position_of_even true _ _
  rw [lastColumn, lastRow, blocks] at last
  change format.position _ _ .v _ _ + 1 = _
  rw [show (Component.v) = difference true from rfl, last, blocks]
  cases format <;> simp only [chromaOffset, if_true] <;> omega

end Format

namespace Picture

variable {format : Format}

/-- Reading a component of the pixel `(x, y)` of the picture asks for the sample at `index`. -/
def Reads (picture : Picture format) (component : Component) (x y index : Nat) : Prop :=
  picture.Contains x y ∧
    format.locate picture.width picture.height component x y = .ok index

theorem reads_iff {picture : Picture format} {component : Component} {x y index : Nat} :
    picture.Reads component x y index ↔
      picture.Contains x y ∧ picture.position component x y = index := by
  unfold Reads
  rw [Format.locate_eq_ok_iff]
  constructor
  · rintro ⟨contained, placed, _⟩
    exact ⟨contained, placed⟩
  · rintro ⟨contained, placed⟩
    exact ⟨contained, placed, position_lt_addressLimit component contained⟩

/-- The samples that the pixels of a picture are read from, and which of them each is. -/
structure Tiled (picture : Picture format) : Prop where
  /-- No shorter buffer is accepted at this size, and every buffer as long is. -/
  accepted_iff : ∀ samples : Array format.Sample,
    (∃ accepted, ofSamples picture.width picture.height samples = .ok accepted) ↔
      3 * (picture.width * picture.height) / 2 ≤ samples.size
  inside : ∀ component x y index, picture.Reads component x y index →
    index < 3 * (picture.width * picture.height) / 2 ∧
      (index < picture.width * picture.height ↔ component = .luma)
  luma_bijOn : Set.BijOn (fun pixel : Nat × Nat => picture.position .luma pixel.1 pixel.2)
    {pixel | picture.Contains pixel.1 pixel.2} (Set.Iio (picture.width * picture.height))
  /-- What follows luma is read by the pixels of one block, as one of their two components. -/
  chroma_owned : ∀ index, picture.width * picture.height ≤ index →
    index < 3 * (picture.width * picture.height) / 2 →
      ∃ owner column row, owner ≠ .luma ∧
        2 * column + 1 < picture.width ∧ 2 * row + 1 < picture.height ∧
          ∀ component x y, picture.Reads component x y index ↔
            component = owner ∧ x / 2 = column ∧ y / 2 = row
  /-- A block has one sample in either plane of a planar buffer, and a pair of neighbours of an
  interleaved one. -/
  block_owns : ∀ column row, 2 * column + 1 < picture.width → 2 * row + 1 < picture.height →
    ∃ u v,
      (∀ x y index, x / 2 = column → y / 2 = row →
        (picture.Reads .u x y index ↔ index = u) ∧ (picture.Reads .v x y index ↔ index = v)) ∧
      match format with
      | .yuv420 => picture.width * picture.height ≤ u ∧
          u < picture.width * picture.height * 5 / 4 ∧
            picture.width * picture.height * 5 / 4 ≤ v ∧
              v < 3 * (picture.width * picture.height) / 2
      | .p010 => picture.width * picture.height ≤ u ∧ u % 2 = 0 ∧ v = u + 1 ∧
          v < 3 * (picture.width * picture.height) / 2

variable {picture : Picture format} {columns rows : Nat}

theorem accepted_iff_required (samples : Array format.Sample) :
    (∃ accepted, ofSamples picture.width picture.height samples = .ok accepted) ↔
      format.required picture.width picture.height ≤ samples.size := by
  unfold ofSamples
  rw [dif_pos picture.valid, dif_pos picture.addressable]
  by_cases covered : format.required picture.width picture.height ≤ samples.size
  · rw [dif_pos covered]
    exact ⟨fun _ => covered, fun _ => ⟨_, rfl⟩⟩
  · rw [dif_neg covered]
    exact ⟨fun ⟨_, laid⟩ => (nomatch laid), fun long => absurd long covered⟩

theorem reads_luma_lt {x y index : Nat} (read : picture.Reads .luma x y index) :
    index < picture.width * picture.height := by
  obtain ⟨contained, rfl⟩ := reads_iff.mp read
  exact format.position_luma_lt contained.1 contained.2

section EvenSizes

variable (wide : picture.width = 2 * columns) (high : picture.height = 2 * rows)

include wide high

theorem count_eq : picture.width * picture.height = 4 * (columns * rows) := by
  rw [wide, high, Format.count_of_even]

theorem contains_iff {x y : Nat} :
    picture.Contains x y ↔ x / 2 < columns ∧ y / 2 < rows := by
  unfold Contains
  omega

theorem reads_difference_iff (red : Bool) (x y index : Nat) :
    picture.Reads (Format.difference red) x y index ↔
      (x / 2 < columns ∧ y / 2 < rows) ∧
        4 * (columns * rows) +
          format.chromaOffset (columns * rows) red (x / 2 + y / 2 * columns) = index := by
  rw [reads_iff, contains_iff wide high, position, wide, high, Format.position_of_even]

/-- A sample after luma belongs to one block, and is one of its two differences. -/
theorem reads_iff_owner {red : Bool} {column row : Nat} (inColumns : column < columns)
    (inRows : row < rows) {component : Component} {x y : Nat} :
    picture.Reads component x y (4 * (columns * rows) +
        format.chromaOffset (columns * rows) red (column + row * columns)) ↔
      component = Format.difference red ∧ x / 2 = column ∧ y / 2 = row := by
  have inside := Format.rowPlace_lt inColumns inRows
  have differenceRead : ∀ other : Bool,
      picture.Reads (Format.difference other) x y (4 * (columns * rows) +
          format.chromaOffset (columns * rows) red (column + row * columns)) ↔
        other = red ∧ x / 2 = column ∧ y / 2 = row := by
    intro other
    rw [reads_difference_iff wide high, Nat.add_left_cancel_iff]
    constructor
    · rintro ⟨⟨xInside, yInside⟩, same⟩
      rw [format.chromaOffset_inj (Format.rowPlace_lt xInside yInside) inside,
        Format.rowPlace_inj xInside yInside inColumns inRows] at same
      exact same
    · rintro ⟨rfl, rfl, rfl⟩
      exact ⟨⟨inColumns, inRows⟩, rfl⟩
  cases component with
  | luma =>
      refine iff_of_false (fun read => ?_) (fun owned => ?_)
      · have bound := reads_luma_lt read
        rw [count_eq wide high] at bound
        omega
      · cases red <;> cases owned.1
  | u => cases red <;> simpa [Format.difference] using differenceRead false
  | v => cases red <;> simpa [Format.difference] using differenceRead true

theorem reads_lt {component : Component} {x y index : Nat}
    (read : picture.Reads component x y index) :
    index < 6 * (columns * rows) ∧ (index < 4 * (columns * rows) ↔ component = .luma) := by
  have differenceRead : ∀ red, picture.Reads (Format.difference red) x y index →
      4 * (columns * rows) ≤ index ∧ index < 6 * (columns * rows) := by
    intro red read
    obtain ⟨⟨xInside, yInside⟩, rfl⟩ := (reads_difference_iff wide high red x y _).mp read
    have bound := format.chromaOffset_lt red (Format.rowPlace_lt xInside yInside)
    omega
  cases component with
  | luma =>
      have bound := reads_luma_lt read
      rw [count_eq wide high] at bound
      exact ⟨by omega, iff_of_true bound rfl⟩
  | u =>
      obtain ⟨above, below⟩ := differenceRead false read
      exact ⟨below, iff_of_false (by omega) (by decide)⟩
  | v =>
      obtain ⟨above, below⟩ := differenceRead true read
      exact ⟨below, iff_of_false (by omega) (by decide)⟩

end EvenSizes

/-- Of both sides the half is whole, and all pixels of a block are inside. -/
theorem even_picture_tiled (picture : Picture format) (evenWidth : picture.width % 2 = 0)
    (evenHeight : picture.height % 2 = 0) : picture.Tiled := by
  obtain ⟨columns, wide⟩ : ∃ columns, picture.width = 2 * columns :=
    ⟨picture.width / 2, by omega⟩
  obtain ⟨rows, high⟩ : ∃ rows, picture.height = 2 * rows := ⟨picture.height / 2, by omega⟩
  have count : picture.width * picture.height = 4 * (columns * rows) := count_eq wide high
  have half : 3 * (4 * (columns * rows)) / 2 = 6 * (columns * rows) := by omega
  have widthPos := picture.valid.width_pos
  have heightPos := picture.valid.height_pos
  constructor
  case accepted_iff =>
    intro samples
    rw [accepted_iff_required, count, half, wide, high,
      Format.required_of_even format (by omega) (by omega)]
  case inside =>
    intro component x y index read
    rw [count, half]
    exact reads_lt wide high read
  case luma_bijOn => exact Format.bijOn_rowPlace picture.width picture.height
  case chroma_owned =>
    intro index above below
    rw [count] at above below
    obtain ⟨red, place, inside, offset⟩ := format.exists_chromaOffset
      (show index - 4 * (columns * rows) < 2 * (columns * rows) by omega)
    obtain ⟨column, row, inColumns, inRows, rfl⟩ := Format.exists_rowPlace inside
    obtain rfl : 4 * (columns * rows) +
        format.chromaOffset (columns * rows) red (column + row * columns) = index := by omega
    exact ⟨Format.difference red, column, row, by cases red <;> decide, by omega, by omega,
      fun _ _ _ => reads_iff_owner wide high inColumns inRows⟩
  case block_owns =>
    intro column row inWidth inHeight
    have inColumns : column < columns := by omega
    have inRows : row < rows := by omega
    have inside := Format.rowPlace_lt inColumns inRows
    refine ⟨4 * (columns * rows) +
        format.chromaOffset (columns * rows) false (column + row * columns),
      4 * (columns * rows) +
        format.chromaOffset (columns * rows) true (column + row * columns), ?_, ?_⟩
    · rintro x y index rfl rfl
      have blue := reads_difference_iff wide high false x y index
      have red := reads_difference_iff wide high true x y index
      simp only [inColumns, inRows, true_and] at blue red
      exact ⟨blue.trans eq_comm, red.trans eq_comm⟩
    · rw [count, half]
      cases format <;> simp only [Format.chromaOffset, if_true, if_false, Bool.false_eq_true] <;>
        omega

/-- Eight luma samples, then two blocks. -/
theorem four_by_two_tiled :
    ∃ picture : Picture .p010,
      ofSamples 4 2 (Array.replicate 12 (0 : UInt16)) = .ok picture ∧
        picture.width % 2 = 0 ∧ picture.height % 2 = 0 ∧ picture.Tiled :=
  ⟨⟨4, 2, Array.replicate 12 (0 : UInt16), by decide, by decide, by decide⟩, rfl, rfl, rfl,
    even_picture_tiled _ rfl rfl⟩

end Picture

end HdrGain
