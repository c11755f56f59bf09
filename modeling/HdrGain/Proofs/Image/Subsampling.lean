import HdrGain.Image.Picture
import Mathlib.Tactic.Ring

namespace HdrGain

/-! # Subsampling

Which pixels share a chroma pair, and where the planes of a planar buffer end. A row of chroma is
half as long as a row of pixels, rounded down, while the last pixel of a row of odd length still
asks for one pair more: that pair is the first of the next row, and at the end of the blue plane it
is the first of the red one. -/

namespace Format

variable {width height x y x' y' : Nat}

theorem half_le_half (column : x < width) : x / 2 ≤ width / 2 :=
  Nat.div_le_div_right (Nat.le_of_lt column)

theorem rowPlace_eq_later {stride column column' row row' : Nat} (nonempty : 0 < stride)
    (inside : column ≤ stride) (later : row < row')
    (same : column + row * stride = column' + row' * stride) :
    column = stride ∧ column' = 0 ∧ row' = row + 1 := by
  obtain ⟨gap, rfl⟩ : ∃ gap, row' = row + 1 + gap := ⟨row' - row - 1, by omega⟩
  rw [Nat.add_mul, Nat.add_mul, Nat.one_mul] at same
  have adjacent : gap = 0 := by
    by_contra apart
    have long : stride ≤ gap * stride := Nat.le_mul_of_pos_left _ (by omega)
    omega
  subst gap
  omega

/-- Two places in rows of `stride`, where a place may lie one past the end of its row. -/
theorem rowPlace_eq_iff {stride column column' : Nat} (row row' : Nat) (nonempty : 0 < stride)
    (inside : column ≤ stride) (inside' : column' ≤ stride) :
    column + row * stride = column' + row' * stride ↔
      (column = column' ∧ row = row') ∨
        (column = stride ∧ column' = 0 ∧ row' = row + 1) ∨
          (column' = stride ∧ column = 0 ∧ row = row' + 1) := by
  constructor
  · intro same
    rcases Nat.lt_trichotomy row row' with before | equal | after
    · exact .inr (.inl (rowPlace_eq_later nonempty inside before same))
    · subst row'
      omega
    · exact .inr (.inr (rowPlace_eq_later nonempty inside' after same.symm))
  · rintro (⟨rfl, rfl⟩ | ⟨rfl, rfl, rfl⟩ | ⟨rfl, rfl, rfl⟩)
    · rfl
    · rw [Nat.add_mul, Nat.one_mul]
      omega
    · rw [Nat.add_mul, Nat.one_mul]
      omega

theorem chromaIndex_width_one : chromaIndex 1 0 y = 0 := by
  simp [chromaIndex]

theorem exists_chromaIndex {index : Nat} (columns : 0 < width) (rows : 0 < height)
    (bound : index ≤ chromaIndex width (width - 1) (height - 1)) :
    ∃ x y, x < width ∧ y < height ∧ chromaIndex width x y = index := by
  by_cases last : index = chromaIndex width (width - 1) (height - 1)
  · exact ⟨width - 1, height - 1, by omega, by omega, last.symm⟩
  · have before : index < (width - 1) / 2 + (height - 1) / 2 * (width / 2) :=
      Nat.lt_of_le_of_ne bound last
    have paired : 0 < width / 2 := by
      by_contra single
      have narrow : width = 1 := by omega
      subst width
      omega
    have row : index / (width / 2) < (height - 1) / 2 + 1 := by
      apply Nat.div_lt_of_lt_mul
      rw [Nat.mul_add, Nat.mul_one, Nat.mul_comm (width / 2)]
      omega
    have column : index % (width / 2) < width / 2 := Nat.mod_lt _ paired
    refine ⟨2 * (index % (width / 2)), 2 * (index / (width / 2)), by omega, by omega, ?_⟩
    simp only [chromaIndex, Nat.mul_div_cancel_left _ Nat.zero_lt_two]
    exact Nat.mod_add_div' index (width / 2)

/-- The blue plane of a planar buffer ends before the red one starts. -/
def PlanesApart (width height : Nat) : Prop :=
  (width % 2 = 0 ∧ height % 2 = 0) ∨
    (width % 2 = 1 ∧ height % 2 = 0 ∧ 4 ≤ height) ∨
      (width % 2 = 1 ∧ height % 2 = 1 ∧ width + 4 ≤ height)

instance (width height : Nat) : Decidable (PlanesApart width height) :=
  inferInstanceAs (Decidable (_ ∨ _))

-- The four parities are counted apart: each rounds the rows, the columns and the quarter of the
-- pixels in its own way, and only the product of the halves is left to compare.
theorem lastChroma_lt_quarter_iff (columns : 0 < width) (rows : 0 < height) :
    chromaIndex width (width - 1) (height - 1) < width * height / 4 ↔
      PlanesApart width height := by
  unfold chromaIndex PlanesApart
  obtain ⟨a, evenWidth | oddWidth⟩ : ∃ a, width = 2 * a ∨ width = 2 * a + 1 :=
    ⟨width / 2, by omega⟩
  · obtain ⟨b, evenHeight | oddHeight⟩ : ∃ b, height = 2 * b ∨ height = 2 * b + 1 :=
      ⟨height / 2, by omega⟩
    · subst width height
      obtain ⟨before, rfl⟩ : ∃ before, b = before + 1 := ⟨b - 1, by omega⟩
      have halfWidth : 2 * a / 2 = a := by omega
      have lastRow : (2 * (before + 1) - 1) / 2 = before := by omega
      have pixels : 2 * a * (2 * (before + 1)) = 4 * (before * a) + 4 * a := by ring
      rw [halfWidth, lastRow, pixels]
      omega
    · subst width height
      have halfWidth : 2 * a / 2 = a := by omega
      have lastRow : (2 * b + 1 - 1) / 2 = b := by omega
      have pixels : 2 * a * (2 * b + 1) = 4 * (b * a) + 2 * a := by ring
      rw [halfWidth, lastRow, pixels]
      omega
  · obtain ⟨b, evenHeight | oddHeight⟩ : ∃ b, height = 2 * b ∨ height = 2 * b + 1 :=
      ⟨height / 2, by omega⟩
    · subst width height
      obtain ⟨before, rfl⟩ : ∃ before, b = before + 1 := ⟨b - 1, by omega⟩
      have halfWidth : (2 * a + 1) / 2 = a := by omega
      have lastRow : (2 * (before + 1) - 1) / 2 = before := by omega
      have pixels : (2 * a + 1) * (2 * (before + 1)) =
          4 * (before * a) + 4 * a + 2 * before + 2 := by ring
      rw [halfWidth, lastRow, pixels]
      omega
    · subst width height
      have halfWidth : (2 * a + 1) / 2 = a := by omega
      have lastRow : (2 * b + 1 - 1) / 2 = b := by omega
      have pixels : (2 * a + 1) * (2 * b + 1) = 4 * (b * a) + 2 * a + 2 * b + 1 := by ring
      rw [halfWidth, lastRow, pixels]
      omega

end Format

namespace Picture

variable {x y x' y' : Nat}

def SharesChroma {format : Format} (picture : Picture format) (x y x' y' : Nat) : Prop :=
  picture.position .u x y = picture.position .u x' y' ∧
    picture.position .v x y = picture.position .v x' y'

def SameBlock (x y x' y' : Nat) : Prop :=
  x / 2 = x' / 2 ∧ y / 2 = y' / 2

/-- The pixel `(x, y)` ends a row of odd length, and `(x', y')` belongs to the first block of the
next row of blocks. -/
def WrapsInto {format : Format} (picture : Picture format) (x y x' y' : Nat) : Prop :=
  picture.width % 2 = 1 ∧ x + 1 = picture.width ∧ x' / 2 = 0 ∧ y' / 2 = y / 2 + 1

theorem sharesChroma_iff {format : Format} {picture : Picture format} :
    picture.SharesChroma x y x' y' ↔
      Format.chromaIndex picture.width x y = Format.chromaIndex picture.width x' y' := by
  unfold SharesChroma position
  cases format <;> simp only [Format.position] <;> omega

/-- Pixels share their chroma within a block, at the end of an odd row with the start of the next,
and everywhere in a picture that is one pixel wide. -/
theorem chromaIndex_eq_iff {format : Format} {picture : Picture format}
    (contained : picture.Contains x y) (contained' : picture.Contains x' y') :
    Format.chromaIndex picture.width x y = Format.chromaIndex picture.width x' y' ↔
      SameBlock x y x' y' ∨ picture.width = 1 ∨
        picture.WrapsInto x y x' y' ∨ picture.WrapsInto x' y' x y := by
  obtain ⟨column, _⟩ := contained
  obtain ⟨column', _⟩ := contained'
  by_cases narrow : picture.width = 1
  · have first : x = 0 := by omega
    have first' : x' = 0 := by omega
    rw [narrow, first, first', Format.chromaIndex_width_one, Format.chromaIndex_width_one]
    simp
  · have paired : 0 < picture.width / 2 := by omega
    have placed := Format.rowPlace_eq_iff (y / 2) (y' / 2) paired
      (Format.half_le_half column) (Format.half_le_half column')
    unfold Format.chromaIndex SameBlock WrapsInto
    rw [placed]
    omega

/-- Which pixels share their chroma, and the sizes at which only the pixels of a block do: rows of
even length, or a single row of blocks. -/
theorem chroma_shared_exactly {format : Format} (picture : Picture format) :
    (∀ x y x' y', picture.Contains x y → picture.Contains x' y' →
      (picture.SharesChroma x y x' y' ↔
        SameBlock x y x' y' ∨ picture.width = 1 ∨
          picture.WrapsInto x y x' y' ∨ picture.WrapsInto x' y' x y)) ∧
    ((∀ x y x' y', picture.Contains x y → picture.Contains x' y' →
      (picture.SharesChroma x y x' y' ↔ SameBlock x y x' y')) ↔
        picture.width % 2 = 0 ∨ picture.height ≤ 2) := by
  have shared : ∀ x y x' y', picture.Contains x y → picture.Contains x' y' →
      (picture.SharesChroma x y x' y' ↔
        SameBlock x y x' y' ∨ picture.width = 1 ∨
          picture.WrapsInto x y x' y' ∨ picture.WrapsInto x' y' x y) := by
    intro x y x' y' contained contained'
    exact sharesChroma_iff.trans (chromaIndex_eq_iff contained contained')
  refine ⟨shared, ?_, ?_⟩
  · intro blocksOnly
    by_contra odd
    have columns := picture.valid.width_pos
    have ends : picture.Contains (picture.width - 1) 0 := ⟨by omega, by omega⟩
    have starts : picture.Contains 0 2 := ⟨by omega, by omega⟩
    have wraps : picture.WrapsInto (picture.width - 1) 0 0 2 := ⟨by omega, by omega, rfl, rfl⟩
    have same := (blocksOnly _ _ _ _ ends starts).mp
      ((shared _ _ _ _ ends starts).mpr (.inr (.inr (.inl wraps))))
    exact absurd same.2 (by decide)
  · intro regular x y x' y' contained contained'
    rw [shared x y x' y' contained contained']
    obtain ⟨column, row⟩ := contained
    obtain ⟨column', row'⟩ := contained'
    unfold SameBlock WrapsInto
    omega

/-- In three by three pixels the end of the first row has the chroma of the start of the third. -/
theorem odd_row_ends_in_next_block :
    ∃ picture : Picture .p010,
      Picture.ofSamples 3 3 (Array.replicate 15 (0 : UInt16)) = .ok picture ∧
      picture.Contains 2 0 ∧ picture.Contains 0 2 ∧
      picture.SharesChroma 2 0 0 2 ∧ ¬ SameBlock 2 0 0 2 :=
  ⟨⟨3, 3, Array.replicate 15 (0 : UInt16), by decide, by decide, by decide⟩, rfl,
    ⟨by decide, by decide⟩, ⟨by decide, by decide⟩, ⟨rfl, rfl⟩,
    fun same => absurd same.2 (by decide)⟩

section Planar

variable {picture : Picture .yuv420}

theorem count_le_position_u : picture.width * picture.height ≤ picture.position .u x y :=
  Nat.le_add_right _ _

theorem redStart_le_position_v :
    picture.width * picture.height * 5 / 4 ≤ picture.position .v x y :=
  Nat.le_add_right _ _

theorem position_u_lt_redStart_iff :
    picture.position .u x y < picture.width * picture.height * 5 / 4 ↔
      Format.chromaIndex picture.width x y < picture.width * picture.height / 4 := by
  change picture.width * picture.height + Format.chromaIndex picture.width x y < _ ↔ _
  omega

theorem position_u_lt_redStart (contained : picture.Contains x y)
    (apart : Format.PlanesApart picture.width picture.height) :
    picture.position .u x y < picture.width * picture.height * 5 / 4 := by
  have last := (Format.lastChroma_lt_quarter_iff picture.valid.width_pos
    picture.valid.height_pos).mpr apart
  have bound : Format.chromaIndex picture.width x y ≤
      Format.chromaIndex picture.width (picture.width - 1) (picture.height - 1) :=
    Format.chromaIndex_mono (Nat.le_sub_one_of_lt contained.1) (Nat.le_sub_one_of_lt contained.2)
  exact position_u_lt_redStart_iff.mpr (Nat.lt_of_le_of_lt bound last)

/-- Where the planes meet, some pixel has the first red difference for its blue one. -/
theorem exists_position_u_eq_redStart
    (meet : ¬ Format.PlanesApart picture.width picture.height) :
    ∃ x y, picture.Contains x y ∧
      picture.position .u x y = picture.width * picture.height * 5 / 4 := by
  have columns := picture.valid.width_pos
  have rows := picture.valid.height_pos
  have reached : picture.width * picture.height / 4 ≤
      Format.chromaIndex picture.width (picture.width - 1) (picture.height - 1) := by
    by_contra short
    exact meet ((Format.lastChroma_lt_quarter_iff columns rows).mp (by omega))
  obtain ⟨x, y, column, row, index⟩ := Format.exists_chromaIndex columns rows reached
  refine ⟨x, y, ⟨column, row⟩, ?_⟩
  change picture.width * picture.height + Format.chromaIndex picture.width x y = _
  rw [index]
  omega

/-- Luma is never read as chroma. The blue plane stays below the red one, and no byte is read as
both, at exactly the sizes at which the planes are apart. -/
theorem planes_apart_exactly (picture : Picture .yuv420) :
    (∀ x y x' y', picture.Contains x y → picture.Contains x' y' →
      picture.width * picture.height ≤ picture.position .u x y ∧
      picture.width * picture.height * 5 / 4 ≤ picture.position .v x y ∧
      picture.position .u x y ≠ picture.position .luma x' y' ∧
      picture.position .v x y ≠ picture.position .luma x' y') ∧
    ((∀ x y, picture.Contains x y →
      picture.position .u x y < picture.width * picture.height * 5 / 4) ↔
        Format.PlanesApart picture.width picture.height) ∧
    ((∀ x y x' y', picture.Contains x y → picture.Contains x' y' →
      picture.position .u x y ≠ picture.position .v x' y') ↔
        Format.PlanesApart picture.width picture.height) := by
  refine ⟨?_, ⟨?_, ?_⟩, ?_, ?_⟩
  · intro x y x' y' _ contained'
    have luma : picture.position .luma x' y' < picture.width * picture.height :=
      Format.position_luma_lt .yuv420 contained'.1 contained'.2
    have blue : picture.width * picture.height ≤ picture.position .u x y := count_le_position_u
    have red : picture.width * picture.height * 5 / 4 ≤ picture.position .v x y :=
      redStart_le_position_v
    exact ⟨blue, red, by omega, by omega⟩
  · intro below
    by_contra meet
    obtain ⟨x, y, contained, blue⟩ := exists_position_u_eq_redStart meet
    exact Nat.ne_of_lt (below x y contained) blue
  · intro apart x y contained
    exact position_u_lt_redStart contained apart
  · intro distinct
    by_contra meet
    obtain ⟨x, y, contained, blue⟩ := exists_position_u_eq_redStart meet
    have first : picture.Contains 0 0 := ⟨picture.valid.width_pos, picture.valid.height_pos⟩
    have red : picture.position .v 0 0 = picture.width * picture.height * 5 / 4 := by
      change _ + Format.chromaIndex picture.width 0 0 = _
      simp [Format.chromaIndex]
    exact distinct x y 0 0 contained first (blue.trans red.symm)
  · intro apart x y x' y' contained _
    have blue := position_u_lt_redStart contained apart
    have red : picture.width * picture.height * 5 / 4 ≤ picture.position .v x' y' :=
      redStart_le_position_v
    omega

example : Format.position .yuv420 3 3 .u 2 2 = Format.position .yuv420 3 3 .v 0 0 := rfl

end Planar

end Picture

end HdrGain
