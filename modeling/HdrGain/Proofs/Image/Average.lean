import HdrGain.Image.Picture
import HdrGain.Proofs.Scalar.Exact

namespace HdrGain

open Finset

/-- The pixels of the block that the cell of a map stands for. -/
def blockPixels (scale : Nat) (cell : Nat × Nat) : Finset (Nat × Nat) :=
  Ico (cell.1 * scale) ((cell.1 + 1) * scale) ×ˢ Ico (cell.2 * scale) ((cell.2 + 1) * scale)

section Blocks

variable {scale : Nat} {cell pixel : Nat × Nat}

theorem mem_blockPixels_iff (positive : 0 < scale) :
    pixel ∈ blockPixels scale cell ↔ pixel.1 / scale = cell.1 ∧ pixel.2 / scale = cell.2 := by
  simp only [blockPixels, mem_product, mem_Ico, Nat.div_eq_iff positive, Nat.add_mul, Nat.one_mul]
  omega

theorem card_blockPixels (scale : Nat) (cell : Nat × Nat) :
    (blockPixels scale cell).card = scale * scale := by
  simp only [blockPixels, card_product, Nat.card_Ico, Nat.add_mul, Nat.one_mul,
    Nat.add_sub_cancel_left]

theorem sum_blockPixels {β : Type} [AddCommMonoid β] (scale : Nat) (cell : Nat × Nat)
    (f : Nat × Nat → β) :
    ∑ pixel ∈ blockPixels scale cell, f pixel =
      ∑ dy ∈ range scale, ∑ dx ∈ range scale, f (dx + cell.1 * scale, dy + cell.2 * scale) := by
  simp only [blockPixels, sum_product_right, sum_Ico_eq_sum_range, Nat.add_mul, Nat.one_mul,
    Nat.add_sub_cancel_left]
  simp only [Nat.add_comm]

theorem pairwiseDisjoint_blockPixels (positive : 0 < scale) (cells : Finset (Nat × Nat)) :
    (cells : Set (Nat × Nat)).PairwiseDisjoint (blockPixels scale) := by
  intro cell _ cell' _ apart
  refine disjoint_left.mpr fun pixel inside inside' => apart ?_
  obtain ⟨column, row⟩ := (mem_blockPixels_iff positive).mp inside
  obtain ⟨column', row'⟩ := (mem_blockPixels_iff positive).mp inside'
  exact Prod.ext (column.symm.trans column') (row.symm.trans row')

end Blocks

namespace Picture

variable {format : Format} {picture : Picture format} {scale : Nat} {cell : Nat × Nat}

/-- The cells of the map of a picture. -/
def mapCells (picture : Picture format) (scale : Nat) : Finset (Nat × Nat) :=
  range (picture.width / scale) ×ˢ range (picture.height / scale)

/-- The pixels from the first up to the end of the last whole block, along both axes. -/
def coveredPixels (picture : Picture format) (scale : Nat) : Finset (Nat × Nat) :=
  range (picture.width / scale * scale) ×ˢ range (picture.height / scale * scale)

/-- The color of a pixel. What cannot be read is black. -/
def color (picture : Picture format) (pixel : Nat × Nat) : Color Exact :=
  match picture.pixel pixel.1 pixel.2 with
  | .ok color => color
  | .error _ => Color.zero

theorem pixel_eq_color {x y : Nat} (contained : picture.Contains x y) :
    picture.pixel x y = .ok (picture.color (x, y)) := by
  obtain ⟨color, read⟩ := exists_pixel (α := Exact) contained
  rw [Picture.color, read]

theorem exists_rowSum (covered : picture.CoversBlock scale cell.1 cell.2) {dy : Nat}
    (row : dy < scale) (above : Color Exact) :
    ∃ sum : Color Exact, foldPositions
        (fun sum dx => (sum + ·) <$> picture.blockPixel scale cell.1 cell.2 dx dy) 0 scale above =
          .ok sum ∧
      sum.values = above.values +
        ∑ dx ∈ range (0 + scale),
          (picture.color (dx + cell.1 * scale, dy + cell.2 * scale)).values := by
  refine foldPositions_induction
    (motive := fun columns (sum : Color Exact) => sum.values = above.values +
      ∑ dx ∈ range columns, (picture.color (dx + cell.1 * scale, dy + cell.2 * scale)).values)
    (by rw [range_zero, sum_empty, add_zero]) (fun sum dx _ column before => ?_)
  refine ⟨sum + picture.color (dx + cell.1 * scale, dy + cell.2 * scale), ?_, ?_⟩
  · rw [covered.blockPixel_eq (by omega) row, pixel_eq_color (covered.contains (by omega) row)]
    rfl
  · rw [Color.values_add, before, sum_range_succ, add_assoc]

theorem exists_blockSum (covered : picture.CoversBlock scale cell.1 cell.2) :
    ∃ sum : Color Exact, picture.blockSum scale cell.1 cell.2 = .ok sum ∧
      sum.values = ∑ pixel ∈ blockPixels scale cell, (picture.color pixel).values := by
  have summed : ∃ sum : Color Exact, picture.blockSum scale cell.1 cell.2 = .ok sum ∧
      sum.values = ∑ dy ∈ range (0 + scale), ∑ dx ∈ range scale,
        (picture.color (dx + cell.1 * scale, dy + cell.2 * scale)).values := by
    refine foldPositions_induction
      (motive := fun rows (sum : Color Exact) => sum.values = ∑ dy ∈ range rows, ∑ dx ∈ range scale,
        (picture.color (dx + cell.1 * scale, dy + cell.2 * scale)).values)
      (by rw [range_zero, sum_empty, Color.values_zero]) (fun above dy _ row total => ?_)
    obtain ⟨sum, summed, rowTotal⟩ := exists_rowSum covered (show dy < scale by omega) above
    exact ⟨sum, summed, by rw [rowTotal, total, sum_range_succ, Nat.zero_add]⟩
  rwa [Nat.zero_add, ← sum_blockPixels scale cell fun pixel => (picture.color pixel).values]
    at summed

/-- What the color of a block is made of: of each of its pixels once, and of all alike. -/
structure Averages (picture : Picture format) (scale : Nat) (cell : Nat × Nat)
    (mean : Color Exact) : Prop where
  sampled : picture.block scale cell.1 cell.2 = .ok mean
  values_eq : ∀ channel, mean.values channel =
    (∑ pixel ∈ blockPixels scale cell, (picture.color pixel).values channel) / (scale * scale)
  between : ∀ channel, ∃ darkest ∈ blockPixels scale cell, ∃ brightest ∈ blockPixels scale cell,
    (picture.color darkest).values channel ≤ mean.values channel ∧
      mean.values channel ≤ (picture.color brightest).values channel
  constant : ∀ color, (∀ pixel ∈ blockPixels scale cell, picture.color pixel = color) →
    mean = color

theorem contains_of_covered {pixel : Nat × Nat} (covered : pixel ∈ picture.coveredPixels scale) :
    picture.Contains pixel.1 pixel.2 := by
  simp only [coveredPixels, mem_product, mem_range] at covered
  exact ⟨covered.1.trans_le (Nat.div_mul_le_self _ _), covered.2.trans_le (Nat.div_mul_le_self _ _)⟩

theorem coversBlock_of_mem (positive : 0 < scale) (member : cell ∈ picture.mapCells scale) :
    picture.CoversBlock scale cell.1 cell.2 := by
  simp only [mapCells, mem_product, mem_range] at member
  exact picture.coversBlock_of_lt positive member.1 member.2 (le_refl _) (le_refl _)

section Means

variable (positive : 0 < scale)

include positive

/-- The mean of a block is between two of its pixels: were it less than all of them, so would be
their sum. -/
theorem between_of_sum {total : ℚ} {f : Nat × Nat → ℚ}
    (mean : scale * scale * total = ∑ pixel ∈ blockPixels scale cell, f pixel) :
    ∃ darkest ∈ blockPixels scale cell, ∃ brightest ∈ blockPixels scale cell,
      f darkest ≤ total ∧ total ≤ f brightest := by
  have nonempty : (blockPixels scale cell).Nonempty := by
    rw [← card_pos, card_blockPixels]
    exact Nat.mul_pos positive positive
  have repeated : ∑ _pixel ∈ blockPixels scale cell, total = scale * scale * total := by
    rw [sum_const, card_blockPixels, nsmul_eq_mul, Nat.cast_mul]
  obtain ⟨darkest, inside, least⟩ := exists_le_of_sum_le nonempty (mean.symm.trans repeated.symm).le
  obtain ⟨brightest, inside', most⟩ := exists_le_of_sum_le nonempty (repeated.trans mean).le
  exact ⟨darkest, inside, brightest, inside', least, most⟩

theorem exists_averages (covered : picture.CoversBlock scale cell.1 cell.2) :
    ∃ mean, picture.Averages scale cell mean := by
  obtain ⟨sum, summed, total⟩ := exists_blockSum covered
  have area : ((scale : ℚ) * scale) ≠ 0 := by
    have unit : (scale : ℚ) ≠ 0 := by exact_mod_cast positive.ne'
    exact mul_ne_zero unit unit
  have values (channel : Fin 3) : (sum / (Scalar.ofNat (scale * scale) : Exact)).values channel =
      (∑ pixel ∈ blockPixels scale cell, (picture.color pixel).values channel) /
        (scale * scale) := by
    rw [Color.values_div, total, Finset.sum_apply, Exact.value_ofNat, Nat.cast_mul]
  refine ⟨sum / (Scalar.ofNat (scale * scale) : Exact), ?_, values, fun channel => ?_,
    fun color constant => ?_⟩
  · exact block_eq_ok_iff.mpr ⟨covered.area_lt, sum, summed, rfl⟩
  · exact between_of_sum positive (by rw [values, mul_div_cancel₀ _ area])
  · apply Color.values_injective
    funext channel
    rw [values, sum_congr rfl fun pixel inside => by rw [constant pixel inside], sum_const,
      card_blockPixels, nsmul_eq_mul, Nat.cast_mul, mul_div_cancel_left₀ _ area]

theorem mem_coveredPixels_iff {pixel : Nat × Nat} :
    pixel ∈ picture.coveredPixels scale ↔
      (pixel.1 / scale, pixel.2 / scale) ∈ picture.mapCells scale := by
  simp only [coveredPixels, mapCells, mem_product, mem_range, Nat.div_lt_iff_lt_mul positive]

theorem biUnion_blockPixels :
    (picture.mapCells scale).biUnion (blockPixels scale) = picture.coveredPixels scale := by
  ext pixel
  rw [mem_biUnion, mem_coveredPixels_iff positive]
  constructor
  · rintro ⟨cell, member, inside⟩
    obtain ⟨column, row⟩ := (mem_blockPixels_iff positive).mp inside
    rwa [column, row]
  · intro member
    exact ⟨_, member, (mem_blockPixels_iff positive).mpr ⟨rfl, rfl⟩⟩

/-- Every pixel that is covered is in the block of one cell of the map. -/
theorem existsUnique_cell {pixel : Nat × Nat} (covered : pixel ∈ picture.coveredPixels scale) :
    ∃! cell, cell ∈ picture.mapCells scale ∧ pixel ∈ blockPixels scale cell := by
  refine ⟨(pixel.1 / scale, pixel.2 / scale), ⟨(mem_coveredPixels_iff positive).mp covered,
    (mem_blockPixels_iff positive).mpr ⟨rfl, rfl⟩⟩, fun cell found => ?_⟩
  obtain ⟨column, row⟩ := (mem_blockPixels_iff positive).mp found.2
  exact Prod.ext column.symm row.symm

/-- The colors of a map add up to what the pixels do that it stands for. -/
theorem sum_means {means : Nat × Nat → Color Exact}
    (sampled : ∀ cell ∈ picture.mapCells scale,
      picture.block scale cell.1 cell.2 = .ok (means cell)) (channel : Fin 3) :
    scale * scale * ∑ cell ∈ picture.mapCells scale, (means cell).values channel =
      ∑ pixel ∈ picture.coveredPixels scale, (picture.color pixel).values channel := by
  have unit : (scale : ℚ) ≠ 0 := by exact_mod_cast positive.ne'
  rw [← biUnion_blockPixels positive, sum_biUnion (pairwiseDisjoint_blockPixels positive _), mul_sum]
  refine sum_congr rfl fun cell member => ?_
  obtain ⟨mean, averages⟩ := exists_averages positive (coversBlock_of_mem positive member)
  obtain rfl : mean = means cell := Except.ok.inj (averages.sampled.symm.trans (sampled cell member))
  rw [averages.values_eq, mul_div_cancel₀ _ (mul_ne_zero unit unit)]

end Means

/-- The color of every cell is the mean of the pixels of its block, and the blocks of all cells are
the covered pixels parted among the cells. -/
theorem blocks_average_and_partition (picture : Picture format) {scale : Nat}
    (positive : 0 < scale) :
    (∀ x y, picture.Contains x y → picture.pixel x y = .ok (picture.color (x, y))) ∧
    (∀ cell ∈ picture.mapCells scale, ∃ mean, picture.Averages scale cell mean) ∧
    (∀ means : Nat × Nat → Color Exact,
      (∀ cell ∈ picture.mapCells scale,
        picture.block scale cell.1 cell.2 = .ok (means cell)) →
      ∀ channel,
        scale * scale * ∑ cell ∈ picture.mapCells scale, (means cell).values channel =
          ∑ pixel ∈ picture.coveredPixels scale, (picture.color pixel).values channel) ∧
    (picture.mapCells scale).biUnion (blockPixels scale) = picture.coveredPixels scale ∧
    (∀ pixel ∈ picture.coveredPixels scale, picture.Contains pixel.1 pixel.2 ∧
      ∃! cell, cell ∈ picture.mapCells scale ∧ pixel ∈ blockPixels scale cell) ∧
    picture.width < picture.width / scale * scale + scale ∧
    picture.height < picture.height / scale * scale + scale :=
  ⟨fun _ _ contained => pixel_eq_color contained,
    fun _ member => exists_averages positive (coversBlock_of_mem positive member),
    fun _ sampled => sum_means positive sampled, biUnion_blockPixels positive,
    fun _ covered => ⟨contains_of_covered covered, existsUnique_cell positive covered⟩,
    Nat.lt_div_mul_add positive, Nat.lt_div_mul_add positive⟩

/-- Of three by two pixels the last column is left out, and the four others are half white. -/
theorem half_white_block :
    ∃ (picture : Picture .yuv420) (mean : Color Exact),
      Picture.ofSamples 3 2 #[0, 255, 7, 255, 0, 9, 128, 128, 128] = .ok picture ∧ 0 < 2 ∧
      picture.coveredPixels 2 = range 2 ×ˢ range 2 ∧
      picture.Averages 2 (0, 0) mean ∧ mean.values = ![1 / 2, 0, 0] := by
  obtain ⟨picture, accepted⟩ : ∃ picture : Picture .yuv420,
      Picture.ofSamples 3 2 #[0, 255, 7, 255, 0, 9, 128, 128, 128] = .ok picture := ⟨_, rfl⟩
  obtain ⟨_, averaged, _⟩ := blocks_average_and_partition picture (by decide : 0 < 2)
  have cell : (0, 0) ∈ picture.mapCells 2 := by
    cases accepted
    decide
  have covered : picture.coveredPixels 2 = range 2 ×ˢ range 2 := by
    cases accepted
    rfl
  have half : ∀ channel, (∑ pixel ∈ blockPixels 2 (0, 0), (picture.color pixel).values channel) /
      ((2 : Nat) * (2 : Nat)) = ![1 / 2, 0, 0] channel := by
    cases accepted
    decide +kernel
  obtain ⟨mean, averages⟩ := averaged (0, 0) cell
  exact ⟨picture, mean, accepted, by decide, covered, averages,
    funext fun channel => (averages.values_eq channel).trans (half channel)⟩

end Picture

end HdrGain
