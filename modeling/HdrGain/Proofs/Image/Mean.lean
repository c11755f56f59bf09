import HdrGain.Image.Picture
import HdrGain.Proofs.Color.Light

namespace HdrGain

open Unrounded

theorem Format.normalise_isReal (format : Format) (luma u v : Nat) :
    (format.normalise luma u v : Color Unrounded).IsReal := by
  cases format with
  | yuv420 =>
      refine ⟨⟨luma / 255.0, (u - 128.0) / 255.0, (v - 128.0) / 255.0⟩, ?_⟩
      simp only [normalise, Color.map, ofNat_eq, ofScientific_eq, real_sub]
      rw [real_div (by norm_num), real_div (by norm_num), real_div (by norm_num)]
  | p010 =>
      refine ⟨⟨luma / 940.0, (u - 64.0) / 940.0 - 0.5, (v - 64.0) / 940.0 - 0.5⟩, ?_⟩
      simp only [normalise, Color.map, ofNat_eq, ofScientific_eq, real_sub]
      rw [real_div (by norm_num), real_div (by norm_num), real_div (by norm_num), real_sub,
        real_sub]

theorem Format.normalise_white :
    (Format.yuv420.normalise 255 128 128 : Color Unrounded) = ⟨real 1, real 0, real 0⟩ := by
  simp only [normalise, ofNat_eq, ofScientific_eq, real_sub]
  rw [real_div (by norm_num), real_div (by norm_num)]
  norm_num

theorem Format.normalise_half :
    (Format.p010.normalise 470 534 534 : Color Unrounded) = ⟨real (1 / 2), real 0, real 0⟩ := by
  simp only [normalise, ofNat_eq, ofScientific_eq, real_sub]
  rw [real_div (by norm_num), real_div (by norm_num), real_sub]
  norm_num

namespace Color

variable {first second : Color Unrounded}

theorem zero_isReal : (zero : Color Unrounded).IsReal :=
  ⟨⟨0, 0, 0⟩, by rw [zero, zero_eq]; rfl⟩

theorem IsReal.add (firstReal : first.IsReal) (secondReal : second.IsReal) :
    (first + second).IsReal := by
  obtain ⟨left, rfl⟩ := firstReal
  obtain ⟨right, rfl⟩ := secondReal
  exact ⟨⟨left.r + right.r, left.g + right.g, left.b + right.b⟩, rfl⟩

theorem IsReal.div (colorReal : first.IsReal) {divisor : ℝ} (nonzero : divisor ≠ 0) :
    (first / real divisor).IsReal := by
  obtain ⟨exact, rfl⟩ := colorReal
  refine ⟨exact.map (· / divisor), ?_⟩
  change (exact.map real).map (· / real divisor) = (exact.map (· / divisor)).map real
  simp only [map, real_div nonzero]

theorem IsReal.zero_add_eq (colorReal : first.IsReal) : zero + first = first := by
  obtain ⟨exact, rfl⟩ := colorReal
  rw [zero, zero_eq]
  change (⟨real (0 + exact.r), real (0 + exact.g), real (0 + exact.b)⟩ : Color Unrounded) = _
  simp only [zero_add, map]

theorem IsReal.div_one_eq (colorReal : first.IsReal) : first / real 1 = first := by
  obtain ⟨exact, rfl⟩ := colorReal
  change (exact.map real).map (· / real 1) = exact.map real
  simp only [map, real_div one_ne_zero, div_one]

end Color

namespace Picture

variable {format : Format} {picture : Picture format} {x y : Nat} {color : Color Unrounded}

theorem pixel_eq {luma u v : Nat} (lumaRead : picture.luma x y = .ok luma)
    (chromaRead : picture.chroma x y = .ok (u, v)) :
    picture.pixel (α := Unrounded) x y = .ok (format.normalise luma u v) := by
  rw [pixel, lumaRead, chromaRead]
  rfl

theorem pixel_isReal (read : picture.pixel x y = .ok color) : color.IsReal := by
  simp only [pixel, Address.bind_eq_ok_iff, pure, Except.pure, Except.ok.injEq] at read
  obtain ⟨luma, _, chroma, _, rfl⟩ := read
  exact format.normalise_isReal luma chroma.1 chroma.2

theorem blockSum_isReal {scale : Nat} (summed : picture.blockSum scale x y = .ok color) :
    color.IsReal := by
  refine foldPositions_preserves (motive := fun _ (sum : Color Unrounded) => sum.IsReal) summed
    Color.zero_isReal (fun rows dy next _ _ rowsReal stepped => ?_)
  refine foldPositions_preserves (motive := fun _ (sum : Color Unrounded) => sum.IsReal) stepped
    rowsReal (fun sum dx next _ _ sumReal stepped => ?_)
  cases read : picture.blockPixel (α := Unrounded) scale x y dx dy with
  | error fault =>
      rw [read] at stepped
      cases stepped
  | ok pixel =>
      rw [read] at stepped
      cases stepped
      simp only [blockPixel, Address.bind_eq_ok_iff] at read
      obtain ⟨column, _, row, _, read⟩ := read
      exact sumReal.add (pixel_isReal read)

theorem block_isReal {scale : Nat} (positive : 0 < scale)
    (read : picture.block scale x y = .ok color) : color.IsReal := by
  obtain ⟨_, sum, summed, rfl⟩ := block_eq_ok_iff.mp read
  have area : ((scale * scale : Nat) : ℝ) ≠ 0 := by
    exact_mod_cast (Nat.mul_pos positive positive).ne'
  exact (blockSum_isReal summed).div area

/-- Wherever a single pixel can be read, it is the mean of its block. -/
theorem block_one (contained : picture.Contains x y) :
    picture.block (α := Unrounded) 1 x y = picture.pixel x y := by
  obtain ⟨color, read⟩ := exists_pixel (α := Unrounded) contained
  have kept : (Color.zero + color) / (Scalar.ofNat 1 : Unrounded) = color := by
    rw [(pixel_isReal read).zero_add_eq, ofNat_eq, Nat.cast_one]
    exact (pixel_isReal read).div_one_eq
  rw [block_one_eq_map (Nat.lt_trans contained.1 picture.valid.width_lt)
    (Nat.lt_trans contained.2 picture.valid.height_lt), read]
  exact congrArg Except.ok kept

end Picture

end HdrGain
