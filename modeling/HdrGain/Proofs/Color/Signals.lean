import HdrGain.Gamut
import HdrGain.Proofs.Image.Pixels
import HdrGain.Proofs.Scalar.SpecialCases
import HdrGain.Transfer

namespace HdrGain

open Rounding

def Color.IsClear (color : Color Float32) (low high : ℕ) : Prop :=
  Clear color.r low high ∧ Clear color.g low high ∧ Clear color.b low high

theorem Picture.exists_levels {picture : Picture .yuv420} {x y : Nat}
    (contained : picture.Contains x y) :
    ∃ luma u v : UInt8, ∀ {α : Type} [Scalar α], picture.pixel (α := α) x y =
      .ok (Format.yuv420.normalise luma.toNat u.toNat v.toNat) := by
  have byte (component : Component) :
      ∃ sample : UInt8, picture.level component x y = .ok sample.toNat := by
    obtain ⟨found, read⟩ := exists_level component contained
    obtain ⟨_, held⟩ := level_eq_ok_iff.mp read
    obtain ⟨sample, _, rfl⟩ := Option.map_eq_some_iff.mp held
    exact ⟨sample, read⟩
  obtain ⟨luma, lumaRead⟩ := byte .luma
  obtain ⟨u, uRead⟩ := byte .u
  obtain ⟨v, vRead⟩ := byte .v
  refine ⟨luma, u, v, ?_⟩
  intro α scalar
  simp only [Picture.pixel, Picture.luma, Picture.chroma, lumaRead, uRead, vRead]
  rfl

theorem clear_byte (level : UInt8) : Clear (Scalar.ofNat level.toNat) 0 8 :=
  .ofNat (Nat.le_of_lt level.toNat_lt) (by decide)

theorem clear_normalise (luma u v : UInt8) :
    Clear (Format.yuv420.normalise luma.toNat u.toNat v.toNat : Color Float32).y 8 8 ∧
      Clear (Format.yuv420.normalise luma.toNat u.toNat v.toNat : Color Float32).u 31 9 ∧
      Clear (Format.yuv420.normalise luma.toNat u.toNat v.toNat : Color Float32).v 31 9 := by
  have share {value : Float32} {low high : ℕ} (clear : Clear value low high) (fine : low ≤ 141)
      (large : high ≤ 127) : Clear (value / 255.0) (low + 8) high :=
    clear.div Format.numberOf?_fullWhite (by norm_num) (by norm_num) large (by omega)
  have chroma (level : UInt8) : Clear ((Scalar.ofNat level.toNat - 128.0) / 255.0) 31 9 :=
    share ((clear_byte level).sub Format.clear_fullOrigin (by decide) (by decide)) (by decide)
      (by decide)
  exact ⟨share (clear_byte luma) (by decide) (by decide), chroma u, chroma v⟩

theorem Chroma.Srgb.isClear_toRgb {color : Color Float32} (y : Clear color.y 8 8)
    (u : Clear color.u 31 9) (v : Clear color.v 31 9) : (toRgb color).IsClear 79 11 := by
  have redFactor : (1.402 : Float32).toModel.unpack =
      .finite .positive 11760828 (-23) (by decide) := by rfl
  have blueLoss : (0.34414 : Float32).toModel.unpack =
      .finite .positive 11547422 (-25) (by decide) := by rfl
  have redLoss : (0.71414 : Float32).toModel.unpack =
      .finite .positive 11981281 (-24) (by decide) := by rfl
  have blueFactor : (1.772 : Float32).toModel.unpack =
      .finite .positive 14864613 (-23) (by decide) := by rfl
  have forRed : Clear 1.402 0 1 := .of_unpack redFactor (by norm_num) (by norm_num)
  have lostToBlue : Clear 0.34414 2 0 := .of_unpack blueLoss (by norm_num) (by norm_num)
  have lostToRed : Clear 0.71414 1 0 := .of_unpack redLoss (by norm_num) (by norm_num)
  have forBlue : Clear 1.772 0 1 := .of_unpack blueFactor (by norm_num) (by norm_num)
  have redShare := forRed.mul v (by decide) (by decide)
  have blueShare := forBlue.mul u (by decide) (by decide)
  have blueGiven := lostToBlue.mul u (by decide) (by decide)
  have redGiven := lostToRed.mul v (by decide) (by decide)
  -- Each sum may cancel all but the last places of its terms. Green takes two of them, after the
  -- one in each chroma level.
  have red := (y.mono (by decide) (by decide)).add redShare (by decide) (by decide)
  have blue := (y.mono (by decide) (by decide)).add blueShare (by decide) (by decide)
  have rest := (y.mono (by decide) (by decide)).sub blueGiven (by decide) (by decide)
  have green := rest.sub (redGiven.mono (by decide) (by decide)) (by decide) (by decide)
  exact ⟨red.mono (by decide) (by decide), green.mono (by decide) (by decide),
    blue.mono (by decide) (by decide)⟩

namespace Transfer.Srgb

variable {signal : Float32}

/-- On the line near black a signal keeps its sign. -/
theorem line_keeps_sign (clear : Clear signal 79 11) :
    (signal < 0.0 → signal / 12.92 < 0.0) ∧ (¬ signal < 0.0 → 0.0 ≤ signal / 12.92) := by
  have slope : (12.92 : Float32).toModel.unpack =
      .finite .positive 13547602 (-20) (by decide) := by rfl
  obtain ⟨divisor, steep, least, most⟩ : ∃ divisor : ℚ, numberOf? 12.92 = some divisor ∧
      1 ≤ divisor ∧ divisor ≤ 2 ^ 4 :=
    ⟨_, numberOf?_of_unpack slope, by norm_num [signed], by norm_num [signed]⟩
  have positive : 0 < divisor := one_pos.trans_le least
  obtain ⟨number, stands, bound, away⟩ := clear
  obtain ⟨_, light, found, rounds⟩ :=
    numberOf?_div_of_one_le stands bound steep least (by decide)
  rw [lt_iff stands numberOf?_zero, lt_iff found numberOf?_zero, le_iff numberOf?_zero found]
  constructor
  · intro negative
    have far : (2 : ℚ) ^ (-79 : ℤ) ≤ -number := by
      rw [← abs_of_neg negative]
      exact away.resolve_left negative.ne
    have below : number / divisor ≤ (-1 : ℤ) * 2 ^ (-83 : ℤ) := by
      rw [div_le_iff₀ positive]
      norm_num at far ⊢
      linarith
    have kept := rounds.le_of_le (-1) (-83) (by decide) (by decide) below
    exact kept.trans_lt (by norm_num)
  · intro nonneg
    exact rounds.nonneg (div_nonneg (not_lt.mp nonneg) positive.le)

/-- Past the line the curve takes a power of a positive number. -/
theorem base_positive (within : Within signal 11) (past : ¬ signal ≤ 0.04045) :
    ¬ signal < 0.0 ∧ 0.0 < (signal + 0.055) / 1.055 ∧
      ((signal + 0.055) / 1.055).isFinite = true := by
  have knee : (0.04045 : Float32).toModel.unpack =
      .finite .positive 10858214 (-28) (by decide) := by rfl
  have offset : (0.055 : Float32).toModel.unpack =
      .finite .positive 14763950 (-28) (by decide) := by rfl
  have total : (1.055 : Float32).toModel.unpack =
      .finite .positive 8849981 (-23) (by decide) := by rfl
  have shift : Within 0.055 11 := ⟨_, numberOf?_of_unpack offset, by norm_num [signed]⟩
  obtain ⟨number, stands⟩ := within.exists_number
  have bounded := abs_add_le_of_within stands (numberOf?_of_unpack offset) within shift
  obtain ⟨sum, sumStands, sumRounds⟩ := numberOf?_add stands (numberOf?_of_unpack offset)
    (bounded.trans (two_pow_le_largest (by decide)))
  obtain ⟨divisor, divides, least, most⟩ : ∃ divisor : ℚ, numberOf? 1.055 = some divisor ∧
      1 ≤ divisor ∧ divisor ≤ 2 :=
    ⟨_, numberOf?_of_unpack total, by norm_num [signed], by norm_num [signed]⟩
  obtain ⟨_, base, baseStands, baseRounds⟩ := numberOf?_div_of_one_le sumStands
    (sumRounds.abs_le_two_pow bounded) divides least (by decide)
  rw [le_iff stands (numberOf?_of_unpack knee), not_le] at past
  rw [lt_iff stands numberOf?_zero, lt_iff numberOf?_zero baseStands, isFinite_iff]
  have sumAbove := sumRounds.le_of_ge 1 (-5) (by decide) (by decide) (by
    norm_num [signed] at past ⊢
    linarith)
  have baseAbove := baseRounds.le_of_ge 1 (-6) (by decide) (by decide) (by
    rw [le_div_iff₀ (one_pos.trans_le least)]
    norm_num at sumAbove ⊢
    linarith)
  refine ⟨not_lt.mpr (past.le.trans' (by norm_num [signed])), ?_, base, baseStands⟩
  exact lt_of_lt_of_le (by norm_num) baseAbove

/-- The curve keeps the sign of every signal that is not too close to zero. -/
theorem decode_keeps_sign [Elementary Float32] (special : SpecialCases)
    (clear : Clear signal 79 11) :
    signal < 0.0 ∧ decode signal < 0.0 ∨ ¬ signal < 0.0 ∧ 0.0 ≤ decode signal := by
  unfold decode
  by_cases line : signal ≤ 0.04045
  · obtain ⟨below, above⟩ := line_keeps_sign clear
    rw [if_pos line]
    by_cases negative : signal < 0.0
    · exact .inl ⟨negative, below negative⟩
    · exact .inr ⟨negative, above negative⟩
  · obtain ⟨nonneg, positive, finite⟩ := base_positive clear.within line
    rw [if_neg line]
    exact .inr ⟨nonneg, special.pow_positive _ _ positive finite (by decide)⟩

end Transfer.Srgb

end HdrGain
