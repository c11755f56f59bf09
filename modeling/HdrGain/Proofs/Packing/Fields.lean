import HdrGain.Color
import HdrGain.Proofs.Scalar.Exact
import HdrGain.Proofs.Scalar.Extended

namespace HdrGain

open Rounding

namespace Rounding

/-- The whole part of a float within the words of 32 bits. What is negative or no number has none,
and what is past the words has that of the last one. -/
def saturated (value : Float32) : ℕ :=
  match numberOf? value with
  | some number => min ⌊number⌋₊ 4294967295
  | none => if value = Float32.inf then 4294967295 else 0

end Rounding

theorem Scalar.toNat_toWord {α : Type} [Scalar α] (value : α) :
    (toWord value).toNat = min 4294967295 (truncate value) := by
  rw [toWord, UInt32.toNat_ofNat']
  omega

theorem Scalar.toNat_toWord_float (value : Float32) :
    (toWord value).toNat = saturated value := by
  cases stands : numberOf? value with
  | some number =>
      simp only [toNat_toWord, truncate_eq stands, saturated, stands]
      omega
  | none =>
      have endless : ¬ value.isFinite = true := by
        rw [isFinite_iff, stands]
        exact fun ⟨_, found⟩ => nomatch found
      rcases isNaN_or_inf_of_not_isFinite endless with none | rfl | rfl
      · rw [eq_nan none]
        decide
      · decide
      · decide

namespace Packing

variable {α : Type} [Scalar α]

section Words

/-- Ten bits of a word, from the place of the channel on. -/
def fieldAt (word : UInt32) (channel : Fin 3) : ℕ :=
  word.toNat / 2 ^ (10 * channel.val) % 2 ^ 10

/-- What has no bits from a place on and what is shifted there add up. -/
theorem toNat_or_shiftLeft {low high shift : UInt32} (shift_lt : shift.toNat < 32)
    (below : low.toNat < 2 ^ shift.toNat) (fits : high.toNat * 2 ^ shift.toNat < 2 ^ 32) :
    (low ||| high <<< shift).toNat = low.toNat + high.toNat * 2 ^ shift.toNat := by
  rw [UInt32.toNat_or, UInt32.toNat_shiftLeft, Nat.mod_eq_of_lt shift_lt, Nat.shiftLeft_eq,
    Nat.mod_eq_of_lt fits, Nat.or_comm, ← Nat.shiftLeft_eq, ← Nat.shiftLeft_add_eq_or_of_lt below,
    Nat.add_comm]

theorem toNat_field (channel : α) :
    (field channel).toNat = (Scalar.toWord (channel * 1023.0)).toNat % 2 ^ 10 := by
  rw [field, UInt32.toNat_and]
  exact Nat.and_two_pow_sub_one_eq_mod _ 10

theorem toNat_field_lt (channel : α) : (field channel).toNat < 2 ^ 10 := by
  rw [toNat_field]
  exact Nat.mod_lt _ (Nat.two_pow_pos 10)

theorem toNat_pack (color : Color α) :
    (pack color).toNat = (field color.r).toNat + (field color.g).toNat * 2 ^ 10 +
      (field color.b).toNat * 2 ^ 20 + 3 * 2 ^ 30 := by
  have red := toNat_field_lt color.r
  have green := toNat_field_lt color.g
  have blue := toNat_field_lt color.b
  have lower : (field color.r ||| field color.g <<< 10).toNat =
      (field color.r).toNat + (field color.g).toNat * 2 ^ 10 :=
    toNat_or_shiftLeft (by decide) red (show _ * 2 ^ 10 < _ by omega)
  have fields : (field color.r ||| field color.g <<< 10 ||| field color.b <<< 20).toNat =
      (field color.r).toNat + (field color.g).toNat * 2 ^ 10 + (field color.b).toNat * 2 ^ 20 := by
    rw [← lower]
    refine toNat_or_shiftLeft (by decide) ?_ (show _ * 2 ^ 20 < _ by omega)
    rw [lower]
    show _ < 2 ^ 20
    omega
  rw [← fields]
  refine toNat_or_shiftLeft (by decide) ?_ (by decide)
  rw [fields]
  show _ < 2 ^ 30
  omega

theorem fieldAt_pack (color : Color α) (channel : Fin 3) :
    fieldAt (pack color) channel = (field (color.channels channel)).toNat := by
  have red := toNat_field_lt color.r
  have green := toNat_field_lt color.g
  have blue := toNat_field_lt color.b
  rw [fieldAt, toNat_pack]
  fin_cases channel
  · show _ / 2 ^ 0 % 2 ^ 10 = (field color.r).toNat
    omega
  · show _ / 2 ^ 10 % 2 ^ 10 = (field color.g).toNat
    omega
  · show _ / 2 ^ 20 % 2 ^ 10 = (field color.b).toNat
    omega

theorem opacity_pack (color : Color α) : (pack color).toNat / 2 ^ 30 = 3 := by
  have red := toNat_field_lt color.r
  have green := toNat_field_lt color.g
  have blue := toNat_field_lt color.b
  rw [toNat_pack]
  omega

/-- Under the same opacity a word is its three fields. -/
theorem pack_eq_pack_iff {first second : Color α} :
    pack first = pack second ↔
      ∀ channel, fieldAt (pack first) channel = fieldAt (pack second) channel := by
  constructor
  · intro same channel
    rw [same]
  · intro same
    have red := same 0
    have green := same 1
    have blue := same 2
    rw [fieldAt_pack, fieldAt_pack] at red green blue
    rw [← UInt32.toNat_inj, toNat_pack, toNat_pack]
    change (field first.r).toNat = (field second.r).toNat at red
    change (field first.g).toNat = (field second.g).toNat at green
    change (field first.b).toNat = (field second.b).toNat at blue
    rw [red, green, blue]

theorem testBit_fieldAt (word : UInt32) {channel : Fin 3} {bit : ℕ}
    (inside : bit / 10 = channel) :
    (fieldAt word channel).testBit (bit % 10) = word.toNat.testBit bit := by
  have place : bit % 10 + 10 * channel.val = bit := by omega
  rw [fieldAt, Nat.testBit_mod_two_pow, Nat.testBit_div_two_pow, place,
    decide_eq_true (Nat.mod_lt bit (by decide)), Bool.true_and]

/-- A bit in which two words differ belongs to a channel in which the colors differ. -/
theorem exists_channel_ne {first second : Color α} {bit : ℕ}
    (differ : (pack first).toNat.testBit bit ≠ (pack second).toNat.testBit bit) :
    ∃ channel : Fin 3, bit / 10 = channel ∧
      first.channels channel ≠ second.channels channel := by
  by_cases inside : bit / 10 < 3
  · obtain ⟨channel, placed⟩ : ∃ channel : Fin 3, bit / 10 = channel := ⟨⟨bit / 10, inside⟩, rfl⟩
    refine ⟨channel, placed, fun same => differ ?_⟩
    rw [← testBit_fieldAt (pack first) placed, ← testBit_fieldAt (pack second) placed,
      fieldAt_pack, fieldAt_pack, same]
  · -- above the fields there is the opacity, the same in every word
    obtain ⟨place, rfl⟩ : ∃ place, bit = place + 30 := ⟨bit - 30, by omega⟩
    refine absurd ?_ differ
    rw [← Nat.testBit_div_two_pow, ← Nat.testBit_div_two_pow, opacity_pack, opacity_pack]

end Words

section Channels

theorem fieldAt_pack_float (color : Color Float32) (channel : Fin 3) :
    fieldAt (pack color) channel = saturated (color.channels channel * 1023.0) % 2 ^ 10 := by
  rw [fieldAt_pack, toNat_field, Scalar.toNat_toWord_float]

example : pack (⟨Float32.nan, Float32.inf, -1.0⟩ : Color Float32) = 0xc00ffc00 := by decide

variable {first second : Color Exact} {channel : Fin 3}

/-- A channel below zero has no whole part, and its field is zero. -/
theorem fieldAt_pack_exact {color : Color Exact} (inside : color.values channel ≤ 1) :
    fieldAt (pack color) channel = ⌊1023 * color.values channel⌋₊ := by
  have level : (color.channels channel * 1023.0).value = 1023 * color.values channel := by
    rw [Exact.value_mul, Exact.value_ofScientific, Color.value_channels, mul_comm]
    norm_num
  have below : ⌊1023 * color.values channel⌋₊ ≤ 1023 := Nat.floor_le_of_le (by
    push_cast
    linarith)
  rw [fieldAt_pack, toNat_field, Scalar.toNat_toWord, Exact.truncate_eq, level]
  omega

theorem pack_eq_pack_iff_exact (firstInside : ∀ channel, first.values channel ≤ 1)
    (secondInside : ∀ channel, second.values channel ≤ 1) :
    pack first = pack second ↔
      ∀ channel, ⌊1023 * first.values channel⌋₊ = ⌊1023 * second.values channel⌋₊ := by
  rw [pack_eq_pack_iff]
  refine forall_congr' fun channel => ?_
  rw [fieldAt_pack_exact (firstInside channel), fieldAt_pack_exact (secondInside channel)]

theorem fieldAt_pack_mono (ordered : first.values channel ≤ second.values channel)
    (inside : second.values channel ≤ 1) :
    fieldAt (pack first) channel ≤ fieldAt (pack second) channel := by
  rw [fieldAt_pack_exact (ordered.trans inside), fieldAt_pack_exact inside]
  exact Nat.floor_le_floor (by linarith)

end Channels

/-- Whatever the channels are, numbers or not, each of the three fields is that of its own channel,
and the opacity is full. Up to 1 and without rounding, a field is the whole part of its channel in
units of 1 / 1023, so that words tell colors apart as far as these whole parts do, and a field rises
with its channel. -/
theorem fields_hold_whole_parts :
    (∀ (color : Color Float32) (channel : Fin 3),
      fieldAt (pack color) channel =
        saturated (color.channels channel * 1023.0) % 2 ^ 10) ∧
    (∀ color : Color Float32, (pack color).toNat / 2 ^ 30 = 3) ∧
    (∀ (first second : Color Float32) (bit : ℕ),
      (pack first).toNat.testBit bit ≠ (pack second).toNat.testBit bit →
        ∃ channel : Fin 3, bit / 10 = channel ∧
          first.channels channel ≠ second.channels channel) ∧
    (∀ (color : Color Exact) (channel : Fin 3), color.values channel ≤ 1 →
      fieldAt (pack color) channel = ⌊1023 * color.values channel⌋₊) ∧
    (∀ first second : Color Exact,
      (∀ channel, first.values channel ≤ 1) → (∀ channel, second.values channel ≤ 1) →
        (pack first = pack second ↔
          ∀ channel, ⌊1023 * first.values channel⌋₊ = ⌊1023 * second.values channel⌋₊)) ∧
    ∀ (first second : Color Exact) (channel : Fin 3),
      first.values channel ≤ second.values channel → second.values channel ≤ 1 →
        fieldAt (pack first) channel ≤ fieldAt (pack second) channel := by
  refine ⟨fieldAt_pack_float, opacity_pack, fun first second bit => exists_channel_ne,
    fun color channel => fieldAt_pack_exact, fun first second => pack_eq_pack_iff_exact,
    fun first second channel => fieldAt_pack_mono⟩

/-- A half is between two units, the next unit is told apart from it, and a channel that is no
number leaves those beside it as they are. -/
theorem half_between_units :
    fieldAt (pack (⟨Float32.nan, 2.0, Float32.inf⟩ : Color Float32)) 1 =
        saturated (2.0 * 1023.0) % 2 ^ 10 ∧
      (pack (⟨Float32.nan, 2.0, Float32.inf⟩ : Color Float32)).toNat / 2 ^ 30 = 3 ∧
      (pack (⟨1.0, Float32.nan, 0.5⟩ : Color Float32)).toNat.testBit 9 ≠
        (pack (⟨0.0, Float32.nan, 0.5⟩ : Color Float32)).toNat.testBit 9 ∧
      (∃ channel : Fin 3, 9 / 10 = channel.val ∧
        (⟨1.0, Float32.nan, 0.5⟩ : Color Float32).channels channel ≠
          (⟨0.0, Float32.nan, 0.5⟩ : Color Float32).channels channel) ∧
      (1 / 2 : ℚ) ≤ 1 ∧ fieldAt (pack (Color.splat (⟨1 / 2⟩ : Exact))) 0 = 511 ∧
      (512 / 1023 : ℚ) ≤ 1 ∧
        pack (Color.splat (⟨1 / 2⟩ : Exact)) ≠ pack (Color.splat (⟨512 / 1023⟩ : Exact)) ∧
      (1 / 2 : ℚ) ≤ 512 / 1023 ∧
        fieldAt (pack (Color.splat (⟨1 / 2⟩ : Exact))) 0 ≤
          fieldAt (pack (Color.splat (⟨512 / 1023⟩ : Exact))) 0 := by
  obtain ⟨taken, full, differing, whole, apart, rising⟩ := fields_hold_whole_parts
  have inside {grey : ℚ} (most : grey ≤ 1) (channel : Fin 3) :
      (Color.splat (⟨grey⟩ : Exact)).values channel ≤ 1 := by
    fin_cases channel <;> exact most
  have half : (1 / 2 : ℚ) ≤ 1 := by norm_num
  have next : (512 / 1023 : ℚ) ≤ 1 := by norm_num
  have ordered : (1 / 2 : ℚ) ≤ 512 / 1023 := by norm_num
  have bits : (pack (⟨1.0, Float32.nan, 0.5⟩ : Color Float32)).toNat.testBit 9 ≠
      (pack (⟨0.0, Float32.nan, 0.5⟩ : Color Float32)).toNat.testBit 9 := by decide
  have units : ⌊(1023 * (1 / 2) : ℚ)⌋₊ = 511 := by
    rw [Nat.floor_eq_iff (by norm_num)]
    norm_num
  have units' : ⌊(1023 * (512 / 1023) : ℚ)⌋₊ = 512 := by
    rw [Nat.floor_eq_iff (by norm_num)]
    norm_num
  have told : ⌊(1023 * (1 / 2) : ℚ)⌋₊ ≠ ⌊(1023 * (512 / 1023) : ℚ)⌋₊ := by
    rw [units, units']
    decide
  exact ⟨taken _ 1, full _, bits, differing _ _ 9 bits, half,
    (whole _ 0 (inside half 0)).trans units, next,
    fun same => told ((apart _ _ (inside half) (inside next)).mp same 0), ordered,
    rising _ _ 0 ordered (inside next 0)⟩

end Packing

end HdrGain
