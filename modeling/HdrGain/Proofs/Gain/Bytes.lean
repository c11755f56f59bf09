import HdrGain.GainMap
import HdrGain.Proofs.Scalar.Exact

namespace HdrGain.Gain

/-! # Bytes of gains without rounding

A gain has the byte of the last step that it has reached. That one rule holds of every gain, however
far outside of -1 and 1, and fixes what the byte of a gain is: the order of bytes, their ends and
what a byte loses of its gain all follow from it. -/

variable {gain first second : Exact}

theorem value_ofByte (byte : UInt8) :
    (ofByte byte : Exact).value = (byte.toNat - 127.5) / 127.5 := rfl

theorem value_ofByte_le_iff {first second : UInt8} :
    (ofByte first : Exact).value ≤ (ofByte second : Exact).value ↔ first ≤ second := by
  rw [value_ofByte, value_ofByte, div_le_div_iff_of_pos_right (by norm_num), sub_le_sub_iff_right,
    Nat.cast_le, UInt8.le_iff_toNat_le]

theorem value_ofByte_mem (byte : UInt8) :
    -1 ≤ (ofByte byte : Exact).value ∧ (ofByte byte : Exact).value ≤ 1 := by
  have least : (0 : ℚ) ≤ byte.toNat := Nat.cast_nonneg _
  have most : (byte.toNat : ℚ) ≤ 255 := by exact_mod_cast Nat.le_of_lt_succ byte.toNat_lt
  rw [value_ofByte, le_div_iff₀ (by norm_num), div_le_iff₀ (by norm_num)]
  constructor <;> linarith

/-- The bytes are steps of 2 / 255. -/
theorem value_ofByte_succ {byte next : UInt8} (successor : next.toNat = byte.toNat + 1) :
    (ofByte next : Exact).value = (ofByte byte : Exact).value + 2 / 255 := by
  rw [value_ofByte, value_ofByte, successor]
  push_cast
  ring

theorem toNat_toByte_exact (gain : Exact) :
    (toByte gain).toNat = min 255 ⌊gain.value * 127.5 + 127.5⌋₊ := by
  have level : (gain * halfRange + halfRange).value = gain.value * 127.5 + 127.5 := rfl
  rw [toByte, Scalar.toByte, Exact.truncate_eq, level, UInt8.toNat_ofNat']
  omega

/-- A gain is encoded as `byte` or more from the gain of `byte` on. -/
theorem le_toByte_iff (gain : Exact) (byte : UInt8) :
    byte ≤ toByte gain ↔ byte = 0 ∨ ofByte byte ≤ gain := by
  have inside := byte.toNat_lt
  have reached : ofByte byte ≤ gain ↔ (byte.toNat : ℚ) ≤ gain.value * 127.5 + 127.5 := by
    rw [Exact.le_iff, value_ofByte, div_le_iff₀ (by norm_num), sub_le_iff_le_add]
  have lowest : byte = 0 ↔ byte.toNat = 0 := UInt8.toNat_inj.symm
  rw [UInt8.le_iff_toNat_le, toNat_toByte_exact, le_min_iff, reached, lowest]
  rcases Nat.eq_zero_or_pos byte.toNat with none | some
  · rw [none]
    exact ⟨fun _ => .inl rfl, fun _ => ⟨Nat.zero_le _, Nat.zero_le _⟩⟩
  · rw [Nat.le_floor_iff' some.ne', or_iff_right some.ne', and_iff_right (Nat.le_of_lt_succ inside)]

theorem toByte_le_toByte (ordered : first ≤ second) : toByte first ≤ toByte second := by
  rw [le_toByte_iff]
  rcases (le_toByte_iff first _).mp UInt8.le_rfl with lowest | reached
  · exact .inl lowest
  · exact .inr (le_trans (Exact.le_iff.mp reached) ordered)

/-- The gain of a byte is encoded as that byte. -/
theorem toByte_ofByte (byte : UInt8) : toByte (ofByte byte : Exact) = byte := by
  apply UInt8.le_antisymm
  · rcases (le_toByte_iff (ofByte byte) _).mp UInt8.le_rfl with lowest | reached
    · rw [lowest]
      exact UInt8.zero_le
    · exact value_ofByte_le_iff.mp reached
  · exact (le_toByte_iff _ byte).mpr (.inr (value_ofByte_le_iff.mpr UInt8.le_rfl))

theorem value_ofByte_toByte_le (inside : -1 ≤ gain.value) :
    (ofByte (toByte gain) : Exact).value ≤ gain.value := by
  rcases (le_toByte_iff gain _).mp UInt8.le_rfl with lowest | reached
  · rw [lowest, value_ofByte]
    norm_num
    exact inside
  · exact reached

theorem value_ofByte_last : (ofByte 255 : Exact).value = 1 := by
  change ((255 : ℕ) - 127.5 : ℚ) / 127.5 = 1
  norm_num

theorem toByte_eq_last_iff (gain : Exact) : toByte gain = 255 ↔ 1 ≤ gain.value := by
  have most : toByte gain ≤ 255 := UInt8.le_iff_toNat_le.mpr
    (Nat.le_of_lt_succ (toByte gain).toNat_lt)
  have last : toByte gain = 255 ↔ 255 ≤ toByte gain :=
    ⟨fun same => same ▸ UInt8.le_rfl, fun least => UInt8.le_antisymm most least⟩
  rw [last, le_toByte_iff, or_iff_right (by decide), Exact.le_iff, value_ofByte_last]

/-- The first byte is kept until the second step is reached. -/
theorem toByte_eq_first_iff (gain : Exact) : toByte gain = 0 ↔ gain.value < -1 + 2 / 255 := by
  have second : (ofByte 1 : Exact).value = -1 + 2 / 255 := by
    change ((1 : ℕ) - 127.5 : ℚ) / 127.5 = -1 + 2 / 255
    norm_num
  have first : toByte gain = 0 ↔ ¬ 1 ≤ toByte gain := by
    rw [UInt8.le_iff_toNat_le, ← UInt8.toNat_inj]
    change _ = 0 ↔ ¬ 1 ≤ _
    omega
  rw [first, le_toByte_iff, or_iff_right (by decide), Exact.le_iff, second, not_le]

/-- What a byte falls short of its gain by is less than a step. -/
theorem lt_value_ofByte_toByte (inside : gain.value ≤ 1) :
    gain.value < (ofByte (toByte gain) : Exact).value + 2 / 255 := by
  by_cases last : toByte gain = 255
  · rw [last, value_ofByte_last]
    linarith
  · have below := (toByte gain).toNat_lt
    have more : (toByte gain).toNat ≠ 255 := fun same => last (UInt8.toNat_inj.mp same)
    obtain ⟨next, successor⟩ : ∃ next : UInt8, next.toNat = (toByte gain).toNat + 1 :=
      ⟨_, UInt8.toNat_ofNat_of_lt' (show _ < 256 by omega)⟩
    have beyond : ¬ next ≤ toByte gain := by
      rw [UInt8.le_iff_toNat_le]
      omega
    rw [← value_ofByte_succ successor]
    exact not_le.mp fun reached => beyond ((le_toByte_iff gain next).mpr (.inr reached))

/-- Encoding and reading back are adjoint: a gain has at least a byte exactly if it has reached the
gain of that byte, where every gain has reached the first. So bytes follow the order of gains, stay
at the ends outside of -1 and 1, come back from their gains, and lose less than a step. -/
theorem bytes_adjoint_to_gains :
    (∀ (gain : Exact) (byte : UInt8), byte ≤ toByte gain ↔ byte = 0 ∨ ofByte byte ≤ gain) ∧
    (∀ first second : Exact, first ≤ second → toByte first ≤ toByte second) ∧
    (∀ gain : Exact, toByte gain = 0 ↔ gain.value < -1 + 2 / 255) ∧
    (∀ gain : Exact, toByte gain = 255 ↔ 1 ≤ gain.value) ∧
    (∀ byte : UInt8, toByte (ofByte byte : Exact) = byte) ∧
    ∀ gain : Exact, -1 ≤ gain.value → gain.value ≤ 1 →
      (ofByte (toByte gain) : Exact).value ≤ gain.value ∧
        gain.value - (ofByte (toByte gain) : Exact).value < 2 / 255 := by
  refine ⟨le_toByte_iff, fun _ _ => toByte_le_toByte, toByte_eq_first_iff, toByte_eq_last_iff,
    toByte_ofByte, fun gain lower upper => ⟨value_ofByte_toByte_le lower, ?_⟩⟩
  have short := lt_value_ofByte_toByte upper
  linarith

/-- Half of the largest gain lies between two steps, and a thousand times it is off either end. -/
theorem half_gain_between_bytes :
    (191 : UInt8) ≤ toByte (⟨1 / 2⟩ : Exact) ∧ ¬ (192 : UInt8) ≤ toByte (⟨1 / 2⟩ : Exact) ∧
      (⟨-500⟩ : Exact) ≤ ⟨500⟩ ∧ toByte (⟨-500⟩ : Exact) ≤ toByte (⟨500⟩ : Exact) ∧
      toByte (⟨-500⟩ : Exact) = 0 ∧ toByte (⟨500⟩ : Exact) = 255 ∧
      (-1 : ℚ) ≤ 1 / 2 ∧ (1 / 2 : ℚ) ≤ 1 ∧
      (ofByte (toByte (⟨1 / 2⟩ : Exact)) : Exact).value ≤ 1 / 2 ∧
        1 / 2 - (ofByte (toByte (⟨1 / 2⟩ : Exact)) : Exact).value < 2 / 255 := by
  obtain ⟨adjoint, ordered, first, last, _, near⟩ := bytes_adjoint_to_gains
  have reached : (ofByte 191 : Exact) ≤ ⟨1 / 2⟩ := by
    change ((191 : ℕ) - 127.5 : ℚ) / 127.5 ≤ 1 / 2
    norm_num
  have missed : ¬ (ofByte 192 : Exact) ≤ ⟨1 / 2⟩ := by
    change ¬ ((192 : ℕ) - 127.5 : ℚ) / 127.5 ≤ 1 / 2
    norm_num
  have apart : (⟨-500⟩ : Exact) ≤ ⟨500⟩ := by decide
  have lower : (-1 : ℚ) ≤ 1 / 2 := by norm_num
  have upper : (1 / 2 : ℚ) ≤ 1 := by norm_num
  exact ⟨(adjoint _ _).mpr (.inr reached),
    fun more => ((adjoint _ _).mp more).elim (by decide) missed, apart, ordered _ _ apart,
    (first _).mpr (by norm_num), (last _).mpr (by norm_num), lower, upper,
    near ⟨1 / 2⟩ lower upper⟩

end HdrGain.Gain
