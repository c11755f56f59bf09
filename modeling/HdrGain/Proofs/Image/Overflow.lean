import HdrGain.Proofs.Image.Acceptance

namespace HdrGain

/-! # Overflow

Which sizes have more samples than words can count. Only the number of pixels is checked to be a
word; what is worked out from it on the way to the number of samples is not. -/

namespace Format

/-- `required`, worked out step by step from the number of pixels on. -/
def measure (format : Format) (width height : Nat) : Except Fault Nat :=
  match format with
  | .yuv420 => do
      let fifths ← Address.mul (width * height) 5
      let red ← Address.add (fifths / 4) (← locateChroma width (width - 1) (height - 1))
      Address.add red 1
  | .p010 => do
      let pairs ← Address.mul (← locateChroma width (width - 1) (height - 1)) 2
      Address.add (← Address.add (width * height) pairs) 2

/-- `required`, worked out in words that start again from zero. -/
def wrappedRequired (format : Format) (width height : UInt64) : UInt64 :=
  let pairs := (width - 1) / 2 + (height - 1) / 2 * (width / 2)
  match format with
  | .yuv420 => width * height * 5 / 4 + pairs + 1
  | .p010 => width * height + pairs * 2 + 2

/-- Words can count the pixels, but not what the number of samples is worked out from. -/
def Overflows (format : Format) (width height : Nat) : Prop :=
  ValidDimensions width height ∧
    match format with
    | .yuv420 => addressLimit ≤ width * height * 5
    | .p010 => addressLimit ≤ width * height + chromaIndex width (width - 1) (height - 1) * 2 + 2

instance (format : Format) (width height : Nat) : Decidable (format.Overflows width height) := by
  cases format <;> exact inferInstanceAs (Decidable (_ ∧ _))

variable {format : Format} {width height : Nat}

theorem lastChroma_mul_two_lt (valid : ValidDimensions width height) :
    chromaIndex width (width - 1) (height - 1) * 2 < width * height := by
  obtain ⟨before, rfl⟩ : ∃ before, height = before + 1 := ⟨height - 1, by
    have rows := valid.height_pos
    omega⟩
  have columns := valid.width_pos
  have halves : before / 2 * (width / 2) * 2 ≤ before * width := by
    rw [Nat.mul_assoc]
    exact Nat.mul_le_mul (Nat.div_le_self before 2) (Nat.div_mul_le_self width 2)
  rw [Nat.mul_add, Nat.mul_one, Nat.mul_comm width before]
  simp only [chromaIndex, Nat.add_sub_cancel]
  omega

theorem largestTerm_lt_iff (valid : ValidDimensions width height) :
    format.largestTerm width height < addressLimit ↔ ¬ format.Overflows width height := by
  have chroma := lastChroma_mul_two_lt valid
  have pixels := valid.1
  cases format with
  | yuv420 => simp only [largestTerm, required, position, Overflows, valid, true_and]; omega
  | p010 => simp only [largestTerm, required, position, Overflows, valid, true_and]; omega

theorem measure_eq_ok_iff {found : Nat} :
    format.measure width height = .ok found ↔
      format.required width height = found ∧ format.largestTerm width height < addressLimit := by
  cases format with
  | yuv420 =>
      simp only [measure, required, largestTerm, position, Address.bind_eq_ok_iff,
        Address.mul_eq_ok_iff, Address.add_eq_ok_iff, locateChroma_eq_ok_iff]
      constructor
      · intro measured
        obtain ⟨_, ⟨rfl, fifths⟩, _, ⟨rfl, _⟩, _, ⟨rfl, _⟩, rfl, last⟩ := measured
        exact ⟨rfl, Nat.max_lt.mpr ⟨fifths, last⟩⟩
      · intro bounded
        obtain ⟨rfl, words⟩ := bounded
        obtain ⟨fifths, last⟩ := Nat.max_lt.mp words
        exact ⟨_, ⟨rfl, fifths⟩, _, ⟨rfl, by omega⟩, _, ⟨rfl, by omega⟩, rfl, last⟩
  | p010 =>
      simp only [measure, required, largestTerm, position, Address.bind_eq_ok_iff,
        Address.mul_eq_ok_iff, Address.add_eq_ok_iff, locateChroma_eq_ok_iff]
      constructor
      · intro measured
        obtain ⟨_, ⟨rfl, _⟩, _, ⟨rfl, _⟩, _, ⟨rfl, _⟩, rfl, last⟩ := measured
        exact ⟨rfl, last⟩
      · intro bounded
        obtain ⟨rfl, last⟩ := bounded
        exact ⟨_, ⟨rfl, by omega⟩, _, ⟨rfl, by omega⟩, _, ⟨rfl, by omega⟩, rfl, last⟩

theorem measure_eq_error (overflows : format.Overflows width height) :
    format.measure width height = .error format.overflow := by
  have valid := overflows.1
  have chroma := lastChroma_mul_two_lt valid
  have counted := valid.2
  have pairs : locateChroma width (width - 1) (height - 1) =
      .ok (chromaIndex width (width - 1) (height - 1)) :=
    locateChroma_eq_ok_iff.mpr ⟨rfl, by omega⟩
  cases format with
  | yuv420 =>
      have fifths : ¬ width * height * 5 < addressLimit := Nat.not_lt.mpr overflows.2
      simp only [measure, Address.mul, Address.checked, if_neg fifths]
      rfl
  | p010 =>
      have last : ¬ width * height + chromaIndex width (width - 1) (height - 1) * 2 + 2 <
          addressLimit := Nat.not_lt.mpr overflows.2
      have doubled : chromaIndex width (width - 1) (height - 1) * 2 < addressLimit := by omega
      simp only [measure, pairs, Address.mul, Address.add, Address.checked, bind, Except.bind,
        if_pos doubled]
      split
      · rename_i failed
        split at failed <;> cases failed
        rfl
      · rename_i summed
        split at summed <;> cases summed
        rw [if_neg last]
        rfl

theorem toNat_wrappedPairs {width height : UInt64}
    (valid : ValidDimensions width.toNat height.toNat) :
    ((width - 1) / 2 + (height - 1) / 2 * (width / 2)).toNat =
      chromaIndex width.toNat (width.toNat - 1) (height.toNat - 1) := by
  have chroma := lastChroma_mul_two_lt valid
  have counted : width.toNat * height.toNat < 2 ^ 64 := valid.2
  have lastColumn : (width - 1).toNat = width.toNat - 1 :=
    UInt64.toNat_sub_of_le _ _ (UInt64.le_iff_toNat_le.mpr valid.width_pos)
  have lastRow : (height - 1).toNat = height.toNat - 1 :=
    UInt64.toNat_sub_of_le _ _ (UInt64.le_iff_toNat_le.mpr valid.height_pos)
  unfold chromaIndex at chroma ⊢
  rw [UInt64.toNat_add, UInt64.toNat_mul, UInt64.toNat_div, UInt64.toNat_div, UInt64.toNat_div,
    lastColumn, lastRow, show (2 : UInt64).toNat = 2 from rfl]
  generalize (height.toNat - 1) / 2 * (width.toNat / 2) = rows at chroma ⊢
  omega

theorem toNat_wrappedRequired {width height : UInt64}
    (valid : ValidDimensions width.toNat height.toNat) :
    (format.wrappedRequired width height).toNat =
      match format with
      | .yuv420 => (width.toNat * height.toNat * 5 % addressLimit / 4 +
          chromaIndex width.toNat (width.toNat - 1) (height.toNat - 1) + 1) % addressLimit
      | .p010 => (width.toNat * height.toNat +
          chromaIndex width.toNat (width.toNat - 1) (height.toNat - 1) * 2 + 2) %
            addressLimit := by
  have pairs := toNat_wrappedPairs valid
  cases format with
  | yuv420 =>
      simp only [wrappedRequired, UInt64.toNat_add, UInt64.toNat_mul, UInt64.toNat_div, pairs,
        UInt64.toNat_ofNat, Nat.reduceMod, Nat.reducePow, Nat.mod_mul_mod, Nat.mod_add_mod,
        addressLimit]
  | p010 =>
      simp only [wrappedRequired, UInt64.toNat_add, UInt64.toNat_mul, pairs,
        UInt64.toNat_ofNat, Nat.reduceMod, Nat.reducePow, Nat.mod_add_mod, Nat.add_mod_mod,
        addressLimit]

/-- A size that overflows asks wrapped words for less than its pixels need. -/
theorem wrappedRequired_lt_required {width height : UInt64}
    (overflows : format.Overflows width.toNat height.toNat) :
    (format.wrappedRequired width height).toNat < format.required width.toNat height.toNat := by
  rw [toNat_wrappedRequired overflows.1]
  cases format with
  | yuv420 =>
      have large : addressLimit ≤ width.toNat * height.toNat * 5 := overflows.2
      have dropped : width.toNat * height.toNat * 5 % addressLimit / 4 <
          width.toNat * height.toNat * 5 / 4 := by
        have rest : width.toNat * height.toNat * 5 % addressLimit < addressLimit :=
          Nat.mod_lt _ (by decide)
        simp only [addressLimit] at large rest ⊢
        omega
      refine Nat.lt_of_le_of_lt (Nat.mod_le _ _) ?_
      exact Nat.add_lt_add_right (Nat.add_lt_add_right dropped _) 1
  | p010 =>
      have large : addressLimit ≤ width.toNat * height.toNat +
          chromaIndex width.toNat (width.toNat - 1) (height.toNat - 1) * 2 + 2 := overflows.2
      exact Nat.lt_of_lt_of_le (Nat.mod_lt _ (by decide)) large

theorem wrappedRequired_eq_required {width height : UInt64}
    (valid : ValidDimensions width.toNat height.toNat)
    (words : format.largestTerm width.toNat height.toNat < addressLimit) :
    (format.wrappedRequired width height).toNat = format.required width.toNat height.toNat := by
  rw [toNat_wrappedRequired valid]
  cases format with
  | yuv420 =>
      obtain ⟨fifths, last⟩ := Nat.max_lt.mp words
      rw [Nat.mod_eq_of_lt fifths]
      exact Nat.mod_eq_of_lt last
  | p010 => exact Nat.mod_eq_of_lt words

end Format

namespace Picture

variable {format : Format} {width height : Nat}

theorem ofSamples_of_overflows (samples : Array format.Sample)
    (overflows : format.Overflows width height) :
    ofSamples width height samples = .error (.overflow format.overflow) := by
  have words : ¬ format.largestTerm width height < addressLimit := fun words =>
    (Format.largestTerm_lt_iff overflows.1).mp words overflows
  simp only [ofSamples, dif_pos overflows.1, dif_neg words]

theorem overflows_of_ofSamples {samples : Array format.Sample} {fault : Fault}
    (failed : ofSamples width height samples = .error (.overflow fault)) :
    format.Overflows width height := by
  unfold ofSamples at failed
  split at failed
  · rename_i valid
    by_contra fits
    have words := (Format.largestTerm_lt_iff valid).mpr fits
    rw [dif_pos words] at failed
    split at failed <;> cases failed
  · cases failed

end Picture

theorem GainMap.ofBytes_ne_overflow (width height : Nat) (bytes : Array UInt8) (fault : Fault) :
    GainMap.ofBytes width height bytes ≠ .error (.overflow fault) := by
  unfold GainMap.ofBytes
  split
  · split <;> simp
  · simp

/-- Measuring a gain map never overflows. Measuring a picture overflows at exactly the sizes of
`Overflows`. They are not refused as dimensions, and words that wrap around ask for fewer samples
than their pixels need. At all other sizes nothing on the way to the number of samples leaves the
words. -/
theorem measure_overflows_exactly (width height : UInt64) :
    (∀ bytes fault,
      GainMap.ofBytes width.toNat height.toNat bytes ≠ .error (.overflow fault)) ∧
    ∀ format : Format,
      (format.Overflows width.toNat height.toNat →
        format.measure width.toNat height.toNat = .error format.overflow ∧
        (∀ samples : Array format.Sample, Picture.ofSamples width.toNat height.toNat samples =
          .error (.overflow format.overflow)) ∧
        (format.wrappedRequired width height).toNat <
          format.required width.toNat height.toNat) ∧
      (ValidDimensions width.toNat height.toNat →
        ¬ format.Overflows width.toNat height.toNat →
          format.measure width.toNat height.toNat =
            .ok (format.required width.toNat height.toNat) ∧
          (∀ (samples : Array format.Sample) fault,
            Picture.ofSamples width.toNat height.toNat samples ≠ .error (.overflow fault)) ∧
          (format.wrappedRequired width height).toNat =
            format.required width.toNat height.toNat) := by
  refine ⟨GainMap.ofBytes_ne_overflow _ _,
    fun format => ⟨fun overflows => ?_, fun valid fits => ?_⟩⟩
  · exact ⟨Format.measure_eq_error overflows,
      fun samples => Picture.ofSamples_of_overflows samples overflows,
      Format.wrappedRequired_lt_required overflows⟩
  · have words := (Format.largestTerm_lt_iff valid).mpr fits
    exact ⟨Format.measure_eq_ok_iff.mpr ⟨rfl, words⟩,
      fun samples fault failed => fits (Picture.overflows_of_ofSamples failed),
      Format.wrappedRequired_eq_required valid words⟩

/-- A column of pixels has a single chroma pair, a row has one for every two pixels. Both can be
long enough for words that wrap around to ask for two samples or none. -/
theorem two_samples_pass_wrapped :
    (ValidDimensions 1 3689348814741910324 ∧
      Picture.ofSamples 1 3689348814741910324 #[0, 0] =
        (.error (.overflow (.overflow .multiplication)) : Except LayoutError (Picture .yuv420)) ∧
      Format.yuv420.wrappedRequired 1 3689348814741910324 = 2) ∧
    ValidDimensions 9223372036854775808 1 ∧
      Picture.ofSamples 9223372036854775808 1 #[] =
        (.error (.overflow (.overflow .addition)) : Except LayoutError (Picture .p010)) ∧
      Format.p010.wrappedRequired 9223372036854775808 1 = 0 :=
  ⟨⟨by decide, Picture.ofSamples_of_overflows _ (by decide), by decide⟩, by decide,
    Picture.ofSamples_of_overflows _ (by decide), by decide⟩

end HdrGain
