import HdrGain.GainMap
import HdrGain.Image.Picture
import Mathlib.Order.Bounds.Basic

namespace HdrGain

namespace Layout

/-- The position `index` is worked out for some pixel of a `width` by `height` grid. -/
def Reads (layout : Layout) (width height index : Nat) : Prop :=
  ∃ x y, x < width ∧ y < height ∧
    match layout with
    | .picture format => ∃ component, format.locate width height component x y = .ok index
    | .gainMap => Address.inRows width x y = .ok index

def required (layout : Layout) (width height : Nat) : Nat :=
  match layout with
  | .picture format => format.required width height
  | .gainMap => width * height

variable {layout : Layout} {width height index : Nat}

theorem reads_lt_required (read : layout.Reads width height index) :
    index < layout.required width height := by
  obtain ⟨x, y, column, row, located⟩ := read
  cases layout with
  | picture format =>
      obtain ⟨component, located⟩ := located
      obtain ⟨placed, _⟩ := Format.locate_eq_ok_iff.mp located
      rw [← placed]
      exact format.position_lt_required component column row
  | gainMap =>
      obtain ⟨placed, _⟩ := Address.inRows_eq_ok_iff.mp located
      have inside := Format.position_luma_lt .yuv420 column row
      rw [← placed]
      exact inside

theorem reads_last (valid : ValidDimensions width height)
    (addressable : layout.required width height ≤ addressLimit) :
    layout.Reads width height (layout.required width height - 1) := by
  have columns := valid.width_pos
  have rows := valid.height_pos
  refine ⟨width - 1, height - 1, by omega, by omega, ?_⟩
  cases layout with
  | picture format =>
      have last : format.position width height .v (width - 1) (height - 1) + 1 ≤ addressLimit :=
        addressable
      refine ⟨.v, Format.locate_eq_ok_iff.mpr ⟨?_, by omega⟩⟩
      simp only [required, Format.required, Nat.add_sub_cancel]
  | gainMap =>
      have last : width - 1 + (height - 1) * width = width * height - 1 := by
        obtain ⟨before, rfl⟩ : ∃ before, height = before + 1 := ⟨height - 1, by omega⟩
        rw [Nat.mul_add, Nat.mul_one, Nat.mul_comm width before, Nat.add_sub_cancel]
        omega
      have counted := valid.2
      exact Address.inRows_eq_ok_iff.mpr ⟨last, by omega⟩

theorem isGreatest_reads (valid : ValidDimensions width height)
    (addressable : layout.required width height ≤ addressLimit) :
    IsGreatest {index | layout.Reads width height index} (layout.required width height - 1) := by
  refine ⟨reads_last valid addressable, ?_⟩
  intro index read
  have inside := reads_lt_required read
  omega

/-- Rows follow each other without a gap, so that every position below the number of pixels is
one of theirs. -/
theorem reads_of_lt (inside : index < width * height) (word : index < addressLimit) :
    layout.Reads width height index := by
  have columns : 0 < width := Nat.pos_of_mul_pos_right (Nat.zero_lt_of_lt inside)
  have placed : index % width + index / width * width = index := Nat.mod_add_div' index width
  have row : index / width < height := Nat.div_lt_of_lt_mul inside
  have located : Address.inRows width (index % width) (index / width) = .ok index :=
    Address.inRows_eq_ok_iff.mpr ⟨placed, by rw [placed]; exact word⟩
  refine ⟨index % width, index / width, Nat.mod_lt _ columns, row, ?_⟩
  cases layout with
  | picture format => exact ⟨.luma, located⟩
  | gainMap => exact located

end Layout

/-- What an `outcome` of laying a buffer of `size` samples out tells about the buffer. -/
structure AcceptsExactly {β : Type} (layout : Layout) (width height size : Nat)
    (outcome : Except LayoutError β) : Prop where
  accepted_iff : (∃ accepted, outcome = .ok accepted) ↔
    0 < width * height ∧ ∀ index, layout.Reads width height index → index < size
  invalid : width * height = 0 ∨ addressLimit ≤ width * height →
    outcome = .error (.invalidDimensions width height)
  tooSmall : 0 < width * height → width * height < addressLimit →
    (¬ ∃ accepted, outcome = .ok accepted) →
      ∃ largest, IsGreatest {index | layout.Reads width height index} largest ∧
        outcome = .error (.bufferTooSmall layout (largest + 1) size)

/-- A check of the dimensions followed by a check against `required` accepts exactly what can be
read. Dimensions whose product is no word are refused rightly: their rows reach every word, and so
a word past the buffer. -/
theorem AcceptsExactly.of_checks {β : Type} {layout : Layout} {width height size : Nat}
    {outcome : Except LayoutError β} (word : size < addressLimit)
    (addressable : ValidDimensions width height → layout.required width height ≤ addressLimit)
    (invalid : ¬ ValidDimensions width height →
      outcome = .error (.invalidDimensions width height))
    (covered : ValidDimensions width height → layout.required width height ≤ size →
      ∃ accepted, outcome = .ok accepted)
    (tooSmall : ValidDimensions width height → size < layout.required width height →
      outcome = .error (.bufferTooSmall layout (layout.required width height) size)) :
    AcceptsExactly layout width height size outcome where
  accepted_iff := by
    by_cases valid : ValidDimensions width height
    · have greatest := Layout.isGreatest_reads valid (addressable valid)
      by_cases enough : layout.required width height ≤ size
      · refine iff_of_true (covered valid enough) ⟨valid.1, ?_⟩
        intro index read
        exact Nat.lt_of_lt_of_le (Layout.reads_lt_required read) enough
      · refine iff_of_false ?_ ?_
        · intro both
          obtain ⟨accepted, outcomeOk⟩ := both
          rw [tooSmall valid (by omega)] at outcomeOk
          cases outcomeOk
        · intro both
          obtain ⟨_, inside⟩ := both
          have lastInside := inside _ greatest.1
          omega
    · refine iff_of_false ?_ ?_
      · intro both
        obtain ⟨accepted, outcomeOk⟩ := both
        rw [invalid valid] at outcomeOk
        cases outcomeOk
      · intro both
        obtain ⟨nonempty, inside⟩ := both
        have uncounted : ¬ width * height < addressLimit := fun counted =>
          valid ⟨nonempty, counted⟩
        exact Nat.lt_irrefl size (inside size (Layout.reads_of_lt (by omega) word))
  invalid := by
    intro refused
    apply invalid
    intro valid
    obtain ⟨nonempty, counted⟩ := valid
    omega
  tooSmall := by
    intro nonempty counted refused
    have valid : ValidDimensions width height := ⟨nonempty, counted⟩
    have greatest := Layout.isGreatest_reads valid (addressable valid)
    have short : size < layout.required width height := by
      by_contra enough
      exact refused (covered valid (by omega))
    have needed : 0 < layout.required width height := Nat.zero_lt_of_lt short
    refine ⟨_, greatest, ?_⟩
    rw [Nat.sub_add_cancel needed]
    exact tooSmall valid short

namespace Picture

variable {format : Format} {width height : Nat} {samples : Array format.Sample}

/-- Every picture is what its own buffer makes at its own size, and nothing else is accepted. -/
theorem ofSamples_eq_ok_iff {picture : Picture format} :
    ofSamples width height samples = .ok picture ↔
      picture.width = width ∧ picture.height = height ∧ picture.samples = samples := by
  constructor
  · intro accepted
    unfold ofSamples at accepted
    split at accepted
    · split at accepted
      · split at accepted
        · cases accepted
          exact ⟨rfl, rfl, rfl⟩
        · cases accepted
      · cases accepted
    · cases accepted
  · intro same
    obtain ⟨rfl, rfl, rfl⟩ := same
    simp only [ofSamples, dif_pos picture.valid, dif_pos picture.addressable,
      dif_pos picture.covered]

theorem ofSamples_acceptsExactly (word : samples.size < addressLimit)
    (addressable : ValidDimensions width height →
      format.largestTerm width height < addressLimit) :
    AcceptsExactly (.picture format) width height samples.size
      (ofSamples width height samples) := by
  apply AcceptsExactly.of_checks word
  · intro valid
    exact Nat.le_of_lt
      (Nat.lt_of_le_of_lt (format.required_le_largestTerm width height) (addressable valid))
  · intro invalid
    simp only [ofSamples, dif_neg invalid]
  · intro valid enough
    have covered : format.required width height ≤ samples.size := enough
    simp only [ofSamples, dif_pos valid, dif_pos (addressable valid), dif_pos covered]
    exact ⟨_, rfl⟩
  · intro valid short
    have uncovered : ¬ format.required width height ≤ samples.size := Nat.not_le.mpr short
    simp only [ofSamples, dif_pos valid, dif_pos (addressable valid), dif_neg uncovered]
    rfl

theorem exists_luma_chroma {picture : Picture format} {x y : Nat}
    (contained : picture.Contains x y) :
    ∃ luma u v, picture.luma x y = .ok luma ∧ picture.chroma x y = .ok (u, v) := by
  obtain ⟨luma, lumaRead⟩ := exists_level .luma contained
  obtain ⟨u, uRead⟩ := exists_level .u contained
  obtain ⟨v, vRead⟩ := exists_level .v contained
  refine ⟨luma, u, v, lumaRead, ?_⟩
  simp only [chroma, uRead, vRead]
  rfl

end Picture

namespace GainMap

variable {width height : Nat} {bytes : Array UInt8}

theorem ofBytes_eq_ok_iff {map : GainMap} :
    ofBytes width height bytes = .ok map ↔
      map.width = width ∧ map.height = height ∧ map.bytes = bytes := by
  constructor
  · intro accepted
    unfold ofBytes at accepted
    split at accepted
    · split at accepted
      · cases accepted
        exact ⟨rfl, rfl, rfl⟩
      · cases accepted
    · cases accepted
  · intro same
    obtain ⟨rfl, rfl, rfl⟩ := same
    simp only [ofBytes, dif_pos map.valid, dif_pos map.covered]

theorem ofBytes_acceptsExactly (word : bytes.size < addressLimit) :
    AcceptsExactly .gainMap width height bytes.size (ofBytes width height bytes) := by
  apply AcceptsExactly.of_checks word
  · intro valid
    exact Nat.le_of_lt valid.2
  · intro invalid
    simp only [ofBytes, dif_neg invalid]
  · intro valid enough
    have covered : width * height ≤ bytes.size := enough
    simp only [ofBytes, dif_pos valid, dif_pos covered]
    exact ⟨_, rfl⟩
  · intro valid short
    have uncovered : ¬ width * height ≤ bytes.size := Nat.not_le.mpr short
    simp only [ofBytes, dif_pos valid, dif_neg uncovered]
    rfl

end GainMap

/-- Pictures of either format and gain maps are made exactly of the buffers that hold every
position worked out for one of their pixels, and all their pixels can be read. A refusal names the
dimensions if their product is zero or no word, and otherwise the smallest size that would do. -/
theorem buffers_accepted_exactly (width height : Nat) :
    (∀ (format : Format) (samples : Array format.Sample), samples.size < addressLimit →
      (ValidDimensions width height → format.largestTerm width height < addressLimit) →
        AcceptsExactly (.picture format) width height samples.size
          (Picture.ofSamples width height samples) ∧
        ∀ picture, Picture.ofSamples width height samples = .ok picture →
          ∀ x y, x < width → y < height →
            ∃ luma u v, picture.luma x y = .ok luma ∧ picture.chroma x y = .ok (u, v)) ∧
    (∀ bytes : Array UInt8, bytes.size < addressLimit →
      AcceptsExactly .gainMap width height bytes.size (GainMap.ofBytes width height bytes) ∧
      ∀ map, GainMap.ofBytes width height bytes = .ok map →
        ∀ x y, x < width → y < height → ∃ byte, map.byte x y = .ok byte) := by
  constructor
  · intro format samples word addressable
    refine ⟨Picture.ofSamples_acceptsExactly word addressable, ?_⟩
    intro picture accepted x y column row
    obtain ⟨rfl, rfl, rfl⟩ := Picture.ofSamples_eq_ok_iff.mp accepted
    exact Picture.exists_luma_chroma ⟨column, row⟩
  · intro bytes word
    refine ⟨GainMap.ofBytes_acceptsExactly word, ?_⟩
    intro map accepted x y column row
    obtain ⟨rfl, rfl, rfl⟩ := GainMap.ofBytes_eq_ok_iff.mp accepted
    exact ⟨_, map.byte_eq_cell ⟨x, column⟩ ⟨y, row⟩⟩

/-- A picture of three by three pixels needs fourteen bytes in planes, and thirteen are refused. -/
theorem thirteen_bytes_refused :
    (Array.replicate 13 (0 : UInt8)).size < addressLimit ∧
      @Picture.ofSamples .yuv420 3 3 (Array.replicate 13 (0 : UInt8)) =
        .error (.bufferTooSmall (.picture .yuv420) 14 13) ∧
      IsGreatest {index | Layout.Reads (.picture .yuv420) 3 3 index} 13 := by
  have word : (Array.replicate 13 (0 : UInt8)).size < addressLimit := by decide
  obtain ⟨exactly, _⟩ :=
    (buffers_accepted_exactly 3 3).1 .yuv420 (Array.replicate 13 (0 : UInt8)) word
      (fun _ => by decide)
  refine ⟨word, rfl, ?_⟩
  obtain ⟨largest, greatest, refused⟩ := exactly.tooSmall (by decide) (by decide) (by
    intro made
    obtain ⟨picture, accepted⟩ := made
    cases accepted)
  have named : largest = 13 := by
    cases refused
    rfl
  rw [← named]
  exact greatest

end HdrGain
