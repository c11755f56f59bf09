import HdrGain.Image.Picture
import HdrGain.Scalar

namespace HdrGain

/-- The fault that an outcome is, if it is one. -/
def fault? {β : Type} : Except Fault β → Option Fault
  | .ok _ => none
  | .error fault => some fault

section Outcomes

variable {β γ σ : Type} {outcome : Except Fault β}

theorem fault?_eq_some_iff {fault : Fault} :
    fault? outcome = some fault ↔ outcome = .error fault := by
  cases outcome <;> simp [fault?]

theorem fault?_eq_none_iff : fault? outcome = none ↔ ∃ value, outcome = .ok value := by
  cases outcome <;> simp [fault?]

/-- Where what follows faults alike for every value, the earlier fault comes first. -/
theorem fault?_bind {next : β → Except Fault γ} {later : Option Fault}
    (follows : ∀ value, outcome = .ok value → fault? (next value) = later) :
    fault? (outcome >>= next) = (fault? outcome).or later := by
  cases outcome with
  | error fault => rfl
  | ok value => exact follows value rfl

theorem fault?_bind_pure (f : β → γ) :
    fault? (outcome >>= fun value => pure (f value)) = fault? outcome := by
  cases outcome <;> rfl

theorem fault?_map (f : β → γ) : fault? (f <$> outcome) = fault? outcome := by
  cases outcome <;> rfl

/-- Steps whose faults do not depend on the state fault as the first of them does. -/
theorem fault?_foldPositions {step : σ → Nat → Except Fault σ} {faultAt : Nat → Option Fault}
    (steps : ∀ state index, fault? (step state index) = faultAt index) (first count : Nat)
    (state : σ) :
    fault? (foldPositions step first count state) =
      (List.range' first count).findSome? faultAt := by
  induction count generalizing first state with
  | zero => rfl
  | succ count ih =>
      rw [List.range'_succ, List.findSome?_cons, ← steps state first, foldPositions]
      cases step state first with
      | error fault => rfl
      | ok next => exact ih (first + 1) next

end Outcomes

theorem findSome?_flatMap {ι κ β : Type} (f : ι → List κ) (g : κ → Option β) (items : List ι) :
    (items.flatMap f).findSome? g = items.findSome? fun item => (f item).findSome? g := by
  induction items with
  | nil => rfl
  | cons item rest ih =>
      rw [List.flatMap_cons, List.findSome?_append, List.findSome?_cons, ih]
      cases (f item).findSome? g <;> rfl

/-- Reads of which each asks for a position: if no position up to the first missing one is past the
words, then that one is the fault. -/
theorem findSome?_eq_find? {ι : Type} {size : Nat} {positionOf : ι → Nat}
    {faultOf : ι → Option Fault}
    (decided : ∀ item, positionOf item < addressLimit →
      faultOf item =
        if size ≤ positionOf item then some (.outOfRange size (positionOf item)) else none)
    {items : List ι}
    (words : ∀ before position, before ++ [position] <+: items.map positionOf →
      (∀ earlier ∈ before, earlier < size) → position < addressLimit) :
    items.findSome? faultOf =
      ((items.map positionOf).find? (decide <| size ≤ ·)).map (.outOfRange size) := by
  induction items with
  | nil => rfl
  | cons item rest ih =>
      have word : positionOf item < addressLimit :=
        words [] _ (List.prefix_append [positionOf item] _) (fun _ member => nomatch member)
      rw [List.findSome?_cons, decided item word, List.map_cons, List.find?_cons]
      by_cases missing : size ≤ positionOf item
      · rw [if_pos missing, decide_eq_true missing]
        rfl
      · rw [if_neg missing, decide_eq_false missing]
        refine ih fun before position asked present => ?_
        refine words (positionOf item :: before) position ?_ ?_
        · exact (List.prefix_cons_inj _).mpr asked
        · intro earlier member
          rcases List.mem_cons.mp member with rfl | member
          · exact Nat.not_le.mp missing
          · exact present earlier member

namespace Picture

/-- The components of a pixel in the order in which they are read. -/
def readOrder : List Component := [.luma, .u, .v]

/-- The reads of a block: the column and row of a pixel within it, and the component. -/
def blockReads (scale : Nat) : List (Nat × Nat × Component) :=
  (List.range scale).flatMap fun dy =>
    (List.range scale).flatMap fun dx =>
      readOrder.map fun component => (dx, dy, component)

variable {format : Format} {α : Type} [Scalar α]

/-- The samples that a block is made from, in the order in which they are read. -/
def blockPositions (picture : Picture format) (scale x y : Nat) : List Nat :=
  (blockReads scale).map fun (dx, dy, component) =>
    picture.position component (dx + x * scale) (dy + y * scale)

/-- Every position that is worked out for the block is a word. After the first that the buffer does
not have, no more are worked out. -/
def Addressable (picture : Picture format) (scale x y : Nat) : Prop :=
  ∀ before position, before ++ [position] <+: picture.blockPositions scale x y →
    (∀ earlier ∈ before, earlier < picture.samples.size) → position < addressLimit

/-- How a single read of a block ends. The coordinates of a pixel are worked out before its luma. -/
def readFault? (picture : Picture format) (scale x y dx dy : Nat) : Component → Option Fault
  | .luma => fault? do
      let column ← Address.inRows scale dx x
      let row ← Address.inRows scale dy y
      picture.level .luma column row
  | component => fault? (picture.level component (dx + x * scale) (dy + y * scale))

variable (picture : Picture format)

theorem fault?_pixel (x y : Nat) :
    fault? (picture.pixel x y : Except Fault (Color α)) =
      readOrder.findSome? fun component => fault? (picture.level component x y) := by
  have chroma : fault? (picture.chroma x y) =
      (fault? (picture.level .u x y)).or (fault? (picture.level .v x y)) :=
    fault?_bind fun _ _ => fault?_bind_pure _
  have read : fault? (picture.pixel x y : Except Fault (Color α)) =
      (fault? (picture.level .luma x y)).or (fault? (picture.chroma x y)) :=
    fault?_bind fun _ _ => fault?_bind_pure _
  rw [read, chroma]
  simp only [readOrder, List.findSome?_cons, List.findSome?_nil]
  cases fault? (picture.level .luma x y) <;> cases fault? (picture.level .u x y) <;>
    cases fault? (picture.level .v x y) <;> rfl

theorem fault?_blockPixel (scale x y dx dy : Nat) :
    fault? (picture.blockPixel scale x y dx dy : Except Fault (Color α)) =
      readOrder.findSome? (picture.readFault? scale x y dx dy) := by
  cases columnOf : Address.inRows scale dx x with
  | error fault =>
      simp only [blockPixel, readOrder, List.findSome?_cons, readFault?, columnOf]
      rfl
  | ok column =>
      cases rowOf : Address.inRows scale dy y with
      | error fault =>
          simp only [blockPixel, readOrder, List.findSome?_cons, readFault?, columnOf, rowOf]
          rfl
      | ok row =>
          obtain ⟨rfl, columnWord⟩ := Address.inRows_eq_ok_iff.mp columnOf
          obtain ⟨rfl, rowWord⟩ := Address.inRows_eq_ok_iff.mp rowOf
          rw [blockPixel_eq_pixel columnWord rowWord, fault?_pixel]
          simp only [readOrder, List.findSome?_cons, readFault?, columnOf, rowOf]
          rfl

/-- A block faults as the first of its reads that faults, and without one as its area does. -/
theorem fault?_block (scale x y : Nat) :
    fault? (picture.block scale x y : Except Fault (Color α)) =
      ((blockReads scale).findSome? fun (dx, dy, component) =>
        picture.readFault? scale x y dx dy component).or (fault? (Address.mul scale scale)) := by
  have summed : fault? (picture.blockSum scale x y : Except Fault (Color α)) =
      (List.range' 0 scale).findSome? fun dy => (List.range' 0 scale).findSome? fun dx =>
        readOrder.findSome? (picture.readFault? scale x y dx dy) := by
    refine fault?_foldPositions (fun rows dy => ?_) 0 scale Color.zero
    refine fault?_foldPositions (fun sum dx => ?_) 0 scale rows
    rw [fault?_map, fault?_blockPixel]
  have parted : fault? (picture.block scale x y : Except Fault (Color α)) =
      (fault? (picture.blockSum scale x y : Except Fault (Color α))).or
        (fault? (Address.mul scale scale)) := fault?_bind fun _ _ => fault?_bind_pure _
  rw [parted, summed]
  simp only [blockReads, findSome?_flatMap, List.findSome?_map, List.range_eq_range']
  rfl

section Words

variable {picture} {component : Component}

theorem fault?_level_of_word {x y : Nat} (word : picture.position component x y < addressLimit) :
    fault? (picture.level component x y) =
      if picture.samples.size ≤ picture.position component x y then
        some (.outOfRange picture.samples.size (picture.position component x y))
      else none := by
  have located : format.locate picture.width picture.height component x y =
      .ok (picture.position component x y) := Format.locate_eq_ok_iff.mpr ⟨rfl, word⟩
  simp only [level, located]
  split
  · rename_i sample found
    obtain ⟨inside, _⟩ := Array.getElem?_eq_some_iff.mp found
    rw [if_neg (Nat.not_le.mpr inside)]
    rfl
  · rename_i missing
    rw [if_pos (Array.getElem?_eq_none_iff.mp missing)]
    rfl

theorem readFault?_of_word {scale x y dx dy : Nat}
    (word : picture.position component (dx + x * scale) (dy + y * scale) < addressLimit) :
    picture.readFault? scale x y dx dy component =
      if picture.samples.size ≤ picture.position component (dx + x * scale) (dy + y * scale) then
        some (.outOfRange picture.samples.size
          (picture.position component (dx + x * scale) (dy + y * scale)))
      else none := by
  cases component with
  | luma =>
      have placed : (dx + x * scale) + (dy + y * scale) * picture.width < addressLimit := word
      have rows := Nat.le_mul_of_pos_right (dy + y * scale) picture.valid.width_pos
      have columnOf : Address.inRows scale dx x = .ok (dx + x * scale) :=
        Address.inRows_eq_ok_iff.mpr ⟨rfl, by omega⟩
      have rowOf : Address.inRows scale dy y = .ok (dy + y * scale) :=
        Address.inRows_eq_ok_iff.mpr ⟨rfl, by omega⟩
      simp only [readFault?, columnOf, rowOf]
      exact fault?_level_of_word word
  | u => exact fault?_level_of_word word
  | v => exact fault?_level_of_word word

end Words

variable {picture} {scale x y : Nat}

theorem mem_blockPositions_iff {position : Nat} :
    position ∈ picture.blockPositions scale x y ↔
      ∃ dx dy component, dx < scale ∧ dy < scale ∧
        picture.position component (dx + x * scale) (dy + y * scale) = position := by
  simp only [blockPositions, blockReads, List.mem_map, List.mem_flatMap, List.mem_range]
  constructor
  · rintro ⟨_, ⟨dy, row, dx, column, component, _, rfl⟩, placed⟩
    exact ⟨dx, dy, component, column, row, placed⟩
  · rintro ⟨dx, dy, component, column, row, placed⟩
    exact ⟨_, ⟨dy, row, dx, column, component, by cases component <;> decide, rfl⟩, placed⟩

theorem addressable_of_words
    (words : ∀ position ∈ picture.blockPositions scale x y, position < addressLimit) :
    picture.Addressable scale x y :=
  fun _ position asked _ => words position (asked.subset (by simp))

theorem fault?_mul (scale : Nat) :
    fault? (Address.mul scale scale) =
      if scale * scale < addressLimit then none else some (.overflow .multiplication) := by
  unfold Address.mul Address.checked
  split <;> rfl

theorem fault?_block_of_addressable (addressable : picture.Addressable scale x y) :
    fault? (picture.block scale x y : Except Fault (Color α)) =
      (((picture.blockPositions scale x y).find? (decide <| picture.samples.size ≤ ·)).map
        (.outOfRange picture.samples.size)).or
          (if scale * scale < addressLimit then none else some (.overflow .multiplication)) := by
  rw [fault?_block, fault?_mul]
  exact congrArg (Option.or · _)
    (findSome?_eq_find? (fun _ word => readFault?_of_word word) addressable)

/-- Every sample that a block is made from is in the buffer. -/
def HoldsBlock (picture : Picture format) (scale x y : Nat) : Prop :=
  ∀ dx dy component, dx < scale → dy < scale →
    picture.position component (dx + x * scale) (dy + y * scale) < picture.samples.size

theorem holdsBlock_iff :
    picture.HoldsBlock scale x y ↔
      (picture.blockPositions scale x y).find? (decide <| picture.samples.size ≤ ·) = none := by
  simp only [List.find?_eq_none, decide_eq_true_eq, Nat.not_le]
  constructor
  · intro present position member
    obtain ⟨dx, dy, component, column, row, rfl⟩ := mem_blockPositions_iff.mp member
    exact present dx dy component column row
  · intro present dx dy component column row
    exact present _ (mem_blockPositions_iff.mpr ⟨dx, dy, component, column, row, rfl⟩)

theorem exists_color_iff (addressable : picture.Addressable scale x y) :
    (∃ color : Color α, picture.block scale x y = .ok color) ↔
      picture.HoldsBlock scale x y ∧ scale * scale < addressLimit := by
  rw [← fault?_eq_none_iff, fault?_block_of_addressable addressable, Option.or_eq_none_iff,
    Option.map_eq_none_iff, holdsBlock_iff]
  refine and_congr_right fun _ => ?_
  split <;> simp [*]

theorem block_eq_error_iff (addressable : picture.Addressable scale x y) {fault : Fault} :
    (picture.block scale x y : Except Fault (Color α)) = .error fault ↔
      (∃ before position after,
        picture.blockPositions scale x y = before ++ position :: after ∧
        (∀ earlier ∈ before, earlier < picture.samples.size) ∧
        picture.samples.size ≤ position ∧
        fault = .outOfRange picture.samples.size position) ∨
      (picture.HoldsBlock scale x y ∧ addressLimit ≤ scale * scale ∧
        fault = .overflow .multiplication) := by
  rw [← fault?_eq_some_iff, fault?_block_of_addressable addressable, Option.or_eq_some_iff,
    Option.map_eq_none_iff, ← holdsBlock_iff]
  refine or_congr ?_ (and_congr_right fun _ => ?_)
  · simp only [Option.map_eq_some_iff, List.find?_eq_some_iff_append, decide_eq_true_eq,
      Bool.not_eq_true', decide_eq_false_iff_not, Nat.not_le]
    constructor
    · rintro ⟨position, ⟨missing, before, after, parted, present⟩, rfl⟩
      exact ⟨before, position, after, parted, present, missing, rfl⟩
    · rintro ⟨before, position, after, parted, present, missing, rfl⟩
      exact ⟨position, ⟨missing, before, after, parted, present⟩, rfl⟩
  · split
    · rename_i bound
      simp [Nat.not_le.mpr bound]
    · rename_i full
      simp [Nat.le_of_not_lt full, eq_comm]

/-- Where words can count the pixels of a block, it faults exactly if a sample is missing. -/
theorem exists_fault_iff (addressable : picture.Addressable scale x y)
    (countable : scale * scale < addressLimit) :
    (∃ fault, (picture.block scale x y : Except Fault (Color α)) = .error fault) ↔
      ∃ dx dy component, dx < scale ∧ dy < scale ∧
        picture.samples.size ≤
          picture.position component (dx + x * scale) (dy + y * scale) := by
  have faulty : (∃ fault, (picture.block scale x y : Except Fault (Color α)) = .error fault) ↔
      ¬ ∃ color : Color α, picture.block scale x y = .ok color := by
    cases (picture.block scale x y : Except Fault (Color α)) <;> simp
  rw [faulty, exists_color_iff addressable, and_iff_left countable, HoldsBlock]
  simp only [Classical.not_forall, Nat.not_lt, exists_prop]

/-- A block faults exactly if one of its samples is missing, and the fault names the first missing
one: row by row, and in a pixel luma first, then blue, then red. It does not matter whether the
pixels are inside the picture, only whether the buffer has their samples. With all of them there,
only a block of more pixels than a word can count has no color. A source reads and faults as the
picture in it does. -/
theorem first_missing_sample_faults (picture : Picture format) (scale x y : Nat) :
    (picture.Addressable scale x y →
      (scale * scale < addressLimit →
        ((∃ fault, (picture.block scale x y : Except Fault (Color α)) = .error fault) ↔
          ∃ dx dy component, dx < scale ∧ dy < scale ∧
            picture.samples.size ≤
              picture.position component (dx + x * scale) (dy + y * scale)) ∧
        ((∃ color : Color α, picture.block scale x y = .ok color) ↔
          ∀ dx dy component, dx < scale → dy < scale →
            picture.position component (dx + x * scale) (dy + y * scale) <
              picture.samples.size)) ∧
      ∀ fault, (picture.block scale x y : Except Fault (Color α)) = .error fault ↔
        (∃ before position after,
          picture.blockPositions scale x y = before ++ position :: after ∧
          (∀ earlier ∈ before, earlier < picture.samples.size) ∧
          picture.samples.size ≤ position ∧
          fault = .outOfRange picture.samples.size position) ∨
        (picture.HoldsBlock scale x y ∧ addressLimit ≤ scale * scale ∧
          fault = .overflow .multiplication)) ∧
    (Source.ofPicture picture).block scale x y =
      (picture.block scale x y : Except Fault (Color α)) ∧
    (Source.ofPicture picture).pixel x y = (picture.pixel x y : Except Fault (Color α)) := by
  refine ⟨fun addressable => ⟨fun countable => ⟨exists_fault_iff addressable countable, ?_⟩,
    fun fault => block_eq_error_iff addressable⟩,
    Source.block_ofPicture picture scale x y, Source.pixel_ofPicture picture x y⟩
  rw [exists_color_iff addressable, and_iff_left countable, HoldsBlock]

/-- Right of two by two pixels luma and the blue difference can still be read. -/
theorem red_difference_missing :
    ∃ picture : Picture .yuv420,
      Picture.ofSamples 2 2 #[10, 20, 30, 40, 50, 60] = .ok picture ∧
      picture.Addressable 2 1 0 ∧
      picture.blockPositions 2 1 0 = [2, 5, 6, 3, 5, 6, 4, 5, 6, 5, 5, 6] ∧
      (picture.block 2 1 0 : Except Fault (Color Float32)) = .error (.outOfRange 6 6) ∧
      ((Source.ofPicture picture).block 2 1 0 : Except Fault (Color Float32)) =
        .error (.outOfRange 6 6) := by
  obtain ⟨picture, accepted⟩ : ∃ picture : Picture .yuv420,
      Picture.ofSamples 2 2 #[10, 20, 30, 40, 50, 60] = .ok picture := ⟨_, rfl⟩
  have positions : picture.blockPositions 2 1 0 = [2, 5, 6, 3, 5, 6, 4, 5, 6, 5, 5, 6] := by
    cases accepted
    rfl
  have size : picture.samples.size = 6 := by
    cases accepted
    rfl
  have addressable : picture.Addressable 2 1 0 :=
    addressable_of_words (by rw [positions]; decide)
  obtain ⟨exactly, same, _⟩ := first_missing_sample_faults (α := Float32) picture 2 1 0
  obtain ⟨_, first⟩ := exactly addressable
  rw [positions, size] at first
  have faulted := (first (.outOfRange 6 6)).mpr
    (.inl ⟨[2, 5], 6, [3, 5, 6, 4, 5, 6, 5, 5, 6], rfl, by decide, by decide, rfl⟩)
  exact ⟨picture, accepted, addressable, positions, faulted, same.trans faulted⟩

end Picture

end HdrGain
