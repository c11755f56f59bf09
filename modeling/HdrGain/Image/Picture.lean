import HdrGain.Image.Format

namespace HdrGain

/-- A buffer that has been measured against the size of its picture: no sample of a pixel inside is
missing, and no index of one is too large for a word. -/
structure Picture (format : Format) where
  width : Nat
  height : Nat
  samples : Array format.Sample
  valid : ValidDimensions width height
  addressable : format.largestTerm width height < addressLimit
  covered : format.required width height ≤ samples.size

namespace Picture

variable {format : Format}

def ofSamples (width height : Nat) (samples : Array format.Sample) :
    Except LayoutError (Picture format) :=
  if valid : ValidDimensions width height then
    if addressable : format.largestTerm width height < addressLimit then
      if covered : format.required width height ≤ samples.size then
        .ok ⟨width, height, samples, valid, addressable, covered⟩
      else
        .error (.bufferTooSmall (.picture format) (format.required width height) samples.size)
    else .error (.overflow format.overflow)
  else .error (.invalidDimensions width height)

def position (picture : Picture format) (component : Component) (x y : Nat) : Nat :=
  format.position picture.width picture.height component x y

def level (picture : Picture format) (component : Component) (x y : Nat) : Except Fault Nat :=
  match format.locate picture.width picture.height component x y with
  | .error fault => .error fault
  | .ok position =>
      match picture.samples[position]? with
      | some sample => .ok (format.level sample)
      | none => .error (.outOfRange picture.samples.size position)

def luma (picture : Picture format) (x y : Nat) : Except Fault Nat :=
  picture.level .luma x y

def chroma (picture : Picture format) (x y : Nat) : Except Fault (Nat × Nat) := do
  let u ← picture.level .u x y
  let v ← picture.level .v x y
  return (u, v)

def pixel {α : Type} [Scalar α] (picture : Picture format) (x y : Nat) :
    Except Fault (Color α) := do
  let luma ← picture.luma x y
  let (u, v) ← picture.chroma x y
  return format.normalise luma u v

def Contains (picture : Picture format) (x y : Nat) : Prop :=
  x < picture.width ∧ y < picture.height

theorem level_eq_ok_iff {picture : Picture format} {component : Component} {x y found : Nat} :
    picture.level component x y = .ok found ↔
      picture.position component x y < addressLimit ∧
        picture.samples[picture.position component x y]?.map format.level = some found := by
  unfold Picture.level
  cases located : format.locate picture.width picture.height component x y with
  | error fault =>
      have outside : ¬ picture.position component x y < addressLimit := by
        intro bound
        rw [Format.locate_eq_ok_iff.mpr ⟨rfl, bound⟩] at located
        cases located
      simp [outside]
  | ok position =>
      obtain ⟨placed, bound⟩ := Format.locate_eq_ok_iff.mp located
      have addressed : picture.position component x y = position := placed
      rw [addressed]
      rw [placed] at bound
      cases sample : picture.samples[position]? <;> simp [bound, sample]

theorem position_lt_size {picture : Picture format} {x y : Nat} (component : Component)
    (contained : picture.Contains x y) :
    picture.position component x y < picture.samples.size :=
  Nat.lt_of_lt_of_le (format.position_lt_required component contained.1 contained.2)
    picture.covered

theorem position_lt_addressLimit {picture : Picture format} {x y : Nat} (component : Component)
    (contained : picture.Contains x y) :
    picture.position component x y < addressLimit :=
  Nat.lt_of_lt_of_le (format.position_lt_required component contained.1 contained.2)
    (Nat.le_of_lt (Nat.lt_of_le_of_lt (format.required_le_largestTerm _ _) picture.addressable))

theorem exists_level {picture : Picture format} {x y : Nat} (component : Component)
    (contained : picture.Contains x y) :
    ∃ found, picture.level component x y = .ok found := by
  have inside := position_lt_size component contained
  refine ⟨format.level picture.samples[picture.position component x y], ?_⟩
  rw [level_eq_ok_iff]
  exact ⟨position_lt_addressLimit component contained, by simp [inside]⟩

theorem exists_pixel {α : Type} [Scalar α] {picture : Picture format} {x y : Nat}
    (contained : picture.Contains x y) :
    ∃ color : Color α, picture.pixel x y = .ok color := by
  obtain ⟨luma, lumaRead⟩ := exists_level .luma contained
  obtain ⟨u, uRead⟩ := exists_level .u contained
  obtain ⟨v, vRead⟩ := exists_level .v contained
  refine ⟨format.normalise luma u v, ?_⟩
  simp only [Picture.pixel, Picture.luma, Picture.chroma, lumaRead, uRead, vRead]
  rfl

end Picture

/-- Steps through `count` positions from `first` on, and stops at the first fault. -/
def foldPositions {σ ε : Type} (step : σ → Nat → Except ε σ) (first : Nat) :
    Nat → σ → Except ε σ
  | 0, state => .ok state
  | count + 1, state =>
      match step state first with
      | .ok next => foldPositions step (first + 1) count next
      | .error fault => .error fault

/-- What every step preserves holds after the last one, and none of them faults. -/
theorem foldPositions_induction {σ ε : Type} {motive : Nat → σ → Prop}
    {step : σ → Nat → Except ε σ} {first count : Nat} {state : σ} (start : motive first state)
    (steps : ∀ state index, first ≤ index → index < first + count → motive index state →
      ∃ next, step state index = .ok next ∧ motive (index + 1) next) :
    ∃ final, foldPositions step first count state = .ok final ∧ motive (first + count) final := by
  induction count generalizing first state with
  | zero => exact ⟨state, rfl, start⟩
  | succ count ih =>
      obtain ⟨next, stepped, kept⟩ := steps state first (Nat.le_refl _) (by omega) start
      obtain ⟨final, folded, reached⟩ := ih kept
        (fun state index lower upper => steps state index (by omega) (by omega))
      rw [Nat.add_right_comm, Nat.add_assoc] at reached
      exact ⟨final, by simp only [foldPositions, stepped, folded], reached⟩

/-- What every step without a fault preserves holds after the last one, if there is a last one. -/
theorem foldPositions_preserves {σ ε : Type} {motive : Nat → σ → Prop}
    {step : σ → Nat → Except ε σ} {first count : Nat} {state final : σ}
    (folded : foldPositions step first count state = .ok final) (start : motive first state)
    (steps : ∀ state index next, first ≤ index → index < first + count → motive index state →
      step state index = .ok next → motive (index + 1) next) :
    motive (first + count) final := by
  induction count generalizing first state with
  | zero =>
      cases folded
      exact start
  | succ count ih =>
      rw [foldPositions] at folded
      cases stepped : step state first with
      | error fault =>
          rw [stepped] at folded
          cases folded
      | ok next =>
          rw [stepped] at folded
          have kept := steps state first next (Nat.le_refl _) (by omega) start stepped
          have reached := ih folded kept
            (fun state index next lower upper => steps state index next (by omega) (by omega))
          rw [Nat.add_right_comm, Nat.add_assoc] at reached
          exact reached

theorem exists_foldPositions {σ ε : Type} {step : σ → Nat → Except ε σ} {first count : Nat}
    (steps : ∀ state index, first ≤ index → index < first + count →
      ∃ next, step state index = .ok next) (state : σ) :
    ∃ final, foldPositions step first count state = .ok final := by
  obtain ⟨final, folded, _⟩ :=
    foldPositions_induction (motive := fun _ (_ : σ) => True) trivial
      (fun state index lower upper _ =>
        (steps state index lower upper).imp fun _ stepped => ⟨stepped, trivial⟩)
  exact ⟨final, folded⟩

theorem foldPositions_congr {σ ε : Type} {step step' : σ → Nat → Except ε σ} {first count : Nat}
    (steps : ∀ state index, first ≤ index → index < first + count →
      step state index = step' state index) (state : σ) :
    foldPositions step first count state = foldPositions step' first count state := by
  induction count generalizing first state with
  | zero => rfl
  | succ count ih =>
      rw [foldPositions, foldPositions, steps state first (Nat.le_refl _) (by omega)]
      cases step' state first with
      | error fault => rfl
      | ok next =>
          exact ih (fun state index lower upper => steps state index (by omega) (by omega)) next

namespace Picture

variable {format : Format} {α : Type} [Scalar α]

def blockPixel (picture : Picture format) (scale x y dx dy : Nat) : Except Fault (Color α) := do
  let column ← Address.inRows scale dx x
  let row ← Address.inRows scale dy y
  picture.pixel column row

def blockSum (picture : Picture format) (scale x y : Nat) : Except Fault (Color α) :=
  foldPositions
    (fun rows dy =>
      foldPositions
        (fun sum dx => (sum + ·) <$> picture.blockPixel scale x y dx dy) 0 scale rows)
    0 scale Color.zero

def block (picture : Picture format) (scale x y : Nat) : Except Fault (Color α) := do
  let sum : Color α ← picture.blockSum scale x y
  let area ← Address.mul scale scale
  return sum / (Scalar.ofNat area : α)

/-- All pixels of the block `(x, y)` are pixels of the picture. -/
def CoversBlock (picture : Picture format) (scale x y : Nat) : Prop :=
  (x + 1) * scale ≤ picture.width ∧ (y + 1) * scale ≤ picture.height

theorem coversBlock_of_lt (picture : Picture format) {width height scale x y : Nat}
    (positive : 0 < scale) (column : x < width / scale) (row : y < height / scale)
    (wide : width ≤ picture.width) (high : height ≤ picture.height) :
    picture.CoversBlock scale x y := by
  have columns := (Nat.le_div_iff_mul_le positive).mp (Nat.succ_le_of_lt column)
  have rows := (Nat.le_div_iff_mul_le positive).mp (Nat.succ_le_of_lt row)
  exact ⟨Nat.le_trans columns wide, Nat.le_trans rows high⟩

theorem coversBlock_one {picture : Picture format} {x y : Nat}
    (contained : picture.Contains x y) : picture.CoversBlock 1 x y := by
  obtain ⟨column, row⟩ := contained
  unfold CoversBlock
  omega

theorem CoversBlock.contains {picture : Picture format} {scale x y dx dy : Nat}
    (covered : picture.CoversBlock scale x y) (column : dx < scale) (row : dy < scale) :
    picture.Contains (dx + x * scale) (dy + y * scale) := by
  obtain ⟨columns, rows⟩ := covered
  rw [Nat.add_mul, Nat.one_mul] at columns rows
  exact ⟨by omega, by omega⟩

theorem blockPixel_eq_pixel {picture : Picture format} {scale x y dx dy : Nat}
    (column : dx + x * scale < addressLimit) (row : dy + y * scale < addressLimit) :
    picture.blockPixel scale x y dx dy =
      (picture.pixel (dx + x * scale) (dy + y * scale) : Except Fault (Color α)) := by
  rw [blockPixel, Address.inRows_eq_ok_iff.mpr ⟨rfl, column⟩,
    Address.inRows_eq_ok_iff.mpr ⟨rfl, row⟩]
  rfl

theorem CoversBlock.blockPixel_eq {picture : Picture format} {scale x y dx dy : Nat}
    (covered : picture.CoversBlock scale x y) (column : dx < scale) (row : dy < scale) :
    picture.blockPixel scale x y dx dy =
      (picture.pixel (dx + x * scale) (dy + y * scale) : Except Fault (Color α)) := by
  have contained := covered.contains column row
  exact blockPixel_eq_pixel (Nat.lt_trans contained.1 picture.valid.width_lt)
    (Nat.lt_trans contained.2 picture.valid.height_lt)

theorem exists_blockPixel {picture : Picture format} {scale x y dx dy : Nat}
    (covered : picture.CoversBlock scale x y) (column : dx < scale) (row : dy < scale) :
    ∃ color : Color α, picture.blockPixel scale x y dx dy = .ok color := by
  rw [covered.blockPixel_eq column row]
  exact exists_pixel (covered.contains column row)

theorem CoversBlock.area_lt {picture : Picture format} {scale x y : Nat}
    (covered : picture.CoversBlock scale x y) : scale * scale < addressLimit := by
  have columns := Nat.le_trans (Nat.le_mul_of_pos_left scale x.succ_pos) covered.1
  have rows := Nat.le_trans (Nat.le_mul_of_pos_left scale y.succ_pos) covered.2
  exact Nat.lt_of_le_of_lt (Nat.mul_le_mul columns rows) picture.valid.2

theorem block_eq_ok_iff {picture : Picture format} {scale x y : Nat} {color : Color α} :
    picture.block scale x y = .ok color ↔
      scale * scale < addressLimit ∧ ∃ sum : Color α, picture.blockSum scale x y = .ok sum ∧
        sum / (Scalar.ofNat (scale * scale) : α) = color := by
  simp only [block, Address.bind_eq_ok_iff, Address.mul_eq_ok_iff, pure, Except.pure,
    Except.ok.injEq]
  constructor
  · intro read
    obtain ⟨sum, summed, _, ⟨rfl, bound⟩, rfl⟩ := read
    exact ⟨bound, sum, summed, rfl⟩
  · intro read
    obtain ⟨bound, sum, summed, rfl⟩ := read
    exact ⟨sum, summed, _, ⟨rfl, bound⟩, rfl⟩

theorem exists_block {picture : Picture format} {scale x y : Nat}
    (covered : picture.CoversBlock scale x y) :
    ∃ color : Color α, picture.block scale x y = .ok color := by
  have summed : ∃ sum : Color α, picture.blockSum scale x y = .ok sum := by
    refine exists_foldPositions (fun rows dy _ row => ?_) Color.zero
    refine exists_foldPositions (fun sum dx _ column => ?_) rows
    obtain ⟨color, read⟩ : ∃ color : Color α, picture.blockPixel scale x y dx dy = .ok color :=
      exists_blockPixel covered (by omega) (by omega)
    exact ⟨sum + color, by rw [read]; rfl⟩
  obtain ⟨sum, read⟩ := summed
  exact ⟨_, block_eq_ok_iff.mpr ⟨covered.area_lt, sum, read, rfl⟩⟩

/-- A block of one pixel is that pixel after a sum and a quotient that have nothing to do, and it
faults where the pixel does. -/
theorem block_one_eq_map {picture : Picture format} {x y : Nat} (column : x < addressLimit)
    (row : y < addressLimit) :
    picture.block 1 x y =
      (fun color : Color α => (Color.zero + color) / (Scalar.ofNat 1 : α)) <$>
        picture.pixel x y := by
  have single : picture.blockPixel 1 x y 0 0 = (picture.pixel x y : Except Fault (Color α)) := by
    rw [blockPixel_eq_pixel (by omega) (by omega), Nat.mul_one, Nat.mul_one, Nat.zero_add,
      Nat.zero_add]
  simp only [block, blockSum, foldPositions, single]
  cases (picture.pixel x y : Except Fault (Color α)) <;> rfl

end Picture

inductive Source where
  | yuv420 (picture : Picture .yuv420)
  | p010 (picture : Picture .p010)

namespace Source

variable {α : Type} [Scalar α]

def ofPicture : {format : Format} → Picture format → Source
  | .yuv420, picture => .yuv420 picture
  | .p010, picture => .p010 picture

def format : Source → Format
  | .yuv420 _ => .yuv420
  | .p010 _ => .p010

def width : Source → Nat
  | .yuv420 picture => picture.width
  | .p010 picture => picture.width

def height : Source → Nat
  | .yuv420 picture => picture.height
  | .p010 picture => picture.height

def pixel (source : Source) (x y : Nat) : Except Fault (Color α) :=
  match source with
  | .yuv420 picture => picture.pixel x y
  | .p010 picture => picture.pixel x y

def block (source : Source) (scale x y : Nat) : Except Fault (Color α) :=
  match source with
  | .yuv420 picture => picture.block scale x y
  | .p010 picture => picture.block scale x y

variable {known : Format} (picture : Picture known)

@[simp] theorem pixel_ofPicture (x y : Nat) :
    (ofPicture picture).pixel x y = (picture.pixel x y : Except Fault (Color α)) := by
  cases known <;> rfl

@[simp] theorem block_ofPicture (scale x y : Nat) :
    (ofPicture picture).block scale x y =
      (picture.block scale x y : Except Fault (Color α)) := by
  cases known <;> rfl

end Source

end HdrGain
