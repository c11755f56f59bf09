import HdrGain.Address
import HdrGain.Scalar

namespace HdrGain

structure Color (α : Type) where
  r : α
  g : α
  b : α
deriving BEq, DecidableEq, Repr

namespace Color

variable {α β : Type}

def splat (value : α) : Color α :=
  ⟨value, value, value⟩

def map (f : α → β) (color : Color α) : Color β :=
  ⟨f color.r, f color.g, f color.b⟩

/-- Luma, when the channels are luma and chroma. -/
def y (color : Color α) : α := color.r

/-- The blue difference, when the channels are luma and chroma. -/
def u (color : Color α) : α := color.g

/-- The red difference, when the channels are luma and chroma. -/
def v (color : Color α) : α := color.b

def channel (color : Color α) : Nat → Except Fault α
  | 0 => .ok color.r
  | 1 => .ok color.g
  | 2 => .ok color.b
  | index => .error (.channel index)

section Arithmetic

variable [Scalar α]

def zero : Color α := splat 0.0

def one : Color α := splat 1.0

instance : Add (Color α) where
  add first second := ⟨first.r + second.r, first.g + second.g, first.b + second.b⟩

instance : Sub (Color α) where
  sub first second := ⟨first.r - second.r, first.g - second.g, first.b - second.b⟩

instance : HMul (Color α) α (Color α) where
  hMul color factor := color.map (· * factor)

instance : HDiv (Color α) α (Color α) where
  hDiv color divisor := color.map (· / divisor)

/-- The sum of the channels under `weights`, summed from red to blue. -/
def dot (weights color : Color α) : α :=
  weights.r * color.r + weights.g * color.g + weights.b * color.b

/-- The largest channel that is a number. -/
def largest (color : Color α) : α :=
  Scalar.max (Scalar.max color.r color.g) color.b

def isFinite (color : Color α) : Bool :=
  Scalar.isFinite color.r && Scalar.isFinite color.g && Scalar.isFinite color.b

@[simp] theorem add_r (first second : Color α) : (first + second).r = first.r + second.r := rfl

@[simp] theorem add_g (first second : Color α) : (first + second).g = first.g + second.g := rfl

@[simp] theorem add_b (first second : Color α) : (first + second).b = first.b + second.b := rfl

@[simp] theorem sub_r (first second : Color α) : (first - second).r = first.r - second.r := rfl

@[simp] theorem sub_g (first second : Color α) : (first - second).g = first.g - second.g := rfl

@[simp] theorem sub_b (first second : Color α) : (first - second).b = first.b - second.b := rfl

@[simp] theorem mul_r (color : Color α) (factor : α) : (color * factor).r = color.r * factor := rfl

@[simp] theorem mul_g (color : Color α) (factor : α) : (color * factor).g = color.g * factor := rfl

@[simp] theorem mul_b (color : Color α) (factor : α) : (color * factor).b = color.b * factor := rfl

@[simp] theorem div_r (color : Color α) (divisor : α) :
    (color / divisor).r = color.r / divisor := rfl

@[simp] theorem div_g (color : Color α) (divisor : α) :
    (color / divisor).g = color.g / divisor := rfl

@[simp] theorem div_b (color : Color α) (divisor : α) :
    (color / divisor).b = color.b / divisor := rfl

end Arithmetic

@[simp] theorem map_id (color : Color α) : color.map id = color := rfl

@[simp] theorem map_map {γ : Type} (f : α → β) (g : β → γ) (color : Color α) :
    (color.map f).map g = color.map (g ∘ f) := rfl

end Color

end HdrGain

namespace HdrGain.Packing

variable {α : Type} [Scalar α]

/-- A channel in units of 1 / 1023, modulo 1024. -/
def field (channel : α) : UInt32 :=
  Scalar.toWord (channel * 1023.0) &&& 0x3ff

def opacity : UInt32 := (3 : UInt32) <<< 30

def pack (color : Color α) : UInt32 :=
  field color.r ||| field color.g <<< 10 ||| field color.b <<< 20 ||| opacity

end HdrGain.Packing

namespace HdrGain

structure Matrix (α : Type) where
  r : Color α
  g : Color α
  b : Color α
deriving BEq, DecidableEq, Repr

namespace Matrix

variable {α : Type}

def ofColumns (first second third : Color α) : Matrix α :=
  ⟨⟨first.r, second.r, third.r⟩, ⟨first.g, second.g, third.g⟩, ⟨first.b, second.b, third.b⟩⟩

def transpose (matrix : Matrix α) : Matrix α :=
  ofColumns matrix.r matrix.g matrix.b

def row (matrix : Matrix α) : Nat → Except Fault (Color α)
  | 0 => .ok matrix.r
  | 1 => .ok matrix.g
  | 2 => .ok matrix.b
  | index => .error (.outOfRange 3 index)

section Arithmetic

variable [Scalar α]

def diagonal (entries : Color α) : Matrix α :=
  ⟨⟨entries.r, 0.0, 0.0⟩, ⟨0.0, entries.g, 0.0⟩, ⟨0.0, 0.0, entries.b⟩⟩

def identity : Matrix α := diagonal Color.one

def transform (matrix : Matrix α) (color : Color α) : Color α :=
  ⟨matrix.r.dot color, matrix.g.dot color, matrix.b.dot color⟩

/-- Each column of the product is the first matrix applied to that column of the second. -/
instance : Mul (Matrix α) where
  mul first second :=
    let columns := second.transpose
    ofColumns (first.transform columns.r) (first.transform columns.g) (first.transform columns.b)

/-- The vector at right angles to both, as long as the area between them. -/
def cross (first second : Color α) : Color α :=
  ⟨first.g * second.b - second.g * first.b,
    first.b * second.r - second.b * first.r,
    first.r * second.g - second.r * first.g⟩

/-- The volume that the three columns span. -/
def determinant (matrix : Matrix α) : α :=
  let columns := matrix.transpose
  columns.b.dot (cross columns.r columns.g)

/-- Row by row the cross products of two columns, over the determinant. -/
def adjugateInverse (matrix : Matrix α) : Matrix α :=
  let columns := matrix.transpose
  let scale : α := 1.0 / matrix.determinant
  ⟨cross columns.g columns.b * scale, cross columns.b columns.r * scale,
    cross columns.r columns.g * scale⟩

/-- There is no inverse when the determinant is closer to zero than one part in 10 ^ 10. -/
def inverse? (matrix : Matrix α) : Option (Matrix α) :=
  if Scalar.abs matrix.determinant < 1e-10 then none else some matrix.adjugateInverse

theorem inverse?_eq_none_iff {matrix : Matrix α} :
    matrix.inverse? = none ↔ Scalar.abs matrix.determinant < 1e-10 := by
  unfold inverse?
  split <;> simp_all

theorem inverse?_eq_some_iff {matrix inverse : Matrix α} :
    matrix.inverse? = some inverse ↔
      ¬ Scalar.abs matrix.determinant < 1e-10 ∧ matrix.adjugateInverse = inverse := by
  unfold inverse?
  split <;> simp_all

end Arithmetic

@[simp] theorem transpose_ofColumns (first second third : Color α) :
    (ofColumns first second third).transpose = ⟨first, second, third⟩ := rfl

@[simp] theorem transpose_transpose (matrix : Matrix α) :
    matrix.transpose.transpose = matrix := rfl

end Matrix

end HdrGain
