namespace HdrGain

/-! # Scalars

Every computation of the library is written over a type of scalars with the operations of
`Scalar`, and those that need logarithms and powers over `Elementary` as well. Running code uses
32-bit floats; an exact number system gives the same definitions an idealised reading. -/

/-- Arithmetic, an order that can be tested, and the crossings between numbers and counts. -/
class Scalar (α : Type) extends Add α, Sub α, Mul α, Div α, Neg α, LT α, LE α, OfScientific α where
  decidableLT : DecidableLT α := by infer_instance
  decidableLE : DecidableLE α := by infer_instance
  /-- The scalar nearest to a count. -/
  ofNat : Nat → α
  /-- The whole part. Negative scalars and scalars that are no number have none and give zero;
  a carrier with infinities gives them the largest 64-bit word. -/
  truncate : α → Nat
  isFinite : α → Bool

/-- The transcendental functions. They are a class of their own, so that a statement may assume
of them exactly what it uses. -/
class Elementary (α : Type) where
  sqrt : α → α
  ln : α → α
  exp : α → α
  log2 : α → α
  exp2 : α → α
  pow : α → α → α

namespace Scalar

variable {α : Type} [Scalar α]

instance : DecidableLT α := Scalar.decidableLT

instance : DecidableLE α := Scalar.decidableLE

def abs (value : α) : α :=
  if value < 0.0 then -value else value

/-- Only a scalar that is no number fails to be at most itself. -/
def isNumber (value : α) : Bool :=
  decide (value ≤ value)

/-- The larger of two scalars, the second on a tie. A scalar that is no number loses. -/
def max (first second : α) : α :=
  if second < first ∨ ¬ isNumber second then first else second

/-- Truncation into a byte, clamped at both ends. -/
def toByte (value : α) : UInt8 :=
  UInt8.ofNat (min 255 (truncate value))

def toWord (value : α) : UInt32 :=
  UInt32.ofNat (min 4294967295 (truncate value))

end Scalar

instance : Scalar Float32 where
  ofNat := Float32.ofNat
  truncate value := value.toUInt64.toNat
  isFinite := Float32.isFinite

instance : Elementary Float32 where
  sqrt := Float32.sqrt
  ln := Float32.log
  exp := Float32.exp
  log2 := Float32.log2
  exp2 := Float32.exp2
  pow := Float32.pow

end HdrGain
