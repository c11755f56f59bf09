import HdrGain.Color
import Mathlib

namespace HdrGain

/-! # Exact scalars

Rational numbers, none of whose operations rounds. They show what arithmetic alone makes of a
computation that takes no roots, logarithms or powers. -/

structure Exact where
  value : ℚ
deriving DecidableEq

namespace Exact

instance : Scalar Exact where
  add first second := ⟨first.value + second.value⟩
  sub first second := ⟨first.value - second.value⟩
  mul first second := ⟨first.value * second.value⟩
  div first second := ⟨first.value / second.value⟩
  neg scalar := ⟨-scalar.value⟩
  lt first second := first.value < second.value
  le first second := first.value ≤ second.value
  ofScientific mantissa negative exponent :=
    ⟨OfScientific.ofScientific mantissa negative exponent⟩
  decidableLT first second := inferInstanceAs (Decidable (first.value < second.value))
  decidableLE first second := inferInstanceAs (Decidable (first.value ≤ second.value))
  ofNat count := ⟨count⟩
  truncate scalar := min ⌊scalar.value⌋₊ (2 ^ 64 - 1)
  isFinite _ := true

theorem value_injective : Function.Injective value :=
  fun ⟨_⟩ ⟨_⟩ same => congrArg mk same

variable (first second : Exact)

@[simp] theorem value_add : (first + second).value = first.value + second.value := rfl

@[simp] theorem value_sub : (first - second).value = first.value - second.value := rfl

@[simp] theorem value_mul : (first * second).value = first.value * second.value := rfl

@[simp] theorem value_div : (first / second).value = first.value / second.value := rfl

@[simp] theorem value_neg : (-first).value = -first.value := rfl

variable {first second} in
theorem le_iff : first ≤ second ↔ first.value ≤ second.value := Iff.rfl

variable {first second} in
theorem lt_iff : first < second ↔ first.value < second.value := Iff.rfl

@[simp] theorem value_ofScientific (mantissa : Nat) (negative : Bool) (exponent : Nat) :
    (OfScientific.ofScientific mantissa negative exponent : Exact).value =
      OfScientific.ofScientific mantissa negative exponent := rfl

@[simp] theorem value_ofNat (count : Nat) : (Scalar.ofNat count : Exact).value = count := rfl

@[simp] theorem value_abs : (Scalar.abs first).value = |first.value| := by
  have zero : (0.0 : Exact).value = 0 := by
    rw [value_ofScientific]
    norm_num
  unfold Scalar.abs
  split
  · rename_i negative
    rw [lt_iff, zero] at negative
    exact (abs_of_neg negative).symm
  · rename_i nonneg
    rw [lt_iff, zero, not_lt] at nonneg
    exact (abs_of_nonneg nonneg).symm

variable {first} in
/-- Where a divisor counts as zero. -/
theorem abs_lt_threshold_iff : Scalar.abs first < 1e-10 ↔ |first.value| < 1 / 10 ^ 10 := by
  have threshold : (1e-10 : Exact).value = 1 / 10 ^ 10 := by
    rw [value_ofScientific]
    norm_num
  rw [lt_iff, value_abs, threshold]

theorem truncate_eq : Scalar.truncate first = min ⌊first.value⌋₊ (2 ^ 64 - 1) := rfl

end Exact

end HdrGain

namespace HdrGain.Color

def channels {α : Type} (color : Color α) : Fin 3 → α :=
  ![color.r, color.g, color.b]

/-- The channels as rational numbers. -/
def values (color : Color Exact) : Fin 3 → ℚ :=
  ![color.r.value, color.g.value, color.b.value]

theorem value_channels (color : Color Exact) (channel : Fin 3) :
    (color.channels channel).value = color.values channel := by
  fin_cases channel <;> rfl

theorem values_zero : (zero : Color Exact).values = 0 := by
  have value : (0.0 : Exact).value = 0 := by
    rw [Exact.value_ofScientific]
    norm_num
  funext channel
  fin_cases channel <;> exact value

theorem values_add (first second : Color Exact) :
    (first + second).values = first.values + second.values := by
  funext channel
  fin_cases channel <;> rfl

theorem values_div (color : Color Exact) (divisor : Exact) (channel : Fin 3) :
    (color / divisor).values channel = color.values channel / divisor.value := by
  fin_cases channel <;> rfl

theorem values_injective : Function.Injective values := by
  intro first second same
  have r : first.r = second.r := congrArg Exact.mk (congrFun same 0)
  have g : first.g = second.g := congrArg Exact.mk (congrFun same 1)
  have b : first.b = second.b := congrArg Exact.mk (congrFun same 2)
  cases first
  cases second
  simp_all

theorem values_surjective : Function.Surjective values := by
  intro channels
  refine ⟨⟨⟨channels 0⟩, ⟨channels 1⟩, ⟨channels 2⟩⟩, ?_⟩
  funext channel
  fin_cases channel <;> rfl

end HdrGain.Color
