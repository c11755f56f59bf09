import HdrGain.Proofs.Scalar.Unrounded

namespace HdrGain

/-! # Scalars under check

Real numbers with operations that refuse what a formula should not come to: a divisor that is not
positive, a root or power of what is negative, a logarithm of what is not positive. What is computed
from a refusal is refused, and as it counts as larger than every number, no bound hides it. So a
result that is a number shows that nothing was refused on the way. -/

inductive Checked where
  | number (value : ℝ)
  | refused

namespace Checked

def map (f : ℝ → ℝ) : Checked → Checked
  | number value => number (f value)
  | refused => refused

def map₂ (f : ℝ → ℝ → ℝ) : Checked → Checked → Checked
  | number first, number second => number (f first second)
  | _, _ => refused

open Classical in
/-- The function `f` on the numbers in its domain. -/
noncomputable def mapOn (domain : ℝ → Prop) (f : ℝ → ℝ) : Checked → Checked
  | number value => if domain value then number (f value) else refused
  | refused => refused

noncomputable def div : Checked → Checked → Checked
  | number first, number second => if 0 < second then number (first / second) else refused
  | _, _ => refused

/-- Zero has powers with exponents that are not negative. -/
noncomputable def pow : Checked → Checked → Checked
  | number base, number exponent =>
      if 0 < base ∨ base = 0 ∧ 0 ≤ exponent then number (base ^ exponent) else refused
  | _, _ => refused

def lt : Checked → Checked → Prop
  | number first, number second => first < second
  | number _, refused => True
  | refused, _ => False

def le : Checked → Checked → Prop
  | number first, number second => first ≤ second
  | _, refused => True
  | refused, number _ => False

noncomputable def truncate : Checked → Nat
  | number value => min ⌊value⌋₊ (2 ^ 64 - 1)
  | refused => 2 ^ 64 - 1

def isFinite : Checked → Bool
  | number _ => true
  | refused => false

noncomputable instance : Scalar Checked where
  add := map₂ (· + ·)
  sub := map₂ (· - ·)
  mul := map₂ (· * ·)
  div := div
  neg := map (-·)
  lt := lt
  le := le
  ofScientific mantissa negative exponent :=
    number (OfScientific.ofScientific mantissa negative exponent)
  decidableLT := Classical.decRel _
  decidableLE := Classical.decRel _
  ofNat count := number count
  truncate := truncate
  isFinite := isFinite

noncomputable instance : Elementary Checked where
  sqrt := mapOn (0 ≤ ·) Real.sqrt
  ln := mapOn (0 < ·) Real.log
  exp := map Real.exp
  log2 := mapOn (0 < ·) (Real.logb (2 : ℕ))
  exp2 := map (((2 : ℕ) : ℝ) ^ ·)
  pow := pow

end Checked

/-- The real numbers are among the scalars, with their order, their sums and products, quotients by
positive divisors, and powers of what is not negative with positive exponents. Nothing is said about
other quotients and powers. -/
structure CarriesReals {α : Type} [Scalar α] [Elementary α] (number : ℝ → α) : Prop where
  add (first second : ℝ) : number first + number second = number (first + second)
  sub (first second : ℝ) : number first - number second = number (first - second)
  mul (first second : ℝ) : number first * number second = number (first * second)
  div {first second : ℝ} : 0 < second → number first / number second = number (first / second)
  pow {base exponent : ℝ} : 0 ≤ base → 0 < exponent →
    Elementary.pow (number base) (number exponent) = number (base ^ exponent)
  lt_iff (first second : ℝ) : number first < number second ↔ first < second
  le_iff (first second : ℝ) : number first ≤ number second ↔ first ≤ second
  ofScientific (mantissa : Nat) (negative : Bool) (exponent : Nat) :
    (OfScientific.ofScientific mantissa negative exponent : α) =
      number (OfScientific.ofScientific mantissa negative exponent)

namespace CarriesReals

variable {α : Type} [Scalar α] [Elementary α] {number : ℝ → α} (carries : CarriesReals number)

include carries

theorem zero : (0.0 : α) = number 0 := by
  rw [carries.ofScientific]
  norm_num

theorem one : (1.0 : α) = number 1 := by
  rw [carries.ofScientific]
  norm_num

theorem max (first second : ℝ) :
    Scalar.max (number first) (number second) = number (first ⊔ second) := by
  have isNumber : Scalar.isNumber (number second) = true :=
    decide_eq_true ((carries.le_iff second second).mpr le_rfl)
  by_cases less : second < first
  · rw [Scalar.max, if_pos (.inl ((carries.lt_iff second first).mpr less)),
      max_eq_left less.le]
  · rw [Scalar.max, if_neg, max_eq_right (not_lt.mp less)]
    rintro (below | noNumber)
    · exact less ((carries.lt_iff second first).mp below)
    · exact noNumber isNumber

end CarriesReals

theorem Checked.carries : CarriesReals number where
  add _ _ := rfl
  sub _ _ := rfl
  mul _ _ := rfl
  div positive := if_pos positive
  pow nonneg positive := if_pos (nonneg.lt_or_eq.imp_right fun zero => ⟨zero.symm, positive.le⟩)
  lt_iff _ _ := Iff.rfl
  le_iff _ _ := Iff.rfl
  ofScientific _ _ _ := rfl

theorem Unrounded.carries : CarriesReals real where
  add := real_add
  sub := real_sub
  mul := real_mul
  div positive := real_div positive.ne'
  pow {base exponent} nonneg positive := by
    change (if exponent = 0 then real 1 else powReal base exponent) = _
    rw [if_neg positive.ne', powReal]
    rcases nonneg.lt_or_eq with lit | rfl
    · rw [if_pos lit]
    · rw [if_neg (lt_irrefl 0), if_pos rfl, if_pos positive, Real.zero_rpow positive.ne']
  lt_iff := real_lt
  le_iff := real_le
  ofScientific := ofScientific_eq

end HdrGain
