import HdrGain.Color
import Mathlib

namespace HdrGain

/-! # Scalars without rounding

Real numbers with exact operations, and the results that floats have beside numbers: an infinity at
either end, and one that is no number. They come about as they do for floats. There is one zero,
and it counts as positive: what is divided by it goes to the end of its own sign. -/

inductive Unrounded where
  | real (value : ℝ)
  | top
  | bottom
  | nan

namespace Unrounded

/-- The end that the sign of a number points to. -/
noncomputable def toward (value : ℝ) : Unrounded :=
  if 0 < value then top else if value < 0 then bottom else nan

def neg : Unrounded → Unrounded
  | real value => real (-value)
  | top => bottom
  | bottom => top
  | nan => nan

def add : Unrounded → Unrounded → Unrounded
  | real first, real second => real (first + second)
  | real _, top | top, real _ | top, top => top
  | real _, bottom | bottom, real _ | bottom, bottom => bottom
  | top, bottom | bottom, top | nan, _ | _, nan => nan

noncomputable def mul : Unrounded → Unrounded → Unrounded
  | real first, real second => real (first * second)
  | real factor, top | top, real factor => toward factor
  | real factor, bottom | bottom, real factor => toward (-factor)
  | top, top | bottom, bottom => top
  | top, bottom | bottom, top => bottom
  | nan, _ | _, nan => nan

noncomputable def div : Unrounded → Unrounded → Unrounded
  | real first, real second => if second = 0 then toward first else real (first / second)
  | real _, top | real _, bottom => real 0
  | top, real divisor => if divisor < 0 then bottom else top
  | bottom, real divisor => if divisor < 0 then top else bottom
  | top, top | top, bottom | bottom, top | bottom, bottom | nan, _ | _, nan => nan

def lt : Unrounded → Unrounded → Prop
  | real first, real second => first < second
  | bottom, real _ | bottom, top | real _, top => True
  | _, _ => False

def le : Unrounded → Unrounded → Prop
  | real first, real second => first ≤ second
  | bottom, bottom | bottom, real _ | bottom, top | real _, top | top, top => True
  | _, _ => False

noncomputable def truncate : Unrounded → Nat
  | real value => min ⌊value⌋₊ (2 ^ 64 - 1)
  | top => 2 ^ 64 - 1
  | bottom | nan => 0

def isFinite : Unrounded → Bool
  | real _ => true
  | _ => false

noncomputable instance : Scalar Unrounded where
  add := add
  sub first second := add first (neg second)
  mul := mul
  div := div
  neg := neg
  lt := lt
  le := le
  ofScientific mantissa negative exponent :=
    real (OfScientific.ofScientific mantissa negative exponent)
  decidableLT := Classical.decRel _
  decidableLE := Classical.decRel _
  ofNat count := real count
  truncate := truncate
  isFinite := isFinite

/-- A logarithm `log`: there is none below zero, and zero is at the lower end. -/
noncomputable def logarithm (log : ℝ → ℝ) : Unrounded → Unrounded
  | real value => if 0 < value then real (log value) else if value = 0 then bottom else nan
  | top => top
  | bottom | nan => nan

def exponential (exp : ℝ → ℝ) : Unrounded → Unrounded
  | real value => real (exp value)
  | top => top
  | bottom => real 0
  | nan => nan

noncomputable def sqrt : Unrounded → Unrounded
  | real value => if value < 0 then nan else real (Real.sqrt value)
  | top => top
  | bottom | nan => nan

/-- A number to the power of a number that is not zero. Below zero there are powers with whole
exponents only. -/
noncomputable def powReal (base exponent : ℝ) : Unrounded :=
  if 0 < base then real (base ^ exponent)
  else if base = 0 then if 0 < exponent then real 0 else top
  else if (⌊exponent⌋ : ℝ) = exponent then real (base ^ ⌊exponent⌋)
  else nan

open Classical in
noncomputable def pow : Unrounded → Unrounded → Unrounded
  | base, real exponent =>
      if exponent = 0 then real 1
      else
        match base with
        | real base => powReal base exponent
        | top => if 0 < exponent then top else real 0
        | bottom =>
            if exponent < 0 then real 0
            else if (⌊exponent⌋ : ℝ) = exponent ∧ Odd ⌊exponent⌋ then bottom
            else top
        | nan => nan
  | real base, top =>
      if |base| < 1 then real 0 else if |base| = 1 then real 1 else top
  | real base, bottom =>
      if |base| < 1 then top else if |base| = 1 then real 1 else real 0
  | real base, nan => if base = 1 then real 1 else nan
  | top, top | bottom, top => top
  | top, bottom | bottom, bottom => real 0
  | nan, _ | _, nan => nan

noncomputable instance : Elementary Unrounded where
  sqrt := sqrt
  ln := logarithm Real.log
  exp := exponential Real.exp
  log2 := logarithm (Real.logb 2)
  exp2 := exponential (2 ^ ·)
  pow := pow

section Numbers

variable (first second : ℝ)

@[simp] theorem real_add : (real first + real second : Unrounded) = real (first + second) := rfl

@[simp] theorem real_sub : (real first - real second : Unrounded) = real (first - second) := by
  rw [sub_eq_add_neg]
  rfl

@[simp] theorem real_mul : (real first * real second : Unrounded) = real (first * second) := rfl

@[simp] theorem real_neg : (-real first : Unrounded) = real (-first) := rfl

@[simp] theorem real_lt : (real first < real second) ↔ first < second := Iff.rfl

@[simp] theorem real_le : (real first ≤ real second) ↔ first ≤ second := Iff.rfl

variable {first second} in
theorem real_div (nonzero : second ≠ 0) :
    (real first / real second : Unrounded) = real (first / second) :=
  if_neg nonzero

@[simp] theorem ofScientific_eq (mantissa : Nat) (negative : Bool) (exponent : Nat) :
    (OfScientific.ofScientific mantissa negative exponent : Unrounded) =
      real (OfScientific.ofScientific mantissa negative exponent) := rfl

@[simp] theorem ofNat_eq (count : Nat) : (Scalar.ofNat count : Unrounded) = real count := rfl

theorem truncate_real : Scalar.truncate (real first) = min ⌊first⌋₊ (2 ^ 64 - 1) := rfl

variable {first} in
theorem log2_real (positive : 0 < first) :
    Elementary.log2 (real first) = real (Real.logb 2 first) :=
  if_pos positive

theorem log2_zero : Elementary.log2 (real 0) = bottom := by
  change (if (0 : ℝ) < 0 then _ else if (0 : ℝ) = 0 then bottom else nan) = bottom
  rw [if_neg (lt_irrefl 0), if_pos rfl]

variable {first} in
theorem log2_negative (negative : first < 0) : Elementary.log2 (real first) = nan := by
  change (if 0 < first then _ else if first = 0 then bottom else nan) = nan
  rw [if_neg negative.not_gt, if_neg negative.ne]

theorem exp2_real : Elementary.exp2 (real first) = real (2 ^ first) := rfl

variable {first} in
theorem sqrt_real (nonneg : 0 ≤ first) : Elementary.sqrt (real first) = real √first :=
  if_neg nonneg.not_gt

variable {first} in
theorem ln_real (positive : 0 < first) : Elementary.ln (real first) = real (Real.log first) :=
  if_pos positive

variable {first second} in
theorem pow_real (positive : 0 < first) (nonzero : second ≠ 0) :
    Elementary.pow (real first) (real second) = real (first ^ second) := by
  change (if second = 0 then real 1 else powReal first second) = _
  rw [if_neg nonzero, powReal, if_pos positive]

theorem zero_eq : (0.0 : Unrounded) = real 0 := by
  rw [ofScientific_eq]
  norm_num

end Numbers

/-- Below every number, or no number: what is left of a scalar that has no logarithm. -/
def Sunk (value : Unrounded) : Prop :=
  value = bottom ∨ value = nan

/-- A number, or sunk. -/
def Bounded (value : Unrounded) : Prop :=
  (∃ number, value = real number) ∨ value.Sunk

namespace Sunk

variable {value : Unrounded} {factor : ℝ}

theorem add (sunk : value.Sunk) (other : Unrounded) :
    (value + other).Sunk ∧ (other + value).Sunk := by
  rcases sunk with rfl | rfl <;> cases other <;>
    exact ⟨by first | exact .inl rfl | exact .inr rfl, by first | exact .inl rfl | exact .inr rfl⟩

theorem mul (sunk : value.Sunk) (positive : 0 < factor) :
    (value * real factor).Sunk ∧ (real factor * value).Sunk := by
  have under : toward (-factor) = bottom := by
    unfold toward
    rw [if_neg (by linarith), if_pos (by linarith)]
  rcases sunk with rfl | rfl
  · exact ⟨.inl under, .inl under⟩
  · exact ⟨.inr rfl, .inr rfl⟩

theorem div (sunk : value.Sunk) (positive : 0 < factor) : (value / real factor).Sunk := by
  rcases sunk with rfl | rfl
  · exact .inl (if_neg positive.not_gt)
  · exact .inr rfl

theorem not_pos (sunk : value.Sunk) : ¬ (0.0 : Unrounded) < value := by
  rw [zero_eq]
  rcases sunk with rfl | rfl <;> exact not_false

theorem truncate (sunk : value.Sunk) : Scalar.truncate value = 0 := by
  rcases sunk with rfl | rfl <;> rfl

end Sunk

theorem log2_sunk {value : ℝ} (dark : value ≤ 0) : (Elementary.log2 (real value)).Sunk := by
  rcases dark.lt_or_eq with negative | rfl
  · exact .inr (log2_negative negative)
  · exact .inl log2_zero

end Unrounded

end HdrGain
