namespace HdrGain

inductive Operation where
  | addition
  | multiplication
deriving DecidableEq, Repr

/-- How working out an index or reading at it fails. -/
inductive Fault where
  | outOfRange (length index : Nat)
  /-- A color has the channels 0, 1 and 2 only. -/
  | channel (index : Nat)
  | overflow (operation : Operation)
deriving DecidableEq, Repr

def Operation.verb : Operation → String
  | .addition => "add"
  | .multiplication => "multiply"

def Fault.message : Fault → String
  | .outOfRange length index =>
      s!"index out of bounds: the len is {length} but the index is {index}"
  | .channel index => s!"Color index out of bounds: {index}"
  | .overflow operation => s!"attempt to {operation.verb} with overflow"

def addressLimit : Nat := 0x10000000000000000

namespace Address

def checked (operation : Operation) (result : Nat) : Except Fault Nat :=
  if result < addressLimit then .ok result else .error (.overflow operation)

def add (first second : Nat) : Except Fault Nat :=
  checked .addition (first + second)

def mul (first second : Nat) : Except Fault Nat :=
  checked .multiplication (first * second)

theorem checked_eq_ok_iff {operation : Operation} {result found : Nat} :
    checked operation result = .ok found ↔ result = found ∧ result < addressLimit := by
  unfold checked
  by_cases bound : result < addressLimit <;> simp [bound]

@[simp] theorem add_eq_ok_iff {first second found : Nat} :
    add first second = .ok found ↔ first + second = found ∧ first + second < addressLimit :=
  checked_eq_ok_iff

@[simp] theorem mul_eq_ok_iff {first second found : Nat} :
    mul first second = .ok found ↔ first * second = found ∧ first * second < addressLimit :=
  checked_eq_ok_iff

/-- The place of `(x, y)` in rows of `width`. -/
def inRows (width x y : Nat) : Except Fault Nat := do
  add x (← mul y width)

theorem bind_eq_ok_iff {α β : Type} {first : Except Fault α} {next : α → Except Fault β}
    {result : β} :
    (first >>= next) = .ok result ↔ ∃ value, first = .ok value ∧ next value = .ok result := by
  cases first with
  | error fault => simp [bind, Except.bind]
  | ok value => simp [bind, Except.bind]

theorem inRows_eq_ok_iff {width x y found : Nat} :
    inRows width x y = .ok found ↔
      x + y * width = found ∧ x + y * width < addressLimit := by
  simp only [inRows, bind_eq_ok_iff, mul_eq_ok_iff, add_eq_ok_iff]
  constructor
  · intro located
    obtain ⟨row, ⟨rfl, _⟩, rfl, bound⟩ := located
    exact ⟨rfl, bound⟩
  · intro placed
    obtain ⟨rfl, bound⟩ := placed
    exact ⟨y * width, ⟨rfl, by omega⟩, rfl, bound⟩

end Address

end HdrGain
