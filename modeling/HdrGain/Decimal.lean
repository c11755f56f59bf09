namespace HdrGain.Decimal

/-! # Shortest decimals

A binary number is one of finitely many, so it can be told from its neighbours by few decimal
digits. `shortest` finds the fewest: the coarsest decimal grid with a point among the numbers that
round to the binary one, and on it the point nearest to the number itself. -/

/-- Which of two points wins that are equally near. -/
inductive Tie where
  | up
  | toEven
deriving DecidableEq, Repr

/-- The numbers that round to `mantissa * 2 ^ exponent`, which is positive. They reach half way
to the next binary number on either side; below a power of two the next one is half as far. -/
structure Rounding where
  mantissa : Nat
  exponent : Int
  narrowBelow : Bool
deriving DecidableEq, Repr

namespace Rounding

/-- Quarters of the last binary place below the number. -/
def lower (rounding : Rounding) : Nat :=
  4 * rounding.mantissa - (if rounding.narrowBelow then 1 else 2)

def upper (rounding : Rounding) : Nat :=
  4 * rounding.mantissa + 2

/-- The ends round to the number only when its mantissa is even. -/
def holds (rounding : Rounding) (below above : Nat) : Bool :=
  if rounding.mantissa % 2 = 0 then decide (below ≤ above) else decide (below < above)

end Rounding

/-- A number as digits and the power of ten of the last of them. -/
structure Digits where
  digits : Nat
  power : Int
deriving DecidableEq, Repr

def powerParts (base : Nat) (power : Int) : Nat × Nat :=
  (Nat.pow base power.toNat, Nat.pow base (-power).toNat)

/-- The point of the grid of `10 ^ power` that is nearest to the number, if it rounds to it. -/
def onGrid (tie : Tie) (rounding : Rounding) (power : Int) : Option Digits :=
  let (binaryNum, binaryDen) := powerParts 2 (rounding.exponent - 2)
  let (decimalNum, decimalDen) := powerParts 10 power
  let step := decimalNum * binaryDen
  let quarter := binaryNum * decimalDen
  let value := 4 * rounding.mantissa * quarter
  let below := value / step
  let holdsBelow := rounding.holds (rounding.lower * quarter) (below * step)
  let holdsAbove := rounding.holds ((below + 1) * step) (rounding.upper * quarter)
  let fromBelow := value - below * step
  let fromAbove := (below + 1) * step - value
  let nearer :=
    if fromBelow < fromAbove then below
    else if fromAbove < fromBelow then below + 1
    else
      match tie with
      | .up => below + 1
      | .toEven => if below % 2 = 0 then below else below + 1
  match holdsBelow, holdsAbove with
  | true, true => some ⟨nearer, power⟩
  | true, false => some ⟨below, power⟩
  | false, true => some ⟨below + 1, power⟩
  | false, false => none

/-- Tries the grids of `10 ^ power` and finer, at most `grids` of them before the last. -/
def search (tie : Tie) (rounding : Rounding) : (grids : Nat) → (power : Int) → Digits
  | 0, power => (onGrid tie rounding power).getD ⟨0, power⟩
  | grids + 1, power =>
      match onGrid tie rounding power with
      | some found => found
      | none => search tie rounding grids (power - 1)

def topPower (rounding : Rounding) : Int :=
  (rounding.mantissa.log2 : Int) + 1 + rounding.exponent.toNat

/-- The search ends at the latest where the binary number itself is on the grid. -/
def shortest (tie : Tie) (rounding : Rounding) : Digits :=
  let top := topPower rounding
  search tie rounding (top + (-rounding.exponent).toNat).toNat top

end HdrGain.Decimal

namespace HdrGain.Binary

inductive Reading where
  | notANumber
  | infinite (negative : Bool)
  | zero (negative : Bool)
  | finite (negative : Bool) (rounding : Decimal.Rounding)
deriving DecidableEq, Repr

def readMagnitude (negative : Bool) (magnitude : Nat) : Reading :=
  let exponent : Nat := magnitude / 0x800000
  let fraction : Nat := magnitude % 0x800000
  if exponent = 255 then
    if fraction = 0 then .infinite negative else .notANumber
  else if exponent = 0 then
    if fraction = 0 then .zero negative else .finite negative ⟨fraction, -149, false⟩
  else
    .finite negative
      ⟨0x800000 + fraction, (exponent : Int) - 150, decide (fraction = 0 ∧ 1 < exponent)⟩

def read (value : Float32) : Reading :=
  let bits := value.toBits.toNat
  readMagnitude (decide (0x80000000 ≤ bits)) (bits % 0x80000000)

/-- How finely a binary format divides the numbers: its mantissas have `digits` places and its
numbers are multiples of `2 ^ least`. -/
structure Precision where
  digits : Nat
  least : Int
deriving DecidableEq, Repr

def double : Precision := ⟨53, -1074⟩

def single : Precision := ⟨24, -149⟩

structure Magnitude where
  mantissa : Nat
  exponent : Int
deriving DecidableEq, Repr

/-- The nearest whole number to a quotient, the even one of two that are equally near. -/
def roundQuotient (num den : Nat) : Nat :=
  let whole := num / den
  let rest := num % den
  if 2 * rest < den then whole
  else if den < 2 * rest then whole + 1
  else if whole % 2 = 0 then whole else whole + 1

def leadingPlace (num den : Nat) : Int :=
  let guess : Int := (num.log2 : Int) - den.log2
  let (powerNum, powerDen) := Decimal.powerParts 2 guess
  if den * powerNum ≤ num * powerDen then guess else guess - 1

/-- The nearest number of a precision to a quotient, without a bound on its exponent. -/
def Precision.nearest (precision : Precision) (num den : Nat) : Magnitude :=
  if num = 0 then ⟨0, precision.least⟩
  else
    let exponent := max precision.least (leadingPlace num den - (precision.digits - 1 : Nat))
    let (powerNum, powerDen) := Decimal.powerParts 2 exponent
    ⟨roundQuotient (num * powerDen) (den * powerNum), exponent⟩

def Magnitude.num (magnitude : Magnitude) : Nat :=
  magnitude.mantissa * Nat.pow 2 magnitude.exponent.toNat

def Magnitude.den (magnitude : Magnitude) : Nat :=
  Nat.pow 2 (-magnitude.exponent).toNat

/-- The largest double is below this bound. -/
def Magnitude.isDouble (magnitude : Magnitude) : Bool :=
  decide (magnitude.num < Nat.pow 2 1024 * magnitude.den)

/-- The bits of the 32-bit float that rounds a quotient. Past the largest there is infinity. -/
def singleBits (num den : Nat) : Nat :=
  let nearest := single.nearest num den
  min 0x7f800000 ((nearest.exponent + 149).toNat * 0x800000 + nearest.mantissa)

def toFloat32 (negative : Bool) (bits : Nat) : Float32 :=
  Float32.ofBits (UInt32.ofNat (bits + if negative then 0x80000000 else 0))

end HdrGain.Binary

namespace HdrGain.Binary.Double

def ofNat (value : Nat) : Magnitude :=
  double.nearest value 1

def mul (first second : Magnitude) : Magnitude :=
  double.nearest (first.num * second.num) (first.den * second.den)

def div (first second : Magnitude) : Magnitude :=
  double.nearest (first.num * second.den) (first.den * second.num)

/-- The largest power of ten that is below infinity. -/
def largestPower : Nat := 308

def tenTo (power : Nat) : Magnitude :=
  ofNat (Nat.pow 10 power)

/-- Multiplies by a power of ten, unless the result is past the largest double. -/
def scaleUp? (size : Magnitude) (power : Nat) : Option Magnitude :=
  if size.mantissa = 0 then some size
  else if largestPower < power then none
  else
    let product := mul size (tenTo power)
    if product.isDouble then some product else none

/-- Divides by a power of ten, in two steps if it has to be. What a word holds is zero after
two steps. -/
def scaleDown (size : Magnitude) (power : Nat) : Magnitude :=
  if power ≤ largestPower then div size (tenTo power)
  else if power ≤ 2 * largestPower then
    div (div size (tenTo largestPower)) (tenTo (power - largestPower))
  else ofNat 0

def scale? (size : Magnitude) : (power : Int) → Option Magnitude
  | .ofNat power => scaleUp? size power
  | .negSucc power => some (scaleDown size (power + 1))

end HdrGain.Binary.Double

namespace HdrGain.Decimal

structure Style where
  tie : Tie
  /-- Whether a number is written without an exponent, by how many digits precede its point. -/
  plain : Int → Bool
  wholeMark : String
  notANumber : String
  infinite : (negative : Bool) → String

namespace Style

def zeros (count : Nat) : String :=
  String.ofList (List.replicate count '0')

/-- A number whose point stands after `point` of its digits. -/
def writePlain (style : Style) (digits : List Char) (point : Int) : String :=
  if (digits.length : Int) ≤ point then
    String.ofList digits ++ zeros (point - digits.length).toNat ++ style.wholeMark
  else if 0 < point then
    String.ofList (digits.take point.toNat) ++ "." ++ String.ofList (digits.drop point.toNat)
  else "0." ++ zeros (-point).toNat ++ String.ofList digits

def writeExponent (digits : List Char) (point : Int) : String :=
  let fraction :=
    if digits.length ≤ 1 then "" else "." ++ String.ofList (digits.drop 1)
  String.ofList (digits.take 1) ++ fraction ++ "e" ++ toString (point - 1)

def writeDigits (style : Style) (number : Digits) : String :=
  let digits := Nat.toDigits 10 number.digits
  let point := (digits.length : Int) + number.power
  if style.plain point then style.writePlain digits point else writeExponent digits point

def sign (negative : Bool) : String :=
  if negative then "-" else ""

def write (style : Style) (value : Float32) : String :=
  match Binary.read value with
  | .notANumber => style.notANumber
  | .infinite negative => style.infinite negative
  | .zero negative => sign negative ++ "0" ++ style.wholeMark
  | .finite negative rounding =>
      sign negative ++ style.writeDigits (shortest style.tie rounding)

end Style

end HdrGain.Decimal
