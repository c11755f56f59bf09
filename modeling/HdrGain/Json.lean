import HdrGain.Address
import HdrGain.Decimal

namespace HdrGain.Json

/-- A decimal number as it is written: digits, perhaps more digits after a point, and perhaps a
power of ten. -/
structure Numeral where
  negative : Bool
  whole : List Char
  fraction : Option (List Char)
  exponent : Option Int
deriving DecidableEq, Repr

def digitValue (digit : Char) : Nat :=
  digit.toNat - '0'.toNat

def digitsValue (digits : List Char) : Nat :=
  digits.foldl (fun value digit => value * 10 + digitValue digit) 0

def scanSign : List Char → Bool × List Char
  | '-' :: rest => (true, rest)
  | rest => (false, rest)

def scanDigits (input : List Char) : Option (List Char × List Char) :=
  match input.takeWhile Char.isDigit with
  | [] => none
  | digits => some (digits, input.dropWhile Char.isDigit)

/-- Digits without a zero in front of others. -/
def scanWhole (input : List Char) : Option (List Char × List Char) := do
  let (digits, rest) ← scanDigits input
  match digits with
  | '0' :: _ :: _ => none
  | _ => return (digits, rest)

def scanFraction : List Char → Option (Option (List Char) × List Char)
  | '.' :: rest => do
      let (digits, rest) ← scanDigits rest
      return (some digits, rest)
  | rest => some (none, rest)

def scanExponent (input : List Char) : Option (Option Int × List Char) :=
  match input with
  | mark :: rest =>
      if mark = 'e' ∨ mark = 'E' then do
        let (negative, rest) :=
          match rest with
          | '+' :: rest => (false, rest)
          | rest => scanSign rest
        let (digits, rest) ← scanDigits rest
        let size : Int := digitsValue digits
        return (some (if negative then -size else size), rest)
      else some (none, input)
  | [] => some (none, input)

def scanNumeral (input : List Char) : Option (Numeral × List Char) := do
  let (negative, rest) := scanSign input
  let (whole, rest) ← scanWhole rest
  let (fraction, rest) ← scanFraction rest
  let (exponent, rest) ← scanExponent rest
  return ({ negative, whole, fraction, exponent }, rest)

namespace Numeral

def isWhole (numeral : Numeral) : Bool :=
  numeral.fraction.isNone && numeral.exponent.isNone

/-- Whole numbers are kept exactly as far as words hold them. -/
def isWord (numeral : Numeral) : Bool :=
  let size := digitsValue numeral.whole
  numeral.isWhole &&
    if numeral.negative then decide (0 < size ∧ size ≤ 0x8000000000000000)
    else decide (size < addressLimit)

def word? (numeral : Numeral) : Option Nat :=
  if numeral.isWord ∧ ¬ numeral.negative then some (digitsValue numeral.whole) else none

/-- Appends digits to `value` up to the first that makes it too large for a word, and gives back
the digits from there on. -/
def takeWord : (value : Nat) → (digits : List Char) → Nat × List Char
  | value, [] => (value, [])
  | value, digit :: rest =>
      let next := value * 10 + digitValue digit
      if next < addressLimit then takeWord next rest else (value, digit :: rest)

/-- The leading digits as a word, and the power of ten of the last of them. Whole digits that do
not fit count for their places, and decimals that do not fit are dropped. -/
def significand (numeral : Numeral) : Nat × Int :=
  let decimals := numeral.fraction.getD []
  let (whole, uncounted) := takeWord 0 numeral.whole
  let (value, dropped) := takeWord whole decimals
  let places : Int := (decimals.length : Int) - dropped.length
  (value, uncounted.length - places + numeral.exponent.getD 0)

/-- The significand as a double, scaled by its power of ten in double precision. -/
def double? (numeral : Numeral) : Option Binary.Magnitude :=
  let (value, power) := numeral.significand
  Binary.Double.scale? (Binary.Double.ofNat value) power

/-- A word rounds to a 32-bit float at once, any other number by way of its double. -/
def float32? (numeral : Numeral) : Option Float32 :=
  if numeral.isWord then
    some (Binary.toFloat32 numeral.negative (Binary.singleBits (digitsValue numeral.whole) 1))
  else do
    let double ← numeral.double?
    return Binary.toFloat32 numeral.negative (Binary.singleBits double.num double.den)

end Numeral

inductive Piece where
  | char (value : Char)
  | unit (code : Nat)
deriving DecidableEq, Repr

def hexDigit? (c : Char) : Option Nat :=
  if c.isDigit then some (c.toNat - '0'.toNat)
  else if 'a' ≤ c ∧ c ≤ 'f' then some (c.toNat - 'a'.toNat + 10)
  else if 'A' ≤ c ∧ c ≤ 'F' then some (c.toNat - 'A'.toNat + 10)
  else none

def hexUnit? (first second third fourth : Char) : Option Nat := do
  let a ← hexDigit? first
  let b ← hexDigit? second
  let c ← hexDigit? third
  let d ← hexDigit? fourth
  return ((a * 16 + b) * 16 + c) * 16 + d

/-- The character that a one-letter escape names. -/
def escaped? : Char → Option Char
  | '"' => some '"'
  | '\\' => some '\\'
  | '/' => some '/'
  | 'b' => some '\x08'
  | 'f' => some '\x0c'
  | 'n' => some '\n'
  | 'r' => some '\r'
  | 't' => some '\t'
  | _ => none

/-- Control characters stand in a text only as escapes. -/
def isControl (c : Char) : Bool :=
  decide (c.toNat < 0x20)

def scanPieces : List Char → Option (List Piece × List Char)
  | [] => none
  | '"' :: rest => some ([], rest)
  | '\\' :: 'u' :: first :: second :: third :: fourth :: rest => do
      let code ← hexUnit? first second third fourth
      let (pieces, rest) ← scanPieces rest
      return (.unit code :: pieces, rest)
  | '\\' :: letter :: rest => do
      let c ← escaped? letter
      let (pieces, rest) ← scanPieces rest
      return (.char c :: pieces, rest)
  | c :: rest =>
      if c = '\\' ∨ isControl c then none
      else do
        let (pieces, rest) ← scanPieces rest
        return (.char c :: pieces, rest)

def isHighSurrogate (code : Nat) : Bool :=
  decide (0xD800 ≤ code ∧ code < 0xDC00)

def isLowSurrogate (code : Nat) : Bool :=
  decide (0xDC00 ≤ code ∧ code < 0xE000)

/-- The characters of a text. A high surrogate needs the low one right after it, and no low one
stands alone. -/
def joinUnits : List Piece → Option (List Char)
  | [] => some []
  | .char c :: rest => (c :: ·) <$> joinUnits rest
  | .unit high :: .unit low :: rest =>
      if isHighSurrogate high then
        if isLowSurrogate low then
          (Char.ofNat (0x10000 + (high - 0xD800) * 0x400 + (low - 0xDC00)) :: ·) <$> joinUnits rest
        else none
      else if isLowSurrogate high then none
      else (Char.ofNat high :: ·) <$> joinUnits (.unit low :: rest)
  | .unit code :: rest =>
      if isHighSurrogate code ∨ isLowSurrogate code then none
      else (Char.ofNat code :: ·) <$> joinUnits rest

def string? (pieces : List Piece) : Option String :=
  String.ofList <$> joinUnits pieces

inductive Token where
  | openObject
  | closeObject
  | openArray
  | closeArray
  | colon
  | comma
  | null
  | bool (value : Bool)
  | number (numeral : Numeral)
  | text (pieces : List Piece)
deriving DecidableEq, Repr

def isSpace (c : Char) : Bool :=
  c = ' ' || c = '\t' || c = '\n' || c = '\r'

def skipWord : (word input : List Char) → Option (List Char)
  | [], rest => some rest
  | _ :: _, [] => none
  | expected :: word, c :: rest => if c = expected then skipWord word rest else none

def scanToken (first : Char) (rest : List Char) : Option (Token × List Char) :=
  match first with
  | '{' => some (.openObject, rest)
  | '}' => some (.closeObject, rest)
  | '[' => some (.openArray, rest)
  | ']' => some (.closeArray, rest)
  | ':' => some (.colon, rest)
  | ',' => some (.comma, rest)
  | 'n' => (Token.null, ·) <$> skipWord "ull".toList rest
  | 't' => (Token.bool true, ·) <$> skipWord "rue".toList rest
  | 'f' => (Token.bool false, ·) <$> skipWord "alse".toList rest
  | '"' => (scanPieces rest).map fun (pieces, rest) => (.text pieces, rest)
  | _ => (scanNumeral (first :: rest)).map fun (numeral, rest) => (.number numeral, rest)

/-- The tokens of `input`, at most `limit` characters and tokens long. -/
def scanTokens : (limit : Nat) → (input : List Char) → Option (List Token)
  | _, [] => some []
  | 0, _ :: _ => none
  | limit + 1, first :: rest =>
      if isSpace first then scanTokens limit rest
      else do
        let (token, rest) ← scanToken first rest
        (token :: ·) <$> scanTokens limit rest

/-- Every token takes a character, so no document has more tokens than characters. -/
def tokens? (document : String) : Option (List Token) :=
  scanTokens document.toList.length document.toList

end HdrGain.Json

namespace HdrGain

inductive Json where
  | null
  | bool (value : Bool)
  | number (numeral : Json.Numeral)
  | text (pieces : List Json.Piece)
  | array (items : List Json)
  | object (members : List (List Json.Piece × Json))

namespace Json

mutual

/-- The value that `input` starts with, and the tokens after it. -/
def readValue : (limit : Nat) → (input : List Token) → Option (Json × List Token)
  | 0, _ => none
  | limit + 1, input =>
      match input with
      | .null :: rest => some (.null, rest)
      | .bool value :: rest => some (.bool value, rest)
      | .number numeral :: rest => some (.number numeral, rest)
      | .text pieces :: rest => some (.text pieces, rest)
      | .openArray :: .closeArray :: rest => some (.array [], rest)
      | .openArray :: rest => do
          let (items, rest) ← readItems limit rest
          return (.array items, rest)
      | .openObject :: .closeObject :: rest => some (.object [], rest)
      | .openObject :: rest => do
          let (members, rest) ← readMembers limit rest
          return (.object members, rest)
      | _ => none

def readItems : (limit : Nat) → (input : List Token) → Option (List Json × List Token)
  | 0, _ => none
  | limit + 1, input => do
      let (item, rest) ← readValue limit input
      match rest with
      | .comma :: rest =>
          let (items, rest) ← readItems limit rest
          return (item :: items, rest)
      | .closeArray :: rest => return ([item], rest)
      | _ => none

def readMembers : (limit : Nat) → (input : List Token) →
    Option (List (List Piece × Json) × List Token)
  | 0, _ => none
  | limit + 1, input =>
      match input with
      | .text key :: .colon :: input => do
          let (value, rest) ← readValue limit input
          match rest with
          | .comma :: rest =>
              let (members, rest) ← readMembers limit rest
              return ((key, value) :: members, rest)
          | .closeObject :: rest => return ([(key, value)], rest)
          | _ => none
      | _ => none

end

/-- A document holds one value and nothing after it. Values nest no deeper than there are
tokens. -/
def parse? (document : String) : Option Json := do
  let input ← tokens? document
  match ← readValue input.length input with
  | (value, []) => return value
  | (_, _ :: _) => none

end Json

end HdrGain
