import HdrGain.Json

namespace HdrGain.Json

/-! # The grammar of documents

Which texts are documents, and of which values: the rules that a writer may rely on, said without
the scanner. White space may stand around every value, comma and colon, a number may be written in
several ways, and so may every character of a text. -/

def Blank (text : List Char) : Prop :=
  ∀ c ∈ text, c = ' ' ∨ c = '\t' ∨ c = '\n' ∨ c = '\r'

section Numbers

def IsDigits (text : List Char) : Prop :=
  text ≠ [] ∧ ∀ c ∈ text, c.isDigit = true

theorem isDigits_single {digit : Char} (isDigit : digit.isDigit = true) : IsDigits [digit] :=
  ⟨nofun, by simpa using isDigit⟩

/-- Only zero itself starts with a zero. -/
def IsWhole (text : List Char) : Prop :=
  IsDigits text ∧ (text.head? = some '0' → text = ['0'])

inductive SpellsFraction : Option (List Char) → List Char → Prop
  | absent : SpellsFraction none []
  | present {digits : List Char} (digital : IsDigits digits) :
      SpellsFraction (some digits) ('.' :: digits)

inductive SpellsExponent : Option Int → List Char → Prop
  | absent : SpellsExponent none []
  | unsigned {mark : Char} {digits : List Char} (marked : mark = 'e' ∨ mark = 'E')
      (digital : IsDigits digits) :
      SpellsExponent (some (digitsValue digits)) (mark :: digits)
  | positive {mark : Char} {digits : List Char} (marked : mark = 'e' ∨ mark = 'E')
      (digital : IsDigits digits) :
      SpellsExponent (some (digitsValue digits)) (mark :: '+' :: digits)
  | negative {mark : Char} {digits : List Char} (marked : mark = 'e' ∨ mark = 'E')
      (digital : IsDigits digits) :
      SpellsExponent (some (-digitsValue digits)) (mark :: '-' :: digits)

def signText (negative : Bool) : List Char :=
  if negative then ['-'] else []

inductive SpellsNumeral : Numeral → List Char → Prop
  | mk (negative : Bool) {whole : List Char} {fraction : Option (List Char)}
      {exponent : Option Int} {fractionText exponentText : List Char} (digital : IsWhole whole)
      (decimals : SpellsFraction fraction fractionText)
      (power : SpellsExponent exponent exponentText) :
      SpellsNumeral ⟨negative, whole, fraction, exponent⟩
        (signText negative ++ whole ++ fractionText ++ exponentText)

end Numbers

section Texts

/-- The characters that have an escape of one letter, after that letter. -/
def escapes : List (Char × Char) :=
  [('"', '"'), ('\\', '\\'), ('/', '/'), ('b', '\x08'), ('f', '\x0c'), ('n', '\n'), ('r', '\r'),
    ('t', '\t')]

def IsHex (digit : Char) (value : Nat) : Prop :=
  "0123456789abcdef".toList[value]? = some digit ∨ "0123456789ABCDEF".toList[value]? = some digit

inductive SpellsPiece : Piece → List Char → Prop
  | plain {c : Char} (unquoted : c ≠ '"') (unescaped : c ≠ '\\') (printable : 0x20 ≤ c.toNat) :
      SpellsPiece (.char c) [c]
  | escape {letter c : Char} (listed : (letter, c) ∈ escapes) :
      SpellsPiece (.char c) ['\\', letter]
  | unit {first second third fourth : Char} {a b c d : Nat} (highest : IsHex first a)
      (high : IsHex second b) (low : IsHex third c) (lowest : IsHex fourth d) :
      SpellsPiece (.unit (a * 0x1000 + b * 0x100 + c * 0x10 + d))
        ['\\', 'u', first, second, third, fourth]

inductive SpellsPieces : List Piece → List Char → Prop
  | nil : SpellsPieces [] []
  | cons {piece : Piece} {pieces : List Piece} {first rest : List Char}
      (spelled : SpellsPiece piece first) (others : SpellsPieces pieces rest) :
      SpellsPieces (piece :: pieces) (first ++ rest)

inductive Quotes : List Piece → List Char → Prop
  | mk {pieces : List Piece} {body : List Char} (spelled : SpellsPieces pieces body) :
      Quotes pieces ('"' :: (body ++ ['"']))

/-- The characters that pieces stand for. A character past the first 65536 has two units. -/
inductive Denotes : List Piece → List Char → Prop
  | nil : Denotes [] []
  | char {c : Char} {pieces : List Piece} {text : List Char} (others : Denotes pieces text) :
      Denotes (.char c :: pieces) (c :: text)
  | unit {c : Char} {pieces : List Piece} {text : List Char} (single : c.toNat < 0x10000)
      (others : Denotes pieces text) :
      Denotes (.unit c.toNat :: pieces) (c :: text)
  | pair {c : Char} {pieces : List Piece} {text : List Char} (double : 0x10000 ≤ c.toNat)
      (others : Denotes pieces text) :
      Denotes (.unit (0xD800 + (c.toNat - 0x10000) / 0x400) ::
        .unit (0xDC00 + (c.toNat - 0x10000) % 0x400) :: pieces) (c :: text)

end Texts

/-- The parts of a document: a value, and one with the white space around it; the values of an
array; a member of an object, and all of them. -/
inductive Phrase where
  | value (value : Json)
  | element (value : Json)
  | items (items : List Json)
  | member (key : List Piece) (value : Json)
  | members (members : List (List Piece × Json))

inductive Spells : Phrase → List Char → Prop
  | null : Spells (.value .null) ['n', 'u', 'l', 'l']
  | true : Spells (.value (.bool Bool.true)) ['t', 'r', 'u', 'e']
  | false : Spells (.value (.bool Bool.false)) ['f', 'a', 'l', 's', 'e']
  | number {numeral : Numeral} {text : List Char} (spelled : SpellsNumeral numeral text) :
      Spells (.value (.number numeral)) text
  | text {pieces : List Piece} {text : List Char} (quoted : Quotes pieces text) :
      Spells (.value (.text pieces)) text
  | emptyArray {space : List Char} (blank : Blank space) :
      Spells (.value (.array [])) ('[' :: (space ++ [']']))
  | array {items : List Json} {body : List Char} (spelled : Spells (.items items) body) :
      Spells (.value (.array items)) ('[' :: (body ++ [']']))
  | emptyObject {space : List Char} (blank : Blank space) :
      Spells (.value (.object [])) ('{' :: (space ++ ['}']))
  | object {members : List (List Piece × Json)} {body : List Char}
      (spelled : Spells (.members members) body) :
      Spells (.value (.object members)) ('{' :: (body ++ ['}']))
  | element {value : Json} {before text after : List Char} (blankBefore : Blank before)
      (spelled : Spells (.value value) text) (blankAfter : Blank after) :
      Spells (.element value) (before ++ (text ++ after))
  | lastItem {value : Json} {text : List Char} (spelled : Spells (.element value) text) :
      Spells (.items [value]) text
  | items {value : Json} {items : List Json} {text body : List Char}
      (spelled : Spells (.element value) text) (others : Spells (.items items) body) :
      Spells (.items (value :: items)) (text ++ ',' :: body)
  | member {key : List Piece} {value : Json} {before name after text : List Char}
      (blankBefore : Blank before) (quoted : Quotes key name) (blankAfter : Blank after)
      (spelled : Spells (.element value) text) :
      Spells (.member key value) (before ++ (name ++ (after ++ ':' :: text)))
  | lastMember {key : List Piece} {value : Json} {text : List Char}
      (spelled : Spells (.member key value) text) :
      Spells (.members [(key, value)]) text
  | members {key : List Piece} {value : Json} {members : List (List Piece × Json)}
      {text body : List Char} (spelled : Spells (.member key value) text)
      (others : Spells (.members members) body) :
      Spells (.members ((key, value) :: members)) (text ++ ',' :: body)

theorem blank_nil : Blank [] :=
  nofun

theorem Spells.close {value : Json} {text : List Char} (spelled : Spells (.value value) text) :
    Spells (.element value) text := by
  simpa using Spells.element blank_nil spelled blank_nil

theorem Spells.closeMember {key : List Piece} {value : Json} {name text : List Char}
    (quoted : Quotes key name) (spelled : Spells (.value value) text) :
    Spells (.member key value) (name ++ ':' :: text) :=
  .member blank_nil quoted blank_nil spelled.close

/-- The document is a text for the value and nothing else. -/
def IsDocument (value : Json) (document : String) : Prop :=
  Spells (.element value) document.toList

end HdrGain.Json
