import HdrGain.Proofs.Json.Grammar

namespace HdrGain.Json

section Numbers

variable {rest text digits : List Char}

/-- No numeral goes on into `rest`. -/
def EndsNumeral (rest : List Char) : Prop :=
  ∀ c, rest.head? = some c → c.isDigit = false ∧ c ≠ '.' ∧ c ≠ 'e' ∧ c ≠ 'E'

theorem endsNumeral_nil : EndsNumeral [] := by
  intro c first
  cases first

theorem endsNumeral_cons {c : Char} (digit : c.isDigit = false) (point : c ≠ '.') (small : c ≠ 'e')
    (large : c ≠ 'E') : EndsNumeral (c :: rest) := by
  intro c' first
  cases first
  exact ⟨digit, point, small, large⟩

theorem scanDigits_append (digital : IsDigits digits)
    (ends : ∀ c, rest.head? = some c → c.isDigit = false) :
    scanDigits (digits ++ rest) = some (digits, rest) := by
  obtain ⟨nonempty, all⟩ := digital
  have none : rest.takeWhile Char.isDigit = [] := by
    cases rest with
    | nil => rfl
    | cons c rest => rw [List.takeWhile_cons_of_neg (by simp [ends c rfl])]
  have kept : rest.dropWhile Char.isDigit = rest := by
    cases rest with
    | nil => rfl
    | cons c rest => rw [List.dropWhile_cons_of_neg (by simp [ends c rfl])]
  unfold scanDigits
  rw [List.takeWhile_append_of_pos all, List.dropWhile_append_of_pos all, none, kept,
    List.append_nil]
  cases digits with
  | nil => exact absurd rfl nonempty
  | cons digit digits => rfl

theorem scanWhole_append (digital : IsWhole digits)
    (ends : ∀ c, rest.head? = some c → c.isDigit = false) :
    scanWhole (digits ++ rest) = some (digits, rest) := by
  have scanned := scanDigits_append digital.1 ends
  unfold scanWhole
  rw [scanned]
  simp only [bind, Option.bind]
  split
  · have alone := digital.2 rfl
    cases alone
  · rfl

theorem scanFraction_append {fraction : Option (List Char)}
    (spelled : SpellsFraction fraction text)
    (ends : ∀ c, rest.head? = some c → c.isDigit = false ∧ c ≠ '.') :
    scanFraction (text ++ rest) = some (fraction, rest) := by
  cases spelled with
  | absent =>
      rw [List.nil_append]
      unfold scanFraction
      split
      · exact absurd rfl (ends '.' rfl).2
      · rfl
  | present digital =>
      rw [List.cons_append, scanFraction, scanDigits_append digital fun c first => (ends c first).1]
      rfl

/-- The sign of a power of ten, which may be a plus. -/
def scanPowerSign : List Char → Bool × List Char
  | '+' :: rest => (false, rest)
  | rest => scanSign rest

theorem scanPowerSign_digits (digital : IsDigits digits) :
    scanPowerSign (digits ++ rest) = (false, digits ++ rest) := by
  cases digits with
  | nil => exact absurd rfl digital.1
  | cons digit digits =>
      have isDigit : digit.isDigit = true := digital.2 digit List.mem_cons_self
      unfold scanPowerSign
      split
      · rename_i plus
        cases plus
        cases isDigit
      · unfold scanSign
        split
        · rename_i minus
          cases minus
          cases isDigit
        · rfl

theorem scanExponent_mark {mark : Char} (marked : mark = 'e' ∨ mark = 'E') :
    scanExponent (mark :: text) =
      (scanDigits (scanPowerSign text).2).map fun (digits, rest) =>
        (some (if (scanPowerSign text).1 then -(digitsValue digits : Int) else digitsValue digits),
          rest) := by
  simp only [scanExponent, if_pos marked]
  change ((scanDigits (scanPowerSign text).2).bind fun _ => _) = _
  cases scanDigits (scanPowerSign text).2 <;> rfl

theorem scanExponent_append {exponent : Option Int} (spelled : SpellsExponent exponent text)
    (ends : EndsNumeral rest) : scanExponent (text ++ rest) = some (exponent, rest) := by
  have stop : ∀ c, rest.head? = some c → c.isDigit = false := fun c first => (ends c first).1
  cases spelled with
  | absent =>
      cases rest with
      | nil => rfl
      | cons c rest =>
          obtain ⟨_, _, small, large⟩ := ends c rfl
          simp [scanExponent, small, large]
  | unsigned marked digital =>
      rw [List.cons_append, scanExponent_mark marked, scanPowerSign_digits digital,
        scanDigits_append digital stop]
      rfl
  | positive marked digital =>
      rw [List.cons_append, scanExponent_mark marked, List.cons_append, scanPowerSign,
        scanDigits_append digital stop]
      rfl
  | negative marked digital =>
      rw [List.cons_append, scanExponent_mark marked, List.cons_append]
      change (scanDigits (_ ++ rest)).map _ = _
      rw [scanDigits_append digital stop]
      rfl

theorem scanSign_append {negative : Bool} (ends : rest.head? ≠ some '-') :
    scanSign (signText negative ++ rest) = (negative, rest) := by
  cases negative with
  | true => rfl
  | false =>
      change scanSign rest = _
      unfold scanSign
      split
      · exact absurd rfl ends
      · rfl

theorem scanNumeral_append {numeral : Numeral} (spelled : SpellsNumeral numeral text)
    (ends : EndsNumeral rest) : scanNumeral (text ++ rest) = some (numeral, rest) := by
  cases spelled with
  | @mk negative whole fraction exponent fractionText exponentText digital decimals power =>
  have powerEnds : ∀ c, (exponentText ++ rest).head? = some c → c.isDigit = false ∧ c ≠ '.' := by
    intro c first
    cases power with
    | absent =>
        obtain ⟨digit, point, _⟩ := ends c first
        exact ⟨digit, point⟩
    | unsigned marked _ | positive marked _ | negative marked _ =>
        cases first
        rcases marked with rfl | rfl <;> decide
  have decimalsEnd : ∀ c, (fractionText ++ (exponentText ++ rest)).head? = some c →
      c.isDigit = false := by
    intro c first
    cases decimals with
    | absent => exact (powerEnds c first).1
    | present _ =>
        cases first
        rfl
  have unsigned : (whole ++ (fractionText ++ (exponentText ++ rest))).head? ≠ some '-' := by
    obtain ⟨⟨nonempty, all⟩, _⟩ := digital
    cases whole with
    | nil => exact absurd rfl nonempty
    | cons digit digits =>
        intro minus
        cases minus
        cases all '-' List.mem_cons_self
  simp only [List.append_assoc, scanNumeral, scanSign_append unsigned,
    scanWhole_append digital decimalsEnd, scanFraction_append decimals powerEnds,
    scanExponent_append power ends, Option.bind_eq_bind, Option.bind_some]
  rfl

end Numbers

section Texts

theorem hexDigit?_eq {digit : Char} {value : Nat} (hex : IsHex digit value) :
    hexDigit? digit = some value := by
  unfold IsHex at hex
  match value with
  | 0 | 1 | 2 | 3 | 4 | 5 | 6 | 7 | 8 | 9 | 10 | 11 | 12 | 13 | 14 | 15 =>
      rcases hex with lower | upper
      · cases lower
        rfl
      · cases upper
        rfl
  | value + 16 =>
      rcases hex with lower | upper
      · cases lower
      · cases upper

theorem escaped?_eq {letter c : Char} (listed : (letter, c) ∈ escapes) :
    letter ≠ 'u' ∧ escaped? letter = some c := by
  simp only [escapes, List.mem_cons, Prod.mk.injEq, List.not_mem_nil, or_false] at listed
  rcases listed with ⟨rfl, rfl⟩ | ⟨rfl, rfl⟩ | ⟨rfl, rfl⟩ | ⟨rfl, rfl⟩ | ⟨rfl, rfl⟩ |
    ⟨rfl, rfl⟩ | ⟨rfl, rfl⟩ | ⟨rfl, rfl⟩ <;> exact ⟨by decide, rfl⟩

/-- The scanner takes the spelling of a piece first. -/
theorem scanPieces_cons {piece : Piece} {text rest : List Char}
    (spelled : SpellsPiece piece text) :
    scanPieces (text ++ rest) =
      (scanPieces rest).map fun (pieces, rest) => (piece :: pieces, rest) := by
  cases spelled with
  | @plain c unquoted unescaped printable =>
      have written : ¬ (c = '\\' ∨ isControl c = true) := by
        simp only [isControl, decide_eq_true_eq, unescaped, false_or]
        omega
      rw [List.singleton_append, scanPieces, if_neg written]
      · cases scanPieces rest <;> rfl
      · exact unquoted
      · rintro _ _ _ _ _ rfl
        exact absurd rfl unescaped
      · rintro _ _ rfl
        exact absurd rfl unescaped
  | @escape letter c listed =>
      obtain ⟨notUnit, escaped⟩ := escaped?_eq listed
      change scanPieces ('\\' :: letter :: rest) = _
      rw [scanPieces, escaped]
      · cases scanPieces rest <;> rfl
      · rintro _ _ _ _ _ rfl
        exact absurd rfl notUnit
  | @unit first second third fourth a b c d highest high low lowest =>
      have code : hexUnit? first second third fourth =
          some (a * 0x1000 + b * 0x100 + c * 0x10 + d) := by
        simp only [hexUnit?, hexDigit?_eq highest, hexDigit?_eq high, hexDigit?_eq low,
          hexDigit?_eq lowest, Option.bind_eq_bind, Option.bind_some]
        exact congrArg some (by omega)
      change scanPieces ('\\' :: 'u' :: first :: second :: third :: fourth :: rest) = _
      rw [scanPieces, code]
      cases scanPieces rest <;> rfl

theorem scanPieces_append {pieces : List Piece} {body rest : List Char}
    (spelled : SpellsPieces pieces body) :
    scanPieces (body ++ '"' :: rest) = some (pieces, rest) := by
  induction spelled with
  | nil => rfl
  | cons spelled _ ih =>
      rw [List.append_assoc, scanPieces_cons spelled, ih]
      rfl

end Texts

section Tokens

/-- Any limit that leaves room for the characters finds the tokens. -/
def Scanned (input : List Char) (tokens : List Token) : Prop :=
  ∀ limit, input.length ≤ limit → scanTokens limit input = some tokens

variable {rest text : List Char} {tokens : List Token}

theorem scanned_nil : Scanned [] [] := by
  intro limit _
  cases limit <;> rfl

theorem Scanned.blank {space : List Char} (blank : Blank space) (scanned : Scanned rest tokens) :
    Scanned (space ++ rest) tokens := by
  induction space with
  | nil => exact scanned
  | cons c space ih =>
      intro limit room
      have isBlank : isSpace c = true := by
        have named := blank c List.mem_cons_self
        simpa [isSpace, or_assoc] using named
      have others := ih fun c member => blank c (List.mem_cons_of_mem _ member)
      cases limit with
      | zero => cases room
      | succ limit =>
          rw [List.cons_append, scanTokens, if_pos isBlank]
          exact others limit (Nat.le_of_succ_le_succ room)

theorem Scanned.token {first : Char} {token : Token} (skipped : List Char)
    (dark : isSpace first = false) (taken : scanToken first (skipped ++ rest) = some (token, rest))
    (others : Scanned rest tokens) : Scanned (first :: (skipped ++ rest)) (token :: tokens) := by
  intro limit room
  cases limit with
  | zero => cases room
  | succ limit =>
      have fits : rest.length ≤ limit := by
        rw [List.length_cons, List.length_append] at room
        omega
      rw [scanTokens, if_neg (by simp [dark]), taken]
      simp only [Option.bind_eq_bind, Option.bind_some, others limit fits]
      rfl

theorem Scanned.quoted {pieces : List Piece} (quoted : Quotes pieces text)
    (others : Scanned rest tokens) : Scanned (text ++ rest) (.text pieces :: tokens) := by
  cases quoted with
  | @mk body spelled =>
      have scanned : scanPieces (body ++ '"' :: rest) = some (pieces, rest) :=
        scanPieces_append spelled
      rw [List.append_cons] at scanned
      refine Scanned.token (body ++ ['"']) rfl ?_ others
      rw [scanToken, scanned]
      rfl

theorem scanToken_numeral {first : Char} (text : List Char)
    (leading : first.isDigit = true ∨ first = '-') :
    isSpace first = false ∧
      scanToken first text =
        (scanNumeral (first :: text)).map fun (numeral, rest) => (.number numeral, rest) := by
  have apart : ∀ c, c.isDigit = false → c ≠ '-' → first ≠ c := by
    rintro c digit minus rfl
    rcases leading with isDigit | isMinus
    · rw [isDigit] at digit
      cases digit
    · exact minus isMinus
  constructor
  · simp [isSpace, apart ' ' rfl (by decide), apart '\t' rfl (by decide),
      apart '\n' rfl (by decide), apart '\r' rfl (by decide)]
  · unfold scanToken
    split
    case h_11 => rfl
    all_goals exact absurd rfl (apart _ rfl (by decide))

theorem leading_of_spellsNumeral {numeral : Numeral} (spelled : SpellsNumeral numeral text) :
    ∃ first more, text = first :: more ∧ (first.isDigit = true ∨ first = '-') := by
  cases spelled with
  | @mk negative whole _ _ _ _ digital _ _ =>
      obtain ⟨⟨nonempty, all⟩, _⟩ := digital
      cases negative with
      | true => exact ⟨'-', _, rfl, .inr rfl⟩
      | false =>
          cases whole with
          | nil => exact absurd rfl nonempty
          | cons digit digits => exact ⟨digit, _, rfl, .inl (all digit List.mem_cons_self)⟩

theorem Scanned.number {numeral : Numeral} (spelled : SpellsNumeral numeral text)
    (ends : EndsNumeral rest) (others : Scanned rest tokens) :
    Scanned (text ++ rest) (.number numeral :: tokens) := by
  have scanned := scanNumeral_append spelled ends
  obtain ⟨first, more, rfl, leading⟩ := leading_of_spellsNumeral spelled
  obtain ⟨dark, taken⟩ := scanToken_numeral (more ++ rest) leading
  rw [List.cons_append] at scanned
  refine Scanned.token more dark ?_ others
  rw [taken, scanned]
  rfl

end Tokens

end HdrGain.Json
