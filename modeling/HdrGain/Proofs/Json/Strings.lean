import HdrGain.Proofs.Json.Grammar

namespace HdrGain.Json

variable {pieces : List Piece} {text : List Char}

theorem not_surrogate (c : Char) : c.toNat < 0xD800 ∨ 0xDFFF < c.toNat ∧ c.toNat < 0x110000 :=
  c.valid

theorem toNat_ofNat {code : Nat} (valid : code < 0xD800 ∨ 0xDFFF < code ∧ code < 0x110000) :
    (Char.ofNat code).toNat = code := by
  rw [Char.ofNat, dif_pos valid]
  rfl

section Joining

theorem joinUnits_unit {code : Nat} (high : isHighSurrogate code = false)
    (low : isLowSurrogate code = false) :
    joinUnits (.unit code :: pieces) = (Char.ofNat code :: ·) <$> joinUnits pieces := by
  match pieces with
  | [] | .char _ :: _ => simp [joinUnits, high, low]
  | .unit _ :: _ => simp [joinUnits, high, low]

theorem joinUnits_of_denotes (denoted : Denotes pieces text) : joinUnits pieces = some text := by
  induction denoted with
  | nil => rfl
  | char _ ih => rw [joinUnits, ih]; rfl
  | @unit c _ _ single _ ih =>
      have valid := not_surrogate c
      rw [joinUnits_unit, ih, Char.ofNat_toNat]
      · rfl
      · simp only [isHighSurrogate, decide_eq_false_iff_not]
        omega
      · simp only [isLowSurrogate, decide_eq_false_iff_not]
        omega
  | @pair c _ _ double _ ih =>
      have valid := not_surrogate c
      have high : isHighSurrogate (0xD800 + (c.toNat - 0x10000) / 0x400) = true := by
        simp only [isHighSurrogate, decide_eq_true_eq]
        omega
      have low : isLowSurrogate (0xDC00 + (c.toNat - 0x10000) % 0x400) = true := by
        simp only [isLowSurrogate, decide_eq_true_eq]
        omega
      have joined : 0x10000 + (0xD800 + (c.toNat - 0x10000) / 0x400 - 0xD800) * 0x400 +
          (0xDC00 + (c.toNat - 0x10000) % 0x400 - 0xDC00) = c.toNat := by omega
      rw [joinUnits, if_pos high, if_pos low, joined, Char.ofNat_toNat, ih]
      rfl

/-- Four hexadecimal digits name no larger unit. -/
def Sized (pieces : List Piece) : Prop :=
  ∀ code, .unit code ∈ pieces → code < 0x10000

theorem sized_cons {piece : Piece} :
    Sized (piece :: pieces) ↔ (∀ code, piece = .unit code → code < 0x10000) ∧ Sized pieces := by
  simp only [Sized, List.mem_cons]
  grind

theorem Denotes.ofUnit {code : Nat} (small : code < 0x10000)
    (single : ¬ isHighSurrogate code = true ∧ ¬ isLowSurrogate code = true)
    (others : Denotes pieces text) :
    Denotes (.unit code :: pieces) (Char.ofNat code :: text) := by
  simp only [isHighSurrogate, isLowSurrogate, decide_eq_true_eq] at single
  have value : (Char.ofNat code).toNat = code := toNat_ofNat (by omega)
  have single : (Char.ofNat code).toNat < 0x10000 := by omega
  have denoted := others.unit single
  rwa [value] at denoted

theorem Denotes.ofPair {high low : Nat} (isHigh : isHighSurrogate high = true)
    (isLow : isLowSurrogate low = true) (others : Denotes pieces text) :
    Denotes (.unit high :: .unit low :: pieces)
      (Char.ofNat (0x10000 + (high - 0xD800) * 0x400 + (low - 0xDC00)) :: text) := by
  simp only [isHighSurrogate, isLowSurrogate, decide_eq_true_eq] at isHigh isLow
  generalize found : 0x10000 + (high - 0xD800) * 0x400 + (low - 0xDC00) = code
  have value : (Char.ofNat code).toNat = code := toNat_ofNat (by omega)
  have large : 0x10000 ≤ (Char.ofNat code).toNat := by omega
  have denoted := others.pair large
  have upper : 0xD800 + (code - 0x10000) / 0x400 = high := by omega
  have lower : 0xDC00 + (code - 0x10000) % 0x400 = low := by omega
  rwa [value, upper, lower] at denoted

theorem denotes_of_joinUnits (sized : Sized pieces) (joined : joinUnits pieces = some text) :
    Denotes pieces text := by
  fun_induction joinUnits pieces generalizing text with
  | case1 =>
      cases joined
      exact .nil
  | case2 c rest ih =>
      obtain ⟨text, found, rfl⟩ := Option.map_eq_some_iff.mp joined
      exact (ih (sized_cons.mp sized).2 found).char
  | case3 high low rest isHigh isLow ih =>
      obtain ⟨text, found, rfl⟩ := Option.map_eq_some_iff.mp joined
      have others := (sized_cons.mp (sized_cons.mp sized).2).2
      exact .ofPair isHigh isLow (ih others found)
  | case4 | case5 | case7 => cases joined
  | case6 high low rest notHigh notLow ih =>
      obtain ⟨text, found, rfl⟩ := Option.map_eq_some_iff.mp joined
      obtain ⟨small, others⟩ := sized_cons.mp sized
      exact .ofUnit (small high rfl) ⟨notHigh, notLow⟩ (ih others found)
  | case8 code rest _ notSurrogate ih =>
      obtain ⟨text, found, rfl⟩ := Option.map_eq_some_iff.mp joined
      obtain ⟨small, others⟩ := sized_cons.mp sized
      exact .ofUnit (small code rfl) (not_or.mp notSurrogate) (ih others found)

theorem string?_eq_some_iff (sized : Sized pieces) {string : String} :
    string? pieces = some string ↔ Denotes pieces string.toList := by
  constructor
  · intro found
    obtain ⟨text, joined, rfl⟩ := Option.map_eq_some_iff.mp found
    rw [String.toList_ofList]
    exact denotes_of_joinUnits sized joined
  · intro denoted
    rw [string?, joinUnits_of_denotes denoted]
    exact congrArg some String.ofList_toList

end Joining

section Spelled

theorem isHex_lt {digit : Char} {value : Nat} (hex : IsHex digit value) : value < 16 := by
  unfold IsHex at hex
  rcases hex with lower | upper
  · exact (List.getElem?_eq_some_iff.mp lower).1
  · exact (List.getElem?_eq_some_iff.mp upper).1

theorem SpellsPieces.sized (spelled : SpellsPieces pieces text) : Sized pieces := by
  induction spelled with
  | nil => simp [Sized]
  | cons spelled _ ih =>
      refine sized_cons.mpr ⟨?_, ih⟩
      rintro code rfl
      cases spelled with
      | unit highest high low lowest =>
          have := isHex_lt highest
          have := isHex_lt high
          have := isHex_lt low
          have := isHex_lt lowest
          omega

theorem Quotes.sized (quoted : Quotes pieces text) : Sized pieces := by
  cases quoted with
  | mk spelled => exact spelled.sized

end Spelled

section Plain

/-- The pieces of a text that is written without escapes. -/
def plain (text : List Char) : List Piece :=
  text.map .char

theorem denotes_plain : Denotes (plain text) text := by
  induction text with
  | nil => exact .nil
  | cons c text ih => exact .char ih

/-- Characters that stand for themselves. -/
def isLegible (c : Char) : Bool :=
  c != '"' && c != '\\' && decide (0x20 ≤ c.toNat)

theorem spellsPieces_plain (legible : text.all isLegible = true) :
    SpellsPieces (plain text) text := by
  induction text with
  | nil => exact .nil
  | cons c text ih =>
      rw [List.all_cons, Bool.and_eq_true] at legible
      obtain ⟨first, others⟩ := legible
      simp only [isLegible, Bool.and_eq_true, bne_iff_ne, decide_eq_true_eq] at first
      obtain ⟨⟨unquoted, unescaped⟩, printable⟩ := first
      exact .cons (.plain unquoted unescaped printable) (ih others)

end Plain

end HdrGain.Json
