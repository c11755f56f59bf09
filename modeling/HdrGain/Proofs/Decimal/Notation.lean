import HdrGain.Proofs.Decimal.Accuracy
import HdrGain.Proofs.Json.Grammar
import HdrGain.Proofs.Json.Significands
import HdrGain.Proofs.Scalar.Comparison

namespace HdrGain.Decimal

open Json

section Naturals

variable {digits : List Char}

theorem digitsValue_toDigits (number : Nat) : digitsValue (Nat.toDigits 10 number) = number := by
  have read := Nat.ofDigitChars_ten_toDigits (n := number)
  rw [Nat.ofDigitChars_eq_foldl] at read
  simpa only [digitsValue, digitValue, Nat.mul_comm] using read

theorem isDigits_toDigits (number : Nat) : IsDigits (Nat.toDigits 10 number) :=
  ⟨Nat.toDigits_ne_nil, fun _ => Nat.isDigit_of_mem_toDigits (by decide) (by decide)⟩

theorem head?_toDigits {number : Nat} (positive : 0 < number) :
    (Nat.toDigits 10 number).head? ≠ some '0' := by
  induction number using Nat.strongRecOn with
  | ind number ih =>
      by_cases single : number < 10
      · rw [Nat.toDigits_of_lt_base single]
        match number with
        | 1 | 2 | 3 | 4 | 5 | 6 | 7 | 8 | 9 => decide
      · have others := ih (number / 10) (by omega) (by omega)
        rw [Nat.toDigits_of_base_le (by decide) (Nat.le_of_not_lt single)]
        cases first : Nat.toDigits 10 (number / 10) with
        | nil => exact absurd first Nat.toDigits_ne_nil
        | cons digit digits =>
            rw [first] at others
            exact others

theorem isWhole_of_head? (digital : IsDigits digits) (leads : digits.head? ≠ some '0') :
    IsWhole digits :=
  ⟨digital, fun zero => absurd zero leads⟩

theorem isWhole_toDigits (number : Nat) : IsWhole (Nat.toDigits 10 number) := by
  rcases Nat.eq_zero_or_pos number with rfl | positive
  · exact ⟨isDigits_toDigits 0, fun _ => rfl⟩
  · exact isWhole_of_head? (isDigits_toDigits number) (head?_toDigits positive)

end Naturals

section Styles

/-- The numeral shows a point or an exponent, and stands for the number or, where the style writes
it plainly, for the number with its zeros and one more after the point. -/
structure Stands (style : Style) (numeral : Numeral) (negative : Bool) (number : Digits) :
    Prop where
  signed : numeral.negative = negative
  broken : numeral.isWhole = false
  decimal : numeral.decimal = number ∨
    (style.plain ((Nat.toDigits 10 number.digits).length + number.power) = true ∧
      0 ≤ number.power ∧
      numeral.decimal = ⟨number.digits * 10 ^ number.power.toNat * 10, -1⟩)

variable {style : Style} {digits more : List Char} {point : Int} {negative : Bool} {count : Nat}

theorem isDigits_append (digital : IsDigits digits) (others : ∀ c ∈ more, c.isDigit = true) :
    IsDigits (digits ++ more) := by
  refine ⟨fun empty => digital.1 (List.append_eq_nil_iff.mp empty).1, fun c inside => ?_⟩
  rcases List.mem_append.mp inside with left | right
  · exact digital.2 c left
  · exact others c right

theorem isDigit_of_mem_zeros : ∀ c ∈ (Style.zeros count).toList, c.isDigit = true := by
  intro c inside
  rw [Style.zeros, String.toList_ofList] at inside
  rw [List.eq_of_mem_replicate inside]
  rfl

theorem spellsExponent_toString (mark : Char) (marked : mark = 'e' ∨ mark = 'E') (power : Int) :
    SpellsExponent (some power) (mark :: (toString power).toList) := by
  cases power with
  | ofNat power =>
      have spelled := SpellsExponent.unsigned marked (isDigits_toDigits power)
      rw [digitsValue_toDigits] at spelled
      change SpellsExponent _ (mark :: power.repr.toList)
      rwa [Nat.toList_repr]
  | negSucc power =>
      have spelled := SpellsExponent.negative marked (isDigits_toDigits power.succ)
      rw [digitsValue_toDigits] at spelled
      change SpellsExponent _ (mark :: ("-" ++ power.succ.repr).toList)
      rw [String.toList_append, Nat.toList_repr]
      exact spelled

theorem exists_spells_writeExponent (digital : IsDigits digits) (leads : digits.head? ≠ some '0') :
    ∃ numeral, SpellsNumeral numeral
        (signText negative ++ (Style.writeExponent digits point).toList) ∧
      numeral.negative = negative ∧ numeral.isWhole = false ∧
      numeral.decimal = ⟨digitsValue digits, point - digits.length⟩ := by
  obtain ⟨nonempty, all⟩ := digital
  have power := spellsExponent_toString 'e' (.inl rfl) (point - 1)
  cases digits with
  | nil => exact absurd rfl nonempty
  | cons digit digits =>
      have first : IsWhole [digit] :=
        isWhole_of_head? (isDigits_single (all digit List.mem_cons_self)) leads
      cases digits with
      | nil =>
          have spelled := SpellsNumeral.mk negative first .absent power
          refine ⟨_, by simpa [Style.writeExponent] using spelled, rfl, rfl, ?_⟩
          simp [Numeral.decimal]
      | cons next digits =>
          have others : IsDigits (next :: digits) :=
            ⟨List.cons_ne_nil _ _, fun c inside => all c (List.mem_cons_of_mem _ inside)⟩
          have spelled := SpellsNumeral.mk negative first (.present others) power
          refine ⟨_, by simpa [Style.writeExponent] using spelled, rfl, rfl, ?_⟩
          simp [Numeral.decimal]
          omega

theorem exists_spells_writePlain (mark : style.wholeMark = ".0") (digital : IsDigits digits)
    (leads : digits.head? ≠ some '0') :
    ∃ numeral, SpellsNumeral numeral
        (signText negative ++ (style.writePlain digits point).toList) ∧
      numeral.negative = negative ∧ numeral.isWhole = false ∧
      (numeral.decimal = ⟨digitsValue digits, point - digits.length⟩ ∨
        (0 ≤ point - digits.length ∧ numeral.decimal =
          ⟨digitsValue digits * 10 ^ (point - digits.length).toNat * 10, -1⟩)) := by
  unfold Style.writePlain
  have zero : IsDigits ['0'] := isDigits_single rfl
  split
  · rename_i long
    have whole : IsWhole (digits ++ (Style.zeros (point - digits.length).toNat).toList) := by
      refine isWhole_of_head? (isDigits_append digital isDigit_of_mem_zeros) ?_
      cases digits with
      | nil => exact absurd rfl digital.1
      | cons digit digits => exact leads
    have spelled := SpellsNumeral.mk negative whole (.present zero) .absent
    refine ⟨⟨negative, digits ++ (Style.zeros (point - digits.length).toNat).toList, some ['0'],
      none⟩, by simpa [mark] using spelled, rfl, rfl, .inr ⟨by omega, ?_⟩⟩
    have one := digitsValue_append_zeros digits ((point - digits.length).toNat + 1)
    rw [List.replicate_succ', ← List.append_assoc, Nat.pow_succ, ← Nat.mul_assoc] at one
    rw [Numeral.decimal, Style.zeros, String.toList_ofList, Option.getD_some, one]
    rfl
  · split
    · rename_i short inside
      have taken : IsWhole (digits.take point.toNat) := by
        refine isWhole_of_head? ⟨?_, fun c inside => digital.2 c (List.mem_of_mem_take inside)⟩ ?_
        · simp only [ne_eq, List.take_eq_nil_iff, not_or]
          exact ⟨by omega, digital.1⟩
        · rwa [List.head?_take, if_neg (by omega)]
      have dropped : IsDigits (digits.drop point.toNat) := by
        refine ⟨?_, fun c inside => digital.2 c (List.mem_of_mem_drop inside)⟩
        rw [ne_eq, List.drop_eq_nil_iff]
        omega
      have spelled := SpellsNumeral.mk negative taken (.present dropped) .absent
      refine ⟨_, by simpa using spelled, rfl, rfl, .inl ?_⟩
      simp [Numeral.decimal]
      omega
    · have whole : IsWhole ['0'] := ⟨zero, fun _ => rfl⟩
      have places : IsDigits ((Style.zeros (-point).toNat).toList ++ digits) := by
        refine ⟨fun empty => digital.1 (List.append_eq_nil_iff.mp empty).2, fun c inside => ?_⟩
        rcases List.mem_append.mp inside with left | right
        · exact isDigit_of_mem_zeros c left
        · exact digital.2 c right
      have spelled := SpellsNumeral.mk negative whole (.present places) .absent
      refine ⟨⟨negative, ['0'], some ((Style.zeros (-point).toNat).toList ++ digits), none⟩,
        by simpa using spelled, rfl, rfl, .inl ?_⟩
      have zeros := digitsValue_zeros_append ((-point).toNat + 1) digits
      rw [List.replicate_succ, List.cons_append] at zeros
      rw [Numeral.decimal, Style.zeros, String.toList_ofList, Option.getD_some, Option.getD_none,
        List.singleton_append, zeros, List.length_append, List.length_replicate]
      refine congrArg (Digits.mk _) ?_
      omega

theorem exists_spells_writeDigits (mark : style.wholeMark = ".0") {number : Digits}
    (positive : 0 < number.digits) :
    ∃ numeral, SpellsNumeral numeral
        (signText negative ++ (style.writeDigits number).toList) ∧
      Stands style numeral negative number := by
  have leads := head?_toDigits positive
  have digital := isDigits_toDigits number.digits
  have value := digitsValue_toDigits number.digits
  have power : (Nat.toDigits 10 number.digits).length + number.power -
      (Nat.toDigits 10 number.digits).length = number.power := by omega
  unfold Style.writeDigits
  dsimp only
  split
  · rename_i plain
    obtain ⟨numeral, spelled, signed, broken, decimal⟩ :=
      exists_spells_writePlain mark digital leads
    rw [value, power] at decimal
    exact ⟨numeral, spelled, signed, broken, decimal.imp_right fun whole => ⟨plain, whole⟩⟩
  · obtain ⟨numeral, spelled, signed, broken, decimal⟩ :=
      exists_spells_writeExponent digital leads
    rw [value, power] at decimal
    exact ⟨numeral, spelled, signed, broken, .inl decimal⟩

end Styles

section Floats

variable {style : Style} {value : Float32} {negative : Bool} {rounding : Rounding}

theorem read_of_finite (finite : value.isFinite = true) :
    (∃ negative, Binary.read value = .zero negative) ∨
      ∃ negative rounding, Binary.read value = .finite negative rounding ∧
        0 < rounding.mantissa := by
  have exponent : ¬ value.toBits.toNat % 0x80000000 / 0x800000 = 255 := by
    rw [Rounding.exponent_eq_iff, finite]
    exact nofun
  unfold Binary.read Binary.readMagnitude
  dsimp only
  rw [if_neg exponent]
  split
  · split
    · exact .inl ⟨_, rfl⟩
    · exact .inr ⟨_, _, rfl, by dsimp only; omega⟩
  · exact .inr ⟨_, _, rfl, by dsimp only; omega⟩

theorem toList_sign (negative : Bool) : (Style.sign negative).toList = signText negative := by
  cases negative <;> rfl

/-- What is written for a zero is a numeral of zeros. -/
theorem spells_write_zero (mark : style.wholeMark = ".0")
    (read : Binary.read value = .zero negative) :
    SpellsNumeral ⟨negative, ['0'], some ['0'], none⟩ (style.write value).toList := by
  have zero : IsDigits ['0'] := isDigits_single rfl
  have spelled := SpellsNumeral.mk negative ⟨zero, fun _ => rfl⟩ (.present zero) .absent
  rw [Style.write, read]
  simpa [mark, toList_sign] using spelled

/-- What is written for any other finite float stands for its shortest decimal. -/
theorem exists_spells_write (mark : style.wholeMark = ".0")
    (read : Binary.read value = .finite negative rounding) (positive : 0 < rounding.mantissa) :
    ∃ numeral, SpellsNumeral numeral (style.write value).toList ∧
      Stands style numeral negative (shortest style.tie rounding) := by
  rw [Style.write, read]
  dsimp only
  rw [String.toList_append, toList_sign]
  exact exists_spells_writeDigits mark
    (digits_pos_of_contains positive (contains_shortest _ positive))

theorem write_of_not_finite (style : Style) (infinite : value.isFinite = false) :
    style.write value = style.notANumber ∨
      ∃ negative, style.write value = style.infinite negative := by
  unfold Style.write Binary.read Binary.readMagnitude
  dsimp only
  rw [if_pos (Rounding.exponent_eq_iff.mpr infinite)]
  split
  · rename_i read
    split at read <;> cases read
    exact .inl rfl
  · rename_i read
    split at read <;> cases read
    exact .inr ⟨_, rfl⟩
  · rename_i read
    split at read <;> cases read
  · rename_i read
    split at read <;> cases read

end Floats

end HdrGain.Decimal

namespace HdrGain.Decimal

open Json HdrGain.Binary

section Words

variable {style : Style} {numeral : Numeral} {negative : Bool} {rounding : Rounding}

/-- Digits that end before the fourteenth place before the point leave room for one place behind
it. -/
theorem tenths_fit {number : Digits} (whole : 0 ≤ number.power)
    (short : (Nat.toDigits 10 number.digits).length + number.power ≤ 14) :
    number.digits * 10 ^ number.power.toNat * 10 < 2 ^ 53 := by
  have some : 0 < (Nat.toDigits 10 number.digits).length :=
    List.length_pos_of_ne_nil Nat.toDigits_ne_nil
  have digits := (Nat.length_toDigits_le_iff (by decide) some).mp (Nat.le_refl _)
  calc number.digits * 10 ^ number.power.toNat * 10
      ≤ 10 ^ (Nat.toDigits 10 number.digits).length * 10 ^ number.power.toNat * 10 := by gcongr
    _ = 10 ^ ((Nat.toDigits 10 number.digits).length + number.power.toNat + 1) := by
        rw [Nat.pow_succ, Nat.pow_add]
    _ ≤ 10 ^ 15 := Nat.pow_le_pow_right (by decide) (by omega)
    _ < 2 ^ 53 := by decide

theorem float32?_of_stands (single : rounding.IsSingle)
    (short : ∀ point, style.plain point = true → point ≤ 14)
    (stands : Stands style numeral negative (shortest style.tie rounding)) :
    numeral.float32? = some (toFloat32 negative (fieldBits rounding)) := by
  obtain ⟨rfl, broken, decimal | ⟨plain, whole, decimal⟩⟩ := stands
  · obtain ⟨scaled, success, bits⟩ := scale_shortest single style.tie
    have fits : (shortest style.tie rounding).digits < addressLimit :=
      (shortest_bounds style.tie single).1.trans (by decide)
    rw [Numeral.float32?_of_scale broken decimal fits success, bits]
  · have fits := tenths_fit whole (short _ plain)
    obtain ⟨scaled, success, bits⟩ := scale_shortest_tenths single style.tie whole fits
    rw [Numeral.float32?_of_scale broken decimal (fits.trans (by decide)) success, bits]

theorem float32?_zero (negative : Bool) :
    (⟨negative, ['0'], some ['0'], none⟩ : Numeral).float32? = some (toFloat32 negative 0) := by
  have success : Double.scale? (Double.ofNat 0) (-1) =
      some (Double.scaleDown (Double.ofNat 0) 1) := rfl
  have bits : singleBits (Double.scaleDown (Double.ofNat 0) 1).num
      (Double.scaleDown (Double.ofNat 0) 1).den = 0 := by decide +kernel
  have read := @Numeral.float32?_of_scale ⟨negative, ['0'], some ['0'], none⟩ ⟨0, -1⟩ _ rfl rfl
    (by decide) success
  rw [read, bits]

end Words

/-- What is written for a finite float is read as the float itself. -/
theorem exists_spells_float32? {style : Style} {value : Float32} (mark : style.wholeMark = ".0")
    (short : ∀ point, style.plain point = true → point ≤ 14) (finite : value.isFinite = true) :
    ∃ numeral, SpellsNumeral numeral (style.write value).toList ∧
      numeral.float32? = some value := by
  rcases read_of_finite finite with ⟨negative, read⟩ | ⟨negative, rounding, read, positive⟩
  · refine ⟨_, spells_write_zero mark read, ?_⟩
    rw [float32?_zero, toFloat32_of_zero read]
  · obtain ⟨single, same⟩ := isSingle_of_read read
    obtain ⟨numeral, spelled, stands⟩ := exists_spells_write mark read positive
    refine ⟨numeral, spelled, ?_⟩
    rw [float32?_of_stands single short stands, same]

end HdrGain.Decimal
