import HdrGain.Json
import Mathlib

namespace HdrGain.Json

theorem digitsValue_append (first second : List Char) :
    digitsValue (first ++ second) =
      second.foldl (fun value digit => value * 10 + digitValue digit) (digitsValue first) :=
  List.foldl_append

theorem digitsValue_zeros (count : Nat) : digitsValue (List.replicate count '0') = 0 := by
  induction count with
  | zero => rfl
  | succ count ih =>
      rw [List.replicate_succ', digitsValue_append, ih]
      rfl

theorem digitsValue_zeros_append (count : Nat) (digits : List Char) :
    digitsValue (List.replicate count '0' ++ digits) = digitsValue digits := by
  rw [digitsValue_append, digitsValue_zeros]
  rfl

theorem digitsValue_append_zeros (digits : List Char) (count : Nat) :
    digitsValue (digits ++ List.replicate count '0') = digitsValue digits * 10 ^ count := by
  induction count with
  | zero => rw [List.replicate_zero, List.append_nil, Nat.pow_zero, Nat.mul_one]
  | succ count ih =>
      rw [List.replicate_succ', ← List.append_assoc, digitsValue_append, ih, Nat.pow_succ,
        ← Nat.mul_assoc]
      rfl

theorem foldl_digits (value : Nat) (digits : List Char) :
    digits.foldl (fun value digit => value * 10 + digitValue digit) value =
      value * 10 ^ digits.length + digitsValue digits := by
  induction digits generalizing value with
  | nil => rw [List.foldl_nil, List.length_nil, Nat.pow_zero, Nat.mul_one]; rfl
  | cons digit digits ih =>
      rw [digitsValue, List.foldl_cons, List.foldl_cons, ih, ih, List.length_cons, Nat.pow_succ]
      ring

theorem digitsValue_cons (digit : Char) (digits : List Char) :
    digitsValue (digit :: digits) =
      digitValue digit * 10 ^ digits.length + digitsValue digits := by
  rw [digitsValue, List.foldl_cons, foldl_digits, Nat.zero_mul, Nat.zero_add]

theorem digitsValue_append_eq (first second : List Char) :
    digitsValue (first ++ second) =
      digitsValue first * 10 ^ second.length + digitsValue second := by
  rw [digitsValue_append, foldl_digits]

theorem digitValue_le {digit : Char} (digital : digit.isDigit = true) : digitValue digit ≤ 9 := by
  have most : digit.toNat ≤ 57 := by
    unfold Char.isDigit at digital
    rw [Bool.and_eq_true, decide_eq_true_eq, decide_eq_true_eq] at digital
    exact digital.2
  change digit.toNat - 48 ≤ 9
  omega

theorem digitsValue_lt {digits : List Char} (digital : ∀ digit ∈ digits, digit.isDigit = true) :
    digitsValue digits < 10 ^ digits.length := by
  induction digits with
  | nil => exact Nat.one_pos
  | cons digit digits ih =>
      have first := digitValue_le (digital digit List.mem_cons_self)
      have others := ih fun other inside => digital other (List.mem_cons_of_mem _ inside)
      have scaled := Nat.mul_le_mul_right (10 ^ digits.length) first
      rw [digitsValue_cons, List.length_cons, Nat.pow_succ]
      omega

namespace Numeral

theorem le_foldl_digits (value : Nat) (digits : List Char) :
    value ≤ digits.foldl (fun value digit => value * 10 + digitValue digit) value := by
  induction digits generalizing value with
  | nil => exact Nat.le_refl value
  | cons digit digits ih =>
      have next := ih (value * 10 + digitValue digit)
      rw [List.foldl_cons]
      omega

theorem takeWord_eq {value : Nat} {digits : List Char}
    (fits : digits.foldl (fun value digit => value * 10 + digitValue digit) value < addressLimit) :
    takeWord value digits =
      (digits.foldl (fun value digit => value * 10 + digitValue digit) value, []) := by
  induction digits generalizing value with
  | nil => rfl
  | cons digit digits ih =>
      have next := Nat.lt_of_le_of_lt (le_foldl_digits _ digits) fits
      rw [takeWord, if_pos next]
      exact ih fits

/-- Digits are taken as long as they fit. What comes before the first that does not is large. -/
theorem exists_takeWord {value : Nat} {digits : List Char} (word : value < addressLimit)
    (digital : ∀ digit ∈ digits, digit.isDigit = true) :
    ∃ taken rest, digits = taken ++ rest ∧
      takeWord value digits = (value * 10 ^ taken.length + digitsValue taken, rest) ∧
      value * 10 ^ taken.length + digitsValue taken < addressLimit ∧
      (rest ≠ [] → 2 ^ 60 ≤ value * 10 ^ taken.length + digitsValue taken) := by
  induction digits generalizing value with
  | nil =>
      refine ⟨[], [], rfl, ?_, ?_, fun rest => absurd rfl rest⟩
      · rw [takeWord, List.length_nil, Nat.pow_zero, Nat.mul_one]
        rfl
      · rwa [List.length_nil, Nat.pow_zero, Nat.mul_one]
  | cons digit digits ih =>
      have first := digitValue_le (digital digit List.mem_cons_self)
      rw [takeWord]
      split
      · rename_i fits
        obtain ⟨taken, rest, parted, took, small, large⟩ :=
          ih fits fun other inside => digital other (List.mem_cons_of_mem _ inside)
        have joined : value * 10 ^ (digit :: taken).length + digitsValue (digit :: taken) =
            (value * 10 + digitValue digit) * 10 ^ taken.length + digitsValue taken := by
          rw [digitsValue_cons, List.length_cons, Nat.pow_succ]
          ring
        refine ⟨digit :: taken, rest, by rw [parted]; rfl, ?_, ?_, ?_⟩
        all_goals rw [joined]
        · exact took
        · exact small
        · exact large
      · rename_i full
        have whole : value * 10 ^ ([] : List Char).length + digitsValue [] = value := by
          rw [List.length_nil, Nat.pow_zero, Nat.mul_one]
          rfl
        refine ⟨[], digit :: digits, rfl, ?_, ?_, fun _ => ?_⟩
        all_goals rw [whole]
        · exact word
        · unfold addressLimit at full
          omega

/-- The digits that were taken are all of them but for the last places, up to one part in
`2 ^ 60`. -/
def Leads (taken places all : Nat) : Prop :=
  ∃ gap, gap * 2 ^ 60 ≤ all ∧ taken * 10 ^ places ≤ all + gap ∧ all ≤ taken * 10 ^ places + gap

section Leading

variable {taken uncounted counted dropped : List Char}

/-- Behind decimals that do not fit nothing counts. -/
theorem leads_append (digital : ∀ digit ∈ dropped, digit.isDigit = true)
    (large : dropped ≠ [] → 2 ^ 60 ≤ digitsValue taken) :
    Leads (digitsValue taken) dropped.length (digitsValue (taken ++ dropped)) := by
  rw [Leads, digitsValue_append_eq]
  refine ⟨digitsValue dropped, ?_, by omega, Nat.le_refl _⟩
  by_cases none : dropped = []
  · subst dropped
    exact Nat.zero_le _
  · have rest := digitsValue_lt digital
    have product := Nat.mul_le_mul_right (10 ^ dropped.length) (large none)
    omega

/-- Whole digits that do not fit count for zeros, and what is taken behind them is far below. -/
theorem leads_of_large (digital : ∀ digit ∈ uncounted ++ (counted ++ dropped), digit.isDigit = true)
    (large : 2 ^ 60 ≤ digitsValue taken) :
    Leads (digitsValue (taken ++ counted)) (uncounted.length + dropped.length)
      (digitsValue (taken ++ (uncounted ++ (counted ++ dropped)))) := by
  have places : 10 ^ (uncounted ++ (counted ++ dropped)).length =
      10 ^ counted.length * 10 ^ (uncounted.length + dropped.length) := by
    rw [← Nat.pow_add, List.length_append, List.length_append]
    congr 1
    omega
  have rest := digitsValue_lt digital
  have decimals : digitsValue counted < 10 ^ counted.length :=
    digitsValue_lt fun digit inside => digital digit (by simp [inside])
  have product := Nat.mul_le_mul_right (10 ^ (uncounted.length + dropped.length)) decimals.le
  have whole := Nat.mul_le_mul_right (10 ^ (uncounted ++ (counted ++ dropped)).length) large
  have left : digitsValue (taken ++ counted) * 10 ^ (uncounted.length + dropped.length) =
      digitsValue taken * 10 ^ (uncounted ++ (counted ++ dropped)).length +
        digitsValue counted * 10 ^ (uncounted.length + dropped.length) := by
    rw [digitsValue_append_eq, places]
    ring
  rw [Leads, left, digitsValue_append_eq taken]
  refine ⟨10 ^ (uncounted ++ (counted ++ dropped)).length, ?_, ?_, ?_⟩ <;> omega

end Leading

/-- All digits of a numeral, with the power of ten of the last of them. -/
def decimal (numeral : Numeral) : Decimal.Digits :=
  ⟨digitsValue (numeral.whole ++ numeral.fraction.getD []),
    numeral.exponent.getD 0 - (numeral.fraction.getD []).length⟩

variable {numeral : Numeral}

theorem significand_eq (fits : numeral.decimal.digits < addressLimit) :
    numeral.significand = (numeral.decimal.digits, numeral.decimal.power) := by
  have joined : numeral.decimal.digits = _ :=
    digitsValue_append numeral.whole (numeral.fraction.getD [])
  rw [joined] at fits ⊢
  have whole : takeWord 0 numeral.whole = (digitsValue numeral.whole, []) :=
    takeWord_eq (Nat.lt_of_le_of_lt (le_foldl_digits _ _) fits)
  have decimals := takeWord_eq fits
  unfold significand
  dsimp only
  rw [whole]
  dsimp only
  rw [decimals]
  simp only [decimal, List.length_nil, Prod.mk.injEq, true_and]
  omega

theorem exists_significand
    (digital : ∀ digit ∈ numeral.whole ++ numeral.fraction.getD [], digit.isDigit = true) :
    ∃ places : Nat, numeral.significand.1 < addressLimit ∧
      numeral.significand.2 = numeral.decimal.power + places ∧
      Leads numeral.significand.1 places numeral.decimal.digits := by
  obtain ⟨taken, uncounted, whole, took, word, large⟩ :=
    exists_takeWord (show 0 < addressLimit by decide) fun digit inside =>
      digital digit (List.mem_append_left _ inside)
  obtain ⟨counted, dropped, decimals, took', word', large'⟩ :=
    exists_takeWord word fun digit inside => digital digit (List.mem_append_right _ inside)
  rw [Nat.zero_mul, Nat.zero_add] at took word large took' word' large'
  rw [← digitsValue_append_eq] at took' word' large'
  rw [whole, decimals, List.append_assoc] at digital
  have significand : numeral.significand = (digitsValue (taken ++ counted),
      uncounted.length - ((numeral.fraction.getD []).length - dropped.length) +
        numeral.exponent.getD 0) := by
    unfold Numeral.significand
    dsimp only
    rw [took]
    dsimp only
    rw [took']
  have digits : numeral.decimal.digits =
      digitsValue (taken ++ (uncounted ++ (counted ++ dropped))) := by
    rw [decimal, whole, decimals, List.append_assoc]
  rw [significand, digits]
  refine ⟨uncounted.length + dropped.length, word', ?_, ?_⟩
  · rw [decimal, decimals, List.length_append]
    push_cast
    ring
  · by_cases fits : uncounted = []
    · subst uncounted
      rw [List.nil_append, ← List.append_assoc, List.length_nil, Nat.zero_add]
      exact leads_append (fun digit inside => digital digit (by simp [inside])) large'
    · exact leads_of_large (fun digit inside => digital digit (List.mem_append_right _ inside))
        (large fits)

/-- A numeral that shows a point or an exponent is read by way of its double. -/
theorem float32?_of_scale {number : Decimal.Digits} {scaled : Binary.Magnitude}
    (broken : numeral.isWhole = false) (decimal : numeral.decimal = number)
    (fits : number.digits < addressLimit)
    (success : Binary.Double.scale? (Binary.Double.ofNat number.digits) number.power =
      some scaled) :
    numeral.float32? =
      some (Binary.toFloat32 numeral.negative (Binary.singleBits scaled.num scaled.den)) := by
  have word : ¬ numeral.isWord = true := by simp [isWord, broken]
  have significand : numeral.significand = (number.digits, number.power) := by
    rw [significand_eq (by rwa [decimal]), decimal]
  rw [float32?, if_neg word, double?, significand]
  dsimp only
  rw [success]
  rfl

end Numeral

end HdrGain.Json
