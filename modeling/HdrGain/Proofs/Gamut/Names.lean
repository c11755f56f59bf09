import HdrGain.Gamut
import Mathlib

namespace HdrGain.Gamut

/-- What may stand between the parts of a name. -/
def separators : List Char := ['.', '_', '-']

/-- An ASCII capital, and the small letter at the same place of the alphabet. -/
def IsCapitalOf (capital small : Char) : Prop :=
  'A' ≤ capital ∧ capital ≤ 'Z' ∧ capital.toNat + 'a'.toNat = small.toNat + 'A'.toNat

/-- Characters that may stand for each other in a name. -/
inductive LetterVariant : Char → Char → Prop where
  | same (c : Char) : LetterVariant c c
  | separators {first second : Char} (firstListed : first ∈ separators)
      (secondListed : second ∈ separators) : LetterVariant first second
  | lowered {capital small : Char} (letter : IsCapitalOf capital small) :
      LetterVariant capital small
  | raised {capital small : Char} (letter : IsCapitalOf capital small) :
      LetterVariant small capital

/-- Texts that differ in the case of ASCII letters and in separators only. -/
def SpellingVariant (first second : String) : Prop :=
  List.Forall₂ LetterVariant first.toList second.toList

section Letters

variable {c first second capital small : Char}

theorem IsCapitalOf.bounds (letter : IsCapitalOf capital small) :
    65 ≤ capital.toNat ∧ capital.toNat ≤ 90 ∧ small.toNat = capital.toNat + 32 := by
  obtain ⟨least, most, place⟩ := letter
  change capital.toNat + 97 = small.toNat + 65 at place
  exact ⟨Char.le_def.mp least, Char.le_def.mp most, by omega⟩

theorem isCapitalOf_toLower (least : 'A' ≤ c) (most : c ≤ 'Z') : IsCapitalOf c c.toLower := by
  have bound : c.val.toNat ≤ 90 := Char.le_def.mp most
  refine ⟨least, most, ?_⟩
  rw [Char.toLower, dif_pos ⟨least, most⟩]
  change c.val.toNat + 97 = (c.val + 32).toNat + 65
  rw [UInt32.toNat_add]
  change c.val.toNat + 97 = (c.val.toNat + 32) % 2 ^ 32 + 65
  omega

theorem toNat_of_separator (listed : c ∈ separators) :
    c.toNat = 46 ∨ c.toNat = 95 ∨ c.toNat = 45 := by
  simp only [separators, List.mem_cons, List.not_mem_nil, or_false] at listed
  rcases listed with rfl | rfl | rfl <;> decide

theorem normaliseChar_of_separator (listed : c ∈ separators) : normaliseChar c = '-' := by
  simp only [separators, List.mem_cons, List.not_mem_nil, or_false] at listed
  rcases listed with rfl | rfl | rfl <;> rfl

/-- Of what is no separator, a capital is brought into normal form and all else is left alone. -/
theorem normaliseChar_cases (unlisted : c ∉ separators) :
    IsCapitalOf c (normaliseChar c) ∨ ¬ ('A' ≤ c ∧ c ≤ 'Z') ∧ normaliseChar c = c := by
  have kept : normaliseChar c = c.toLower := if_neg fun point => unlisted (by
    rcases point with rfl | rfl <;> decide)
  rw [kept]
  by_cases capital : 'A' ≤ c ∧ c ≤ 'Z'
  · exact .inl (isCapitalOf_toLower capital.1 capital.2)
  · exact .inr ⟨capital, dif_neg capital⟩

theorem normaliseChar_eq_dash_iff : normaliseChar c = '-' ↔ c ∈ separators := by
  refine ⟨fun dash => ?_, normaliseChar_of_separator⟩
  by_contra unlisted
  rcases normaliseChar_cases unlisted with letter | ⟨_, kept⟩
  · rw [dash] at letter
    obtain ⟨least, _, place⟩ := letter.bounds
    change 45 = _ at place
    omega
  · rw [← kept, dash] at unlisted
    exact unlisted (by decide)

theorem IsCapitalOf.normaliseChar_eq (letter : IsCapitalOf capital small) :
    normaliseChar capital = small ∧ normaliseChar small = small := by
  obtain ⟨least, most, place⟩ := letter.bounds
  constructor
  · have unlisted : capital ∉ separators := fun listed => by
      have codes := toNat_of_separator listed
      omega
    rcases normaliseChar_cases unlisted with lowered | ⟨outside, _⟩
    · have lowerPlace := lowered.bounds.2.2
      exact Char.toNat_inj.mp (by omega)
    · exact absurd ⟨letter.1, letter.2.1⟩ outside
  · have unlisted : small ∉ separators := fun listed => by
      have codes := toNat_of_separator listed
      omega
    rcases normaliseChar_cases unlisted with lowered | ⟨_, kept⟩
    · have lowerBound := lowered.bounds.2.1
      omega
    · exact kept

/-- A character that is in normal form stays as it is. -/
theorem normaliseChar_normaliseChar (c : Char) :
    normaliseChar (normaliseChar c) = normaliseChar c := by
  by_cases listed : c ∈ separators
  · rw [normaliseChar_of_separator listed]
    rfl
  · rcases normaliseChar_cases listed with letter | ⟨_, kept⟩
    · exact letter.normaliseChar_eq.2
    · rw [kept, kept]

theorem letterVariant_iff :
    LetterVariant first second ↔ normaliseChar first = normaliseChar second := by
  constructor
  · intro variant
    cases variant with
    | same => rfl
    | separators firstListed secondListed =>
        rw [normaliseChar_of_separator firstListed, normaliseChar_of_separator secondListed]
    | lowered letter => rw [letter.normaliseChar_eq.1, letter.normaliseChar_eq.2]
    | raised letter => rw [letter.normaliseChar_eq.1, letter.normaliseChar_eq.2]
  · intro alike
    by_cases listed : first ∈ separators
    · exact .separators listed (normaliseChar_eq_dash_iff.mp
        (alike.symm.trans (normaliseChar_of_separator listed)))
    · have unlisted : second ∉ separators := fun also => listed
        (normaliseChar_eq_dash_iff.mp (alike.trans (normaliseChar_of_separator also)))
      rcases normaliseChar_cases listed with letter | ⟨_, kept⟩ <;>
        rcases normaliseChar_cases unlisted with letter' | ⟨_, kept'⟩
      · -- two capitals of one small letter
        have place := letter.bounds.2.2
        have place' := letter'.bounds.2.2
        rw [alike] at place
        rw [Char.toNat_inj.mp (show first.toNat = second.toNat by omega)]
        exact .same second
      · rw [alike, kept'] at letter
        exact .lowered letter
      · rw [← alike, kept] at letter'
        exact .raised letter'
      · rw [← kept, alike, kept']
        exact .same second

theorem LetterVariant.isAscii (variant : LetterVariant first second) (ascii : second.toNat < 128) :
    first.toNat < 128 := by
  cases variant with
  | same => exact ascii
  | separators listed =>
      have codes := toNat_of_separator listed
      omega
  | lowered letter =>
      have bounds := letter.bounds
      omega
  | raised letter =>
      have bounds := letter.bounds
      omega

end Letters

variable {text first second : String} {gamut : Gamut} {unknown : UnknownName}

theorem spellingVariant_iff :
    SpellingVariant first second ↔ normalise first = normalise second := by
  have alike : LetterVariant = fun c d => normaliseChar c = normaliseChar d := by
    funext c d
    exact propext letterVariant_iff
  rw [SpellingVariant, alike, normalise, normalise, String.ofList_inj, ← List.forall₂_eq_eq_eq,
    List.forall₂_map_left_iff, List.forall₂_map_right_iff]

theorem normalise_normalise (text : String) : normalise (normalise text) = normalise text := by
  simp only [normalise, String.toList_ofList, List.map_map]
  exact congrArg String.ofList (List.map_congr_left fun c _ => normaliseChar_normaliseChar c)

theorem normalise_spelling : ∀ entry ∈ spellings, normalise entry.1 = entry.1 := by decide

theorem isAscii_spelling : ∀ entry ∈ spellings, ∀ c ∈ entry.1.toList, c.toNat < 128 := by
  simp [spellings]

theorem nodup_spellings : (spellings.map Prod.fst).Nodup := by decide

/-- No spelling is listed twice, so that every entry is found. -/
theorem lookup_spellings_iff {name : String} :
    spellings.lookup name = some gamut ↔ (name, gamut) ∈ spellings := by
  rw [List.lookup_eq_some_iff]
  constructor
  · rintro ⟨before, after, parts, _⟩
    rw [parts]
    exact List.mem_append_right _ List.mem_cons_self
  · intro listed
    obtain ⟨before, after, parts⟩ := List.append_of_mem listed
    refine ⟨before, after, parts, fun entry earlier => ?_⟩
    have distinct := nodup_spellings
    rw [parts, List.map_append, List.map_cons] at distinct
    have apart := (List.nodup_append.mp distinct).2.2 entry.1
      (List.mem_map_of_mem earlier) name List.mem_cons_self
    exact bne_iff_ne.mpr apart.symm

theorem parse_eq_ok_iff : parse text = .ok gamut ↔ (normalise text, gamut) ∈ spellings := by
  rw [← lookup_spellings_iff, parse]
  cases spellings.lookup (normalise text) with
  | none => exact ⟨nofun, nofun⟩
  | some found => rw [Except.ok.injEq, Option.some.injEq]

theorem parse_eq_error_iff :
    parse text = .error unknown ↔
      spellings.lookup (normalise text) = none ∧ unknown = ⟨normalise text⟩ := by
  rw [parse]
  cases spellings.lookup (normalise text) with
  | none =>
      rw [Except.error.injEq, and_iff_right rfl]
      exact eq_comm
  | some found => exact ⟨nofun, nofun⟩

theorem parse_congr (variant : SpellingVariant first second) : parse first = parse second := by
  rw [parse, parse, spellingVariant_iff.mp variant]

theorem exists_spelling_iff :
    (∃ spelling, (spelling, gamut) ∈ spellings ∧ SpellingVariant text spelling) ↔
      (normalise text, gamut) ∈ spellings := by
  constructor
  · rintro ⟨spelling, listed, variant⟩
    have normal : normalise spelling = spelling := normalise_spelling (spelling, gamut) listed
    rw [spellingVariant_iff.mp variant, normal]
    exact listed
  · intro listed
    exact ⟨_, listed, spellingVariant_iff.mpr (normalise_normalise text).symm⟩

theorem isAscii_of_parse (accepted : parse text = .ok gamut) :
    ∀ c ∈ text.toList, c.toNat < 128 := by
  intro c inside
  have image : normaliseChar c ∈ (normalise text).toList := by
    rw [normalise, String.toList_ofList]
    exact List.mem_map_of_mem inside
  have variant : LetterVariant c (normaliseChar c) :=
    letterVariant_iff.mpr (normaliseChar_normaliseChar c).symm
  exact variant.isAscii (isAscii_spelling (_, gamut) (parse_eq_ok_iff.mp accepted) _ image)

theorem UnknownName.message_eq (unknown : UnknownName) :
    unknown.message = "unknown color gamut: " ++ unknown.name := by
  unfold UnknownName.message
  rfl

theorem parse_name (gamut : Gamut) : parse gamut.name = .ok gamut := by
  cases gamut <;> decide

/-- A name is read exactly if it is a variant of one of thirteen listed spellings, and then it is
all ASCII; every gamut is read from its own name. Variants of each other are read alike or refused
alike: a refused name is reported in its normal form, which is refused in the same words, and names
that are refused in the same words are variants. -/
theorem names_read_up_to_spelling :
    ((spellings.map Prod.fst).Nodup ∧ spellings.length = 13) ∧
    (∀ first second, SpellingVariant first second → parse first = parse second) ∧
    (∀ text gamut, parse text = .ok gamut ↔
      ∃ spelling, (spelling, gamut) ∈ spellings ∧ SpellingVariant text spelling) ∧
    (∀ text gamut, parse text = .ok gamut → ∀ c ∈ text.toList, c.toNat < 128) ∧
    (∀ gamut : Gamut, parse gamut.name = .ok gamut ∧ parse (toString gamut) = .ok gamut) ∧
    ∀ text unknown, parse text = .error unknown →
      unknown.message = "unknown color gamut: " ++ normalise text ∧
      normalise unknown.name = unknown.name ∧ parse unknown.name = .error unknown ∧
      ∀ other, parse other = .error unknown ↔ SpellingVariant other text := by
  refine ⟨⟨nodup_spellings, rfl⟩, fun _ _ => parse_congr, fun text gamut => ?_,
    fun _ _ => isAscii_of_parse, fun gamut => ⟨parse_name gamut, parse_name gamut⟩,
    fun text unknown refused => ?_⟩
  · rw [parse_eq_ok_iff, exists_spelling_iff]
  · obtain ⟨missing, rfl⟩ := parse_eq_error_iff.mp refused
    have fixed := normalise_normalise text
    refine ⟨UnknownName.message_eq _, fixed, parse_eq_error_iff.mpr ?_, fun other => ?_⟩
    · rw [fixed]
      exact ⟨missing, rfl⟩
    · constructor
      · intro alike
        exact spellingVariant_iff.mpr
          (UnknownName.mk.inj (parse_eq_error_iff.mp alike).2).symm
      · intro variant
        rw [parse_congr variant]
        exact refused

/-- A name with capitals and a dot is read as the listed one, and one that no gamut goes by is
reported in small letters and with a dash. -/
theorem capitals_and_dots_read_alike :
    SpellingVariant "Display.P3" "display-p3" ∧
      parse "Display.P3" = .ok .displayP3 ∧ parse "display-p3" = .ok .displayP3 ∧
      (∀ c ∈ "Display.P3".toList, c.toNat < 128) ∧ parse "ACES_cg" = .error ⟨"aces-cg"⟩ ∧
      parse "aces-cg" = .error ⟨"aces-cg"⟩ := by
  obtain ⟨_, alike, _, ascii, _, refused⟩ := names_read_up_to_spelling
  have named : parse "Display.P3" = .ok .displayP3 := by decide
  have unnamed : parse "ACES_cg" = .error ⟨"aces-cg"⟩ := by decide
  have variant : SpellingVariant "Display.P3" "display-p3" := spellingVariant_iff.mpr (by decide)
  exact ⟨variant, named, (alike _ _ variant).symm.trans named, ascii _ _ named, unnamed,
    (refused _ _ unnamed).2.2.1⟩

end HdrGain.Gamut
