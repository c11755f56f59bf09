import HdrGain.Config.Document
import HdrGain.Proofs.Json.Meaning
import HdrGain.Proofs.Json.Strings

namespace HdrGain

namespace Json

/-- Some text spells the value. -/
def Written (value : Json) : Prop :=
  ∃ text, Spells (.element value) text

inductive Names : Json → String → Prop
  | text {pieces : List Piece} {name : String} (denoted : Denotes pieces name.toList) :
      Names (.text pieces) name
  | member {pieces : List Piece} {name : String} (denoted : Denotes pieces name.toList) :
      Names (.object [(pieces, .null)]) name

theorem Written.sized_text {pieces : List Piece} (written : (text pieces).Written) :
    Sized pieces := by
  obtain ⟨_, spelled⟩ := written
  cases spelled with
  | element _ spelled _ =>
      cases spelled with
      | text quoted => exact quoted.sized

theorem Written.sized_member {key : List Piece} {value : Json}
    (written : (object [(key, value)]).Written) : Sized key := by
  obtain ⟨_, spelled⟩ := written
  cases spelled with
  | element _ spelled _ =>
      cases spelled with
      | object spelled =>
          cases spelled with
          | lastMember spelled =>
              cases spelled with
              | member _ quoted _ _ => exact quoted.sized
          | members _ others => cases others

theorem Written.exists_spells {numeral : Numeral} (written : (number numeral).Written) :
    ∃ text, SpellsNumeral numeral text := by
  obtain ⟨_, spelled⟩ := written
  cases spelled with
  | element _ spelled _ =>
      cases spelled with
      | number spelled => exact ⟨_, spelled⟩

theorem choice?_eq_some_iff {value : Json} (written : value.Written) {name : String} :
    value.choice? = some name ↔ value.Names name := by
  constructor
  · intro chosen
    unfold choice? at chosen
    split at chosen
    · exact .text ((string?_eq_some_iff written.sized_text).mp chosen)
    · exact .member ((string?_eq_some_iff written.sized_member).mp chosen)
    · cases chosen
  · rintro (denoted | denoted)
    · exact (string?_eq_some_iff written.sized_text).mpr denoted
    · exact (string?_eq_some_iff written.sized_member).mpr denoted

theorem float32?_eq_some_iff {value : Json} {number : Float32} :
    value.float32? = some number ↔
      ∃ numeral, value = .number numeral ∧ numeral.float32? = some number := by
  constructor
  · intro found
    unfold float32? at found
    split at found
    · exact ⟨_, rfl, found⟩
    · cases found
  · rintro ⟨numeral, rfl, found⟩
    exact found

theorem isSome_float32?_iff {value : Json} :
    value.float32?.isSome = true ↔
      ∃ numeral, value = .number numeral ∧ numeral.float32?.isSome = true := by
  cases value with
  | number numeral =>
      constructor
      · exact fun read => ⟨numeral, rfl, read⟩
      · rintro ⟨_, same, read⟩
        cases same
        exact read
  | null | bool | text | array | object => simp [float32?]

theorem Numeral.word?_eq_some_iff {numeral : Numeral} {word : Nat} :
    numeral.word? = some word ↔
      numeral = ⟨false, numeral.whole, none, none⟩ ∧ digitsValue numeral.whole = word ∧
        word < addressLimit := by
  obtain ⟨negative, whole, fraction, exponent⟩ := numeral
  cases negative <;> cases fraction <;> cases exponent <;> simp [word?, isWord, isWhole]
  grind

theorem word?_eq_some_iff {value : Json} {word : Nat} :
    value.word? = some word ↔
      ∃ digits, value = .number ⟨false, digits, none, none⟩ ∧ digitsValue digits = word ∧
        word < addressLimit := by
  constructor
  · intro found
    unfold word? at found
    split at found
    · obtain ⟨plain, size, bound⟩ := Numeral.word?_eq_some_iff.mp found
      exact ⟨_, congrArg _ plain, size, bound⟩
    · cases found
  · rintro ⟨digits, rfl, size, bound⟩
    exact Numeral.word?_eq_some_iff.mpr ⟨rfl, size, bound⟩

end Json

namespace Gamut

theorem ofTag?_eq_some_iff {name : String} {gamut : Gamut} :
    ofTag? name = some gamut ↔ name = gamut.tag := by
  constructor
  · intro found
    unfold ofTag? at found
    split at found <;> cases found <;> rfl
  · rintro rfl
    exact ofTag?_tag gamut

end Gamut

namespace HdrTransfer

theorem ofTag?_eq_some_iff {name : String} {transfer : HdrTransfer} :
    ofTag? name = some transfer ↔ name = transfer.tag := by
  constructor
  · intro found
    unfold ofTag? at found
    split at found <;> cases found <;> rfl
  · rintro rfl
    exact ofTag?_tag transfer

end HdrTransfer

namespace MapFilter

theorem ofTag?_eq_some_iff {name : String} {filter : MapFilter} :
    ofTag? name = some filter ↔ name = filter.tag := by
  constructor
  · intro found
    unfold ofTag? at found
    split at found <;> cases found <;> rfl
  · rintro rfl
    exact ofTag?_tag filter

end MapFilter

namespace Config.Field

theorem ofKey?_eq_some_iff {name : String} {field : Field} :
    ofKey? name = some field ↔ name = field.key := by
  constructor
  · intro found
    unfold ofKey? at found
    split at found <;> cases found <;> rfl
  · rintro rfl
    exact ofKey?_key field

/-- The value is one for the field, and it is the one that the configuration has there. -/
def Holds (config : Config Float32) : Field → Json → Prop
  | .hdrRatio, value =>
      ∃ numeral, value = .number numeral ∧ numeral.Means config.hdrRatio
  | .mapScaleFactor, value =>
      ∃ digits, value = .number ⟨false, digits, none, none⟩ ∧
        Json.digitsValue digits = config.mapScaleFactor ∧ config.mapScaleFactor < addressLimit
  | .sdrGamut, value => value.Names config.sdrGamut.tag
  | .hdrGamut, value => value.Names config.hdrGamut.tag
  | .hdrTransfer, value => value.Names config.hdrTransfer.tag
  | .mapFilter, value => value.Names config.mapFilter.tag

/-- The value is one for the field. A number is one for the ratio unless it is too large for a
double. -/
def Accepts : Field → Json → Prop
  | .hdrRatio, value => ∃ numeral, value = .number numeral ∧ numeral.float32?.isSome = true
  | field, value => ∃ config, field.Holds config value

/-- To set the configuration to the value changes nothing. -/
def Stores (config : Config Float32) (field : Field) (value : Json) : Prop :=
  field.assign config value = some config

def Agrees (first second : Config Float32) : Field → Prop
  | .hdrRatio => first.hdrRatio = second.hdrRatio
  | .mapScaleFactor => first.mapScaleFactor = second.mapScaleFactor
  | .sdrGamut => first.sdrGamut = second.sdrGamut
  | .hdrGamut => first.hdrGamut = second.hdrGamut
  | .hdrTransfer => first.hdrTransfer = second.hdrTransfer
  | .mapFilter => first.mapFilter = second.mapFilter

/-- `target` with the field of `source`. -/
def copy (source target : Config Float32) : Field → Config Float32
  | .hdrRatio => { target with hdrRatio := source.hdrRatio }
  | .mapScaleFactor => { target with mapScaleFactor := source.mapScaleFactor }
  | .sdrGamut => { target with sdrGamut := source.sdrGamut }
  | .hdrGamut => { target with hdrGamut := source.hdrGamut }
  | .hdrTransfer => { target with hdrTransfer := source.hdrTransfer }
  | .mapFilter => { target with mapFilter := source.mapFilter }

variable {config found first second source target : Config Float32} {field other : Field}
  {value : Json}

theorem agrees_copy_self : field.Agrees (field.copy source target) source := by
  cases field <;> rfl

theorem agrees_copy_of_ne (different : other ≠ field) :
    other.Agrees (field.copy source target) target := by
  cases field <;> cases other <;> first | rfl | exact absurd rfl different

theorem Agrees.symm (agree : field.Agrees first second) : field.Agrees second first := by
  cases field <;> exact Eq.symm agree

theorem Agrees.trans {third : Config Float32} (agree : field.Agrees first second)
    (next : field.Agrees second third) : field.Agrees first third := by
  cases field <;> exact Eq.trans agree next

theorem eq_of_agrees (agree : ∀ field : Field, field.Agrees first second) : first = second := by
  cases first
  cases second
  cases agree .hdrRatio
  cases agree .mapScaleFactor
  cases agree .sdrGamut
  cases agree .hdrGamut
  cases agree .hdrTransfer
  cases agree .mapFilter
  rfl

/-- A setter succeeds with `found` where the value is what `found` has and all else is kept. -/
theorem map_eq_some_iff {α : Type} {option : Option α} (set : α → Config Float32)
    (get : Config Float32 → α) (got : ∀ value, get (set value) = value) :
    option.map set = some found ↔ option = some (get found) ∧ found = set (get found) := by
  rw [Option.map_eq_some_iff]
  constructor
  · rintro ⟨value, rfl, rfl⟩
    rw [got]
    exact ⟨rfl, rfl⟩
  · rintro ⟨holds, kept⟩
    exact ⟨get found, holds, kept.symm⟩

theorem choice?_bind_eq_some_iff {α : Type} (written : value.Written) {ofTag? : String → Option α}
    {tag : α → String} (inverse : ∀ {name choice}, ofTag? name = some choice ↔ name = tag choice)
    {choice : α} :
    value.choice?.bind ofTag? = some choice ↔ value.Names (tag choice) := by
  rw [Option.bind_eq_some_iff]
  constructor
  · rintro ⟨name, chosen, tagged⟩
    rw [← inverse.mp tagged]
    exact (Json.choice?_eq_some_iff written).mp chosen
  · intro named
    exact ⟨_, (Json.choice?_eq_some_iff written).mpr named, inverse.mpr rfl⟩

theorem stores_ratio_iff :
    Field.hdrRatio.Stores config value ↔
      ∃ numeral, value = .number numeral ∧ numeral.float32? = some config.hdrRatio := by
  rw [Stores, assign, map_eq_some_iff _ Config.hdrRatio fun _ => rfl, Json.float32?_eq_some_iff]
  exact and_iff_left rfl

theorem stores_iff (written : value.Written) (other : field ≠ .hdrRatio) :
    field.Stores config value ↔ field.Holds config value := by
  unfold Stores
  cases field with
  | hdrRatio => exact absurd rfl other
  | mapScaleFactor =>
      rw [assign, map_eq_some_iff _ Config.mapScaleFactor fun _ => rfl, Json.word?_eq_some_iff]
      exact and_iff_left rfl
  | sdrGamut =>
      rw [assign, map_eq_some_iff _ Config.sdrGamut fun _ => rfl,
        choice?_bind_eq_some_iff written Gamut.ofTag?_eq_some_iff]
      exact and_iff_left rfl
  | hdrGamut =>
      rw [assign, map_eq_some_iff _ Config.hdrGamut fun _ => rfl,
        choice?_bind_eq_some_iff written Gamut.ofTag?_eq_some_iff]
      exact and_iff_left rfl
  | hdrTransfer =>
      rw [assign, map_eq_some_iff _ Config.hdrTransfer fun _ => rfl,
        choice?_bind_eq_some_iff written HdrTransfer.ofTag?_eq_some_iff]
      exact and_iff_left rfl
  | mapFilter =>
      rw [assign, map_eq_some_iff _ Config.mapFilter fun _ => rfl,
        choice?_bind_eq_some_iff written MapFilter.ofTag?_eq_some_iff]
      exact and_iff_left rfl

theorem Stores.holds (written : value.Written) (stored : field.Stores config value) :
    field.Holds config value := by
  by_cases ratio : field = .hdrRatio
  · subst field
    obtain ⟨numeral, rfl, read⟩ := stores_ratio_iff.mp stored
    obtain ⟨_, spelled⟩ := written.exists_spells
    exact ⟨numeral, rfl,
      Json.Numeral.means_of_float32? (Json.Numeral.digital_of_spells spelled) read⟩
  · exact (stores_iff written ratio).mp stored

theorem copy_self : field.copy config config = config := by
  cases field <;> rfl

/-- What is assigned to a field does not depend on the configuration, and all else is kept. -/
theorem assign_eq_map_copy (source config : Config Float32) (field : Field) (value : Json) :
    field.assign config value = (field.assign source value).map (field.copy · config) := by
  cases field <;> simp only [assign, Option.map_map] <;> rfl

theorem assign_of_stores (stored : field.Stores source value) :
    field.assign config value = some (field.copy source config) := by
  rw [assign_eq_map_copy source config, stored, Option.map_some]

/-- To assign a value is to take over the field of a configuration that stores it. -/
theorem assign_eq_some_iff :
    field.assign config value = some found ↔
      field.Stores found value ∧ found = field.copy found config := by
  constructor
  · intro assigned
    have again := assign_eq_map_copy config config field value
    rw [assigned, Option.map_some] at again
    refine ⟨?_, Option.some.inj again⟩
    rw [Stores, assign_eq_map_copy config found, assigned, Option.map_some, copy_self]
  · rintro ⟨stored, copied⟩
    rw [assign_of_stores stored, ← copied]

/-- A value determines the field that stores it. -/
theorem Stores.agrees (stored : field.Stores first value) (stored' : field.Stores second value) :
    field.Agrees first second := by
  have same : first = field.copy second first :=
    Option.some.inj (stored.symm.trans (assign_of_stores stored'))
  have agree : field.Agrees (field.copy second first) second := agrees_copy_self
  rwa [← same] at agree

theorem Agrees.stores (agree : field.Agrees first second) (stored : field.Stores second value) :
    field.Stores first value := by
  rw [Stores, assign_of_stores stored]
  cases field <;> simp only [Agrees] at agree <;> simp only [copy, ← agree]

theorem accepts_iff (other : field ≠ .hdrRatio) :
    field.Accepts value ↔ ∃ config, field.Holds config value := by
  cases field with
  | hdrRatio => exact absurd rfl other
  | mapScaleFactor | sdrGamut | hdrGamut | hdrTransfer | mapFilter => exact Iff.rfl

theorem isSome_assign_iff (config : Config Float32) (written : value.Written) :
    (field.assign config value).isSome = true ↔ field.Accepts value := by
  by_cases ratio : field = .hdrRatio
  · subst field
    rw [assign, Option.isSome_map]
    exact Json.isSome_float32?_iff
  · rw [Option.isSome_iff_exists, accepts_iff ratio]
    constructor
    · rintro ⟨found, assigned⟩
      exact ⟨found, (stores_iff written ratio).mp (assign_eq_some_iff.mp assigned).1⟩
    · rintro ⟨source, holds⟩
      exact ⟨_, assign_of_stores ((stores_iff written ratio).mpr holds)⟩

end Config.Field

namespace Config

/-- Sets the fields in turn, whether or not they were set before. -/
def assignAll (config : Config Float32) : List (Field × Json) → Option (Config Float32)
  | [] => some config
  | (field, value) :: rest => (field.assign config value).bind (assignAll · rest)

/-- To set any of the settings again changes nothing, and the other fields are as they were. -/
structure Assigns (settings : List (Field × Json)) (config found : Config Float32) : Prop where
  stored : ∀ field value, (field, value) ∈ settings → field.Stores found value
  kept : ∀ field, field ∉ settings.map Prod.fst → field.Agrees found config

section Settings

variable {config found : Config Float32} {settings : List (Field × Json)}

theorem isSome_assignAll_iff (config : Config Float32)
    (written : ∀ setting ∈ settings, setting.2.Written) :
    (assignAll config settings).isSome = true ↔
      ∀ field value, (field, value) ∈ settings → field.Accepts value := by
  induction settings generalizing config with
  | nil => simp [assignAll]
  | cons setting settings ih =>
      obtain ⟨field, value⟩ := setting
      have first : (field.assign config value).isSome = true ↔ field.Accepts value :=
        Field.isSome_assign_iff config (written _ List.mem_cons_self)
      rw [assignAll]
      cases assigned : field.assign config value with
      | none =>
          rw [assigned] at first
          exact ⟨nofun, fun accepted => nomatch first.mpr (accepted _ _ List.mem_cons_self)⟩
      | some next =>
          rw [assigned] at first
          rw [Option.bind_some,
            ih next fun setting member => written _ (List.mem_cons_of_mem _ member)]
          constructor
          · rintro accepted _ _ (_ | ⟨_, member⟩)
            · exact first.mp rfl
            · exact accepted _ _ member
          · exact fun accepted _ _ member => accepted _ _ (List.mem_cons_of_mem _ member)

theorem assigns_of_assignAll (once : (settings.map Prod.fst).Nodup)
    (assigned : assignAll config settings = some found) : Assigns settings config found := by
  induction settings generalizing config with
  | nil =>
      cases assigned
      exact ⟨nofun, fun field _ => by cases field <;> rfl⟩
  | cons setting settings ih =>
      obtain ⟨field, value⟩ := setting
      obtain ⟨fresh, once⟩ := List.nodup_cons.mp once
      obtain ⟨next, set, rest⟩ := Option.bind_eq_some_iff.mp assigned
      obtain ⟨stored, copied⟩ := Field.assign_eq_some_iff.mp set
      obtain ⟨others, kept⟩ := ih once rest
      constructor
      · rintro _ _ (_ | ⟨_, member⟩)
        · exact (kept field fresh).stores stored
        · exact others _ _ member
      · intro other absent
        obtain ⟨different, absent⟩ := not_or.mp (mt List.mem_cons.mpr absent)
        have before : other.Agrees next config := by
          rw [copied]
          exact Field.agrees_copy_of_ne different
        exact (kept other absent).trans before

theorem Assigns.eq {other : Config Float32} (assigns : Assigns settings config found)
    (assigns' : Assigns settings config other) : found = other := by
  refine Field.eq_of_agrees fun field => ?_
  by_cases member : field ∈ settings.map Prod.fst
  · obtain ⟨⟨_, value⟩, setting, rfl⟩ := List.mem_map.mp member
    exact (assigns.stored _ _ setting).agrees (assigns'.stored _ _ setting)
  · exact (assigns.kept field member).trans (assigns'.kept field member).symm

end Settings

end Config

end HdrGain
