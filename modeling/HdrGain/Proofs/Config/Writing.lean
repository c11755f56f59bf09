import HdrGain.Proofs.Config.Reading
import HdrGain.Proofs.Decimal.Notation

namespace HdrGain

namespace Json

theorem quotes_plain {text : List Char} (legible : text.all isLegible = true) :
    Quotes (plain text) ('"' :: (text ++ ['"'])) :=
  .mk (spellsPieces_plain legible)

end Json

namespace Config

theorem toList_quote (text : String) : (quote text).toList = '"' :: (text.toList ++ ['"']) := by
  simp [quote]

section Texts

variable {config : Config Float32} {ratio : Json}

theorem Field.quotes_key (field : Field) :
    Json.Quotes (Json.plain field.key.toList) (quote field.key).toList := by
  rw [toList_quote]
  exact Json.quotes_plain (by cases field <;> decide)

/-- The values that are written, where `ratio` stands for the ratio. -/
def Field.written (config : Config Float32) (ratio : Json) : Field → Json
  | .hdrRatio => ratio
  | .mapScaleFactor => .number ⟨false, Nat.toDigits 10 config.mapScaleFactor, none, none⟩
  | .sdrGamut => .text (Json.plain config.sdrGamut.tag.toList)
  | .hdrGamut => .text (Json.plain config.hdrGamut.tag.toList)
  | .hdrTransfer => .text (Json.plain config.hdrTransfer.tag.toList)
  | .mapFilter => .text (Json.plain config.mapFilter.tag.toList)

theorem spells_quote {tag : String} (legible : tag.toList.all Json.isLegible = true) :
    Json.Spells (.value (.text (Json.plain tag.toList))) (quote tag).toList := by
  rw [toList_quote]
  exact .text (Json.quotes_plain legible)

theorem Field.spells_written
    (spelled : Json.Spells (.value ratio) (ratioStyle.write config.hdrRatio).toList)
    (field : Field) :
    Json.Spells (.value (field.written config ratio)) (field.write config).toList := by
  cases field with
  | hdrRatio => exact spelled
  | mapScaleFactor =>
      have numeral := Json.SpellsNumeral.mk false
        (Decimal.isWhole_toDigits config.mapScaleFactor) .absent .absent
      simp only [Json.signText, Bool.false_eq_true, if_false, List.nil_append, List.append_nil]
        at numeral
      change Json.Spells _ config.mapScaleFactor.repr.toList
      rw [Nat.toList_repr]
      exact .number numeral
  | sdrGamut => exact spells_quote (by cases config.sdrGamut <;> decide)
  | hdrGamut => exact spells_quote (by cases config.hdrGamut <;> decide)
  | hdrTransfer => exact spells_quote (by cases config.hdrTransfer <;> decide)
  | mapFilter => exact spells_quote (by cases config.mapFilter <;> decide)

def writtenMember (config : Config Float32) (ratio : Json) (field : Field) :
    List Json.Piece × Json :=
  (Json.plain field.key.toList, field.written config ratio)

theorem spells_member
    (spelled : Json.Spells (.value ratio) (ratioStyle.write config.hdrRatio).toList)
    (field : Field) :
    Json.Spells (.member (Json.plain field.key.toList) (field.written config ratio))
      (quote field.key ++ ":" ++ field.write config).toList := by
  have closed := Json.Spells.closeMember field.quotes_key (field.spells_written spelled)
  simpa using closed

theorem spells_members
    (spelled : Json.Spells (.value ratio) (ratioStyle.write config.hdrRatio).toList)
    (first : Field) (others : List Field) :
    Json.Spells (.members ((first :: others).map (config.writtenMember ratio)))
      (String.intercalate "," ((first :: others).map fun field =>
        quote field.key ++ ":" ++ field.write config)).toList := by
  induction others generalizing first with
  | nil =>
      rw [List.map_singleton, List.map_singleton, String.intercalate_singleton]
      exact .lastMember (spells_member spelled first)
  | cons next others ih =>
      have rest := ih next
      simp only [List.map_cons, String.intercalate_cons_cons, String.toList_append] at rest ⊢
      have pair := Json.Spells.members (spells_member spelled first) rest
      simpa [writtenMember] using pair

theorem isDocument_write
    (spelled : Json.Spells (.value ratio) (ratioStyle.write config.hdrRatio).toList) :
    Json.IsDocument (.object (Field.all.map (config.writtenMember ratio))) (write config) := by
  have members := spells_members spelled .hdrRatio (Field.all.drop 1)
  have object := (Json.Spells.object members).close
  unfold Json.IsDocument write
  simp only [String.toList_append]
  exact object

theorem settings_written :
    settings (Field.all.map (config.writtenMember ratio)) =
      Field.all.map fun field => (field, field.written config ratio) := by
  have named : ∀ field : Field, Field.ofPieces? (Json.plain field.key.toList) = some field :=
    fun field => (Field.ofPieces?_eq_some_iff field.quotes_key.sized).mpr Json.denotes_plain
  rw [settings, List.filterMap_map, ← List.filterMap_eq_map]
  refine congrArg (List.filterMap · Field.all) (funext fun field => ?_)
  simp [writtenMember, named]

variable (spelled : Json.Spells (.value ratio) (ratioStyle.write config.hdrRatio).toList)

include spelled

theorem read?_write :
    read? (write config) =
      assignAll default (Field.all.map fun field => (field, field.written config ratio)) := by
  have document := isDocument_write spelled
  have strings : ∀ member ∈ Field.all.map (config.writtenMember ratio), Json.IsString member.1 := by
    intro member inside
    obtain ⟨field, _, rfl⟩ := List.mem_map.mp inside
    exact ⟨_, Json.denotes_plain⟩
  rw [← settings_written]
  refine read?_of_once document strings ?_
  rw [← nodup_settings_iff (sized_of_isDocument document), settings_written]
  change Field.all.Nodup
  decide

theorem written_of_spells :
    ∀ setting ∈ Field.all.map fun field => (field, field.written config ratio),
      setting.2.Written := by
  intro setting inside
  obtain ⟨field, _, rfl⟩ := List.mem_map.mp inside
  exact ⟨_, (field.spells_written spelled).close⟩

theorem read?_write_of_stores
    (stored : ∀ field : Field, field.Stores config (field.written config ratio)) :
    read? (write config) = some config := by
  have written := written_of_spells spelled
  have accepted : ∀ field value,
      (field, value) ∈ (Field.all.map fun field => (field, field.written config ratio)) →
        field.Accepts value := by
    intro _ _ inside
    obtain ⟨_, _, same⟩ := List.mem_map.mp inside
    cases same
    rw [← Field.isSome_assign_iff config (written _ inside), stored _]
    rfl
  obtain ⟨found, assigned⟩ := Option.isSome_iff_exists.mp
    ((isSome_assignAll_iff default written).mpr accepted)
  have assigns := assigns_of_assignAll (by change Field.all.Nodup; decide) assigned
  have same : found = config := by
    refine Field.eq_of_agrees fun field => ?_
    have setting : (field, field.written config ratio) ∈
        Field.all.map fun field => (field, field.written config ratio) :=
      List.mem_map.mpr ⟨field, by cases field <;> decide, rfl⟩
    exact (assigns.stored _ _ setting).agrees (stored field)
  rw [read?_write spelled, assigned, same]

theorem read?_write_of_not_accepts (refused : ¬ Field.hdrRatio.Accepts ratio) :
    read? (write config) = none := by
  rw [read?_write spelled, ← Option.not_isSome_iff_eq_none,
    isSome_assignAll_iff default (written_of_spells spelled)]
  exact fun accepted => refused (accepted _ _ List.mem_cons_self)

end Texts

section Ratios

variable {config : Config Float32}

theorem spells_null (infinite : config.hdrRatio.isFinite = false) :
    Json.Spells (.value .null) (ratioStyle.write config.hdrRatio).toList := by
  have null : ratioStyle.write config.hdrRatio = "null" := by
    rcases Decimal.write_of_not_finite ratioStyle infinite with same | ⟨_, same⟩
    · exact same
    · exact same
  rw [null]
  exact .null

theorem stores_written {numeral : Json.Numeral} (scale : config.mapScaleFactor < addressLimit)
    (spelled : Json.Spells (.value (.number numeral)) (ratioStyle.write config.hdrRatio).toList)
    (reads : numeral.float32? = some config.hdrRatio) (field : Field) :
    field.Stores config (field.written config (.number numeral)) := by
  have written : (field.written config (.number numeral)).Written :=
    ⟨_, (field.spells_written spelled).close⟩
  cases field with
  | hdrRatio => exact Field.stores_ratio_iff.mpr ⟨numeral, rfl, reads⟩
  | mapScaleFactor =>
      exact Iff.mpr (Field.stores_iff written (by decide))
        ⟨_, rfl, Decimal.digitsValue_toDigits _, scale⟩
  | sdrGamut | hdrGamut | hdrTransfer | mapFilter =>
      exact Iff.mpr (Field.stores_iff written (by decide)) (.text Json.denotes_plain)

/-- Every configuration with a finite ratio is read back from what is written for it; one with any
other ratio is written with a null and refused. -/
theorem written_read_exactly (config : Config Float32) :
    (config.hdrRatio.isFinite = true → config.mapScaleFactor < addressLimit →
      read? (write config) = some config) ∧
    (config.hdrRatio.isFinite = false →
      (∃ members, Json.IsDocument
        (.object ((Json.plain Field.hdrRatio.key.toList, .null) :: members)) (write config)) ∧
      read? (write config) = none) := by
  constructor
  · intro finite scale
    have short : ∀ point, ratioStyle.plain point = true → point ≤ 14 := by
      intro point plain
      have bounds := of_decide_eq_true plain
      omega
    obtain ⟨numeral, spelled, reads⟩ := Decimal.exists_spells_float32? rfl short finite
    exact read?_write_of_stores (.number spelled) (stores_written scale (.number spelled) reads)
  · intro infinite
    have spelled := spells_null infinite
    refine ⟨⟨_, isDocument_write spelled⟩, read?_write_of_not_accepts spelled ?_⟩
    rintro ⟨_, number, _⟩
    cases number

/-- A configuration that no codec would accept. -/
def tenthConfig : Config Float32 :=
  { hdrRatio := Float32.ofBits 0x3dcccccd
    mapScaleFactor := 0xffffffffffffffff
    sdrGamut := .unspecified
    hdrGamut := .displayP3
    hdrTransfer := .hlg
    mapFilter := .bilinear }

theorem tenth_read_back : read? (write tenthConfig) = some tenthConfig :=
  (written_read_exactly tenthConfig).1 (by decide +kernel) (by decide)

end Ratios

end Config

end HdrGain
