import HdrGain.Proofs.Config.Assignment
import HdrGain.Proofs.Json.Parsing
import Mathlib.Data.List.Nodup

namespace HdrGain

namespace Json

def IsString (pieces : List Piece) : Prop :=
  ∃ text, Denotes pieces text

section Parts

variable {text : List Char}

theorem parts_of_member {key : List Piece} {value : Json}
    (spelled : Spells (.member key value) text) : Sized key ∧ value.Written := by
  cases spelled with
  | member _ quoted _ spelled => exact ⟨quoted.sized, _, spelled⟩

theorem parts_of_members {members : List (List Piece × Json)}
    (spelled : Spells (.members members) text) :
    ∀ member ∈ members, Sized member.1 ∧ member.2.Written := by
  induction members generalizing text with
  | nil => cases spelled
  | cons member members ih =>
      rintro _ (_ | ⟨_, inside⟩)
      · cases spelled with
        | lastMember spelled | members spelled _ => exact parts_of_member spelled
      · cases spelled with
        | lastMember _ => cases inside
        | members _ others => exact ih others _ inside

theorem parts_of_object {members : List (List Piece × Json)} (written : (object members).Written) :
    ∀ member ∈ members, Sized member.1 ∧ member.2.Written := by
  obtain ⟨_, spelled⟩ := written
  cases spelled with
  | element _ spelled _ =>
      cases spelled with
      | emptyObject _ => exact nofun
      | object spelled => exact parts_of_members spelled

end Parts

theorem isSome_string?_iff {pieces : List Piece} (sized : Sized pieces) :
    (string? pieces).isSome = true ↔ IsString pieces := by
  rw [Option.isSome_iff_exists]
  constructor
  · rintro ⟨string, found⟩
    exact ⟨_, (string?_eq_some_iff sized).mp found⟩
  · rintro ⟨text, denoted⟩
    refine ⟨String.ofList text, (string?_eq_some_iff sized).mpr ?_⟩
    rwa [String.toList_ofList]

end Json

namespace Config

/-- The key is one of the spellings of the field's name. -/
def Field.Named (field : Field) (key : List Json.Piece) : Prop :=
  Json.Denotes key field.key.toList

def Field.ofPieces? (key : List Json.Piece) : Option Field :=
  (Json.string? key).bind Field.ofKey?

theorem Field.ofPieces?_eq_some_iff {key : List Json.Piece} (sized : Json.Sized key)
    {field : Field} : ofPieces? key = some field ↔ field.Named key := by
  rw [ofPieces?, Option.bind_eq_some_iff, Named, ← Json.string?_eq_some_iff sized]
  constructor
  · rintro ⟨name, found, named⟩
    rwa [← ofKey?_eq_some_iff.mp named]
  · exact fun found => ⟨_, found, ofKey?_key field⟩

section Objects

variable {members : List (List Json.Piece × Json)} {document : String}

/-- The members that name fields. -/
def settings (members : List (List Json.Piece × Json)) : List (Field × Json) :=
  members.filterMap fun (key, value) => (Field.ofPieces? key).map (·, value)

/-- Two members name the same field. -/
def Repeats (members : List (List Json.Piece × Json)) : Prop :=
  ∃ (field : Field) (first second : List Json.Piece × Json),
    [first, second].Sublist members ∧ field.Named first.1 ∧ field.Named second.1

theorem nodup_settings_iff (sized : ∀ member ∈ members, Json.Sized member.1) :
    ((settings members).map Prod.fst).Nodup ↔ ¬ Repeats members := by
  rw [List.Nodup, List.pairwise_map, settings, List.pairwise_filterMap,
    List.pairwise_iff_forall_sublist]
  constructor
  · rintro apart ⟨field, first, second, sublist, named, named'⟩
    have found := (Field.ofPieces?_eq_some_iff (sized first (sublist.subset (by simp)))).mpr named
    have found' :=
      (Field.ofPieces?_eq_some_iff (sized second (sublist.subset (by simp)))).mpr named'
    exact apart sublist (field, first.2) (by simp [found]) (field, second.2) (by simp [found']) rfl
  · intro single first second sublist setting found setting' found' same
    obtain ⟨field, named, rfl⟩ := Option.map_eq_some_iff.mp found
    obtain ⟨field', named', rfl⟩ := Option.map_eq_some_iff.mp found'
    cases same
    refine single ⟨field, first, second, sublist, ?_, ?_⟩
    · exact (Field.ofPieces?_eq_some_iff (sized first (sublist.subset (by simp)))).mp named
    · exact (Field.ofPieces?_eq_some_iff (sized second (sublist.subset (by simp)))).mp named'

section Members

variable {seen : List Field} {config : Config Float32} {key : List Json.Piece} {value : Json}

theorem settings_cons :
    settings ((key, value) :: members) =
      ((Field.ofPieces? key).map (·, value)).toList ++ settings members := by
  unfold settings
  cases found : Field.ofPieces? key <;> simp [found]

theorem assignMembers_unknown (string : (Json.string? key).isSome = true)
    (unknown : Field.ofPieces? key = none) :
    assignMembers seen config ((key, value) :: members) = assignMembers seen config members := by
  obtain ⟨name, found⟩ := Option.isSome_iff_exists.mp string
  rw [Field.ofPieces?, found, Option.bind_some] at unknown
  simp [assignMembers, found, unknown]

theorem assignMembers_known {field : Field} (known : Field.ofPieces? key = some field) :
    assignMembers seen config ((key, value) :: members) =
      if field ∈ seen then none
      else (field.assign config value).bind (assignMembers (field :: seen) · members) := by
  obtain ⟨name, found, named⟩ := Option.bind_eq_some_iff.mp known
  simp [assignMembers, found, named]

theorem assignMembers_of_nodup
    (strings : ∀ member ∈ members, (Json.string? member.1).isSome = true)
    (once : (seen ++ (settings members).map Prod.fst).Nodup) :
    assignMembers seen config members = assignAll config (settings members) := by
  induction members generalizing seen config with
  | nil => rfl
  | cons member members ih =>
      obtain ⟨key, value⟩ := member
      have others := fun member inside => strings member (List.mem_cons_of_mem _ inside)
      rw [settings_cons] at once ⊢
      cases found : Field.ofPieces? key with
      | none =>
          rw [found] at once
          rw [assignMembers_unknown (strings _ List.mem_cons_self) found]
          exact ih others once
      | some field =>
          rw [found] at once
          have once' : (field :: seen ++ (settings members).map Prod.fst).Nodup :=
            List.nodup_middle.mp once
          have new : field ∉ seen := fun inside =>
            (List.nodup_cons.mp once').1 (List.mem_append_left _ inside)
          rw [assignMembers_known found, if_neg new]
          exact congrArg _ (funext fun next => ih others once')

end Members

theorem read?_object (spelled : Json.IsDocument (.object members) document) :
    read? document = assignMembers [] default members := by
  rw [read?, Json.parse?_of_isDocument spelled]
  rfl

variable (spelled : Json.IsDocument (.object members) document)
  (strings : ∀ member ∈ members, Json.IsString member.1)

include spelled

theorem sized_of_isDocument : ∀ member ∈ members, Json.Sized member.1 :=
  fun member inside => (Json.parts_of_object ⟨_, spelled⟩ member inside).1

include strings

theorem isSome_strings : ∀ member ∈ members, (Json.string? member.1).isSome = true :=
  fun member inside =>
    (Json.isSome_string?_iff (sized_of_isDocument spelled member inside)).mpr
      (strings member inside)

theorem read?_of_once (once : ¬ Repeats members) :
    read? document = assignAll default (settings members) := by
  rw [read?_object spelled]
  exact assignMembers_of_nodup (isSome_strings spelled strings)
    ((nodup_settings_iff (sized_of_isDocument spelled)).mpr once)

/-- What a configuration takes from an object: each field is what the member with its name says,
and where none has its name it is the default. -/
structure Follows (members : List (List Json.Piece × Json)) (config : Config Float32) : Prop where
  held : ∀ (field : Field) (key : List Json.Piece) (value : Json),
    (key, value) ∈ members → field.Named key → field.Holds config value
  kept : ∀ field : Field, (∀ member ∈ members, ¬ field.Named member.1) →
    field.Agrees config default

end Objects

section Arrays

variable {fields : List Field} {items : List Json} {config : Config Float32} {document : String}

variable (spelled : Json.IsDocument (.array items) document)

include spelled

end Arrays

end Config

end HdrGain
