import HdrGain.Config
import HdrGain.Decimal
import HdrGain.Json
import HdrGain.Scalar

namespace HdrGain

/-! # Configurations as documents

A configuration is written as a JSON object with a member for each field. It is read from such an
object, where any field may be missing and unknown members are passed over, or from an array of the
values in the order of the fields, where the last ones may be missing. -/

namespace Gamut

def tag : Gamut → String
  | .bt709 => "bt709"
  | .displayP3 => "display-p3"
  | .bt2100 => "bt2100"
  | .unspecified => "unspecified"

def ofTag? : String → Option Gamut
  | "bt709" => some .bt709
  | "display-p3" => some .displayP3
  | "bt2100" => some .bt2100
  | "unspecified" => some .unspecified
  | _ => none

theorem ofTag?_tag (gamut : Gamut) : ofTag? gamut.tag = some gamut := by
  cases gamut <;> rfl

end Gamut

namespace HdrTransfer

def tag : HdrTransfer → String
  | .hlg => "hlg"
  | .pq => "pq"

def ofTag? : String → Option HdrTransfer
  | "hlg" => some .hlg
  | "pq" => some .pq
  | _ => none

theorem ofTag?_tag (transfer : HdrTransfer) : ofTag? transfer.tag = some transfer := by
  cases transfer <;> rfl

end HdrTransfer

namespace MapFilter

def tag : MapFilter → String
  | .legacy => "legacy"
  | .bilinear => "bilinear"

def ofTag? : String → Option MapFilter
  | "legacy" => some .legacy
  | "bilinear" => some .bilinear
  | _ => none

theorem ofTag?_tag (filter : MapFilter) : ofTag? filter.tag = some filter := by
  cases filter <;> rfl

end MapFilter

namespace Json

def float32? : Json → Option Float32
  | .number numeral => numeral.float32?
  | _ => none

def word? : Json → Option Nat
  | .number numeral => numeral.word?
  | _ => none

/-- A choice is written as its name, or as an object whose only member has that name and is null. -/
def choice? : Json → Option String
  | .text name => string? name
  | .object [(name, .null)] => string? name
  | _ => none

end Json

namespace Config

inductive Field where
  | hdrRatio
  | mapScaleFactor
  | sdrGamut
  | hdrGamut
  | hdrTransfer
  | mapFilter
deriving DecidableEq, Repr

namespace Field

def all : List Field :=
  [.hdrRatio, .mapScaleFactor, .sdrGamut, .hdrGamut, .hdrTransfer, .mapFilter]

def key : Field → String
  | .hdrRatio => "hdr_ratio"
  | .mapScaleFactor => "map_scale_factor"
  | .sdrGamut => "sdr_gamut"
  | .hdrGamut => "hdr_gamut"
  | .hdrTransfer => "hdr_transfer"
  | .mapFilter => "map_filter"

def ofKey? : String → Option Field
  | "hdr_ratio" => some .hdrRatio
  | "map_scale_factor" => some .mapScaleFactor
  | "sdr_gamut" => some .sdrGamut
  | "hdr_gamut" => some .hdrGamut
  | "hdr_transfer" => some .hdrTransfer
  | "map_filter" => some .mapFilter
  | _ => none

theorem ofKey?_key (field : Field) : ofKey? field.key = some field := by
  cases field <;> rfl

/-- Sets a field to a value, if the value is one for this field. -/
def assign (config : Config Float32) (field : Field) (value : Json) : Option (Config Float32) :=
  match field with
  | .hdrRatio => value.float32?.map ({ config with hdrRatio := · })
  | .mapScaleFactor => value.word?.map ({ config with mapScaleFactor := · })
  | .sdrGamut => (value.choice?.bind Gamut.ofTag?).map ({ config with sdrGamut := · })
  | .hdrGamut => (value.choice?.bind Gamut.ofTag?).map ({ config with hdrGamut := · })
  | .hdrTransfer => (value.choice?.bind HdrTransfer.ofTag?).map ({ config with hdrTransfer := · })
  | .mapFilter => (value.choice?.bind MapFilter.ofTag?).map ({ config with mapFilter := · })

end Field

/-- Sets the fields that the members name, each at most once. `seen` are those set before. -/
def assignMembers : (seen : List Field) → (config : Config Float32) →
    (members : List (List Json.Piece × Json)) → Option (Config Float32)
  | _, config, [] => some config
  | seen, config, (key, value) :: rest => do
      match Field.ofKey? (← Json.string? key) with
      | none => assignMembers seen config rest
      | some field =>
          if field ∈ seen then none
          else assignMembers (field :: seen) (← field.assign config value) rest

/-- Sets fields in their order. There may be fewer values than fields, but not more. -/
def assignItems : (fields : List Field) → (config : Config Float32) → (items : List Json) →
    Option (Config Float32)
  | _, config, [] => some config
  | [], _, _ :: _ => none
  | field :: fields, config, value :: rest => do
      assignItems fields (← field.assign config value) rest

def ofJson? : Json → Option (Config Float32)
  | .object members => assignMembers [] default members
  | .array items => assignItems Field.all default items
  | _ => none

/-- Reads a document. What is missing in it keeps its default. -/
def read? (document : String) : Option (Config Float32) := do
  ofJson? (← Json.parse? document)

/-- Whole ratios show their point, large and small ones have an exponent, and what is no finite
number is null. -/
def ratioStyle : Decimal.Style where
  tie := .toEven
  plain point := decide (-6 < point ∧ point ≤ 13)
  wholeMark := ".0"
  notANumber := "null"
  infinite _ := "null"

def quote (text : String) : String :=
  "\"" ++ text ++ "\""

def Field.write (config : Config Float32) : Field → String
  | .hdrRatio => ratioStyle.write config.hdrRatio
  | .mapScaleFactor => toString config.mapScaleFactor
  | .sdrGamut => quote config.sdrGamut.tag
  | .hdrGamut => quote config.hdrGamut.tag
  | .hdrTransfer => quote config.hdrTransfer.tag
  | .mapFilter => quote config.mapFilter.tag

def write (config : Config Float32) : String :=
  let members := Field.all.map fun field => quote field.key ++ ":" ++ field.write config
  "\x7b" ++ String.intercalate "," members ++ "\x7d"

end Config

end HdrGain
