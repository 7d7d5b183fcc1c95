import TensorRecipe.Fault
import TensorRecipe.Json.Decode

/-!
# Options of extraction
-/

namespace TensorRecipe

namespace Extraction

/-- How extraction names temporaries, and whether it warns of those that nothing refers to. -/
structure Options where
  stem : String
  warnUnused : Bool
deriving DecidableEq

namespace Options

/-- Temporaries are named after index sums, and warnings are given. -/
def default : Options := ⟨"isum", true⟩

/-- The names of the options in JSON. -/
def members : List String := ["temp_prefix", "warn_unused"]

/-- The JSON form of options. -/
def toJson (o : Options) : Json := .object (members.zip [.text o.stem, .bool o.warnUnused])

/-- The options that are given: those of an object by name, those of an array by place. -/
def given? : Json → Option (List (Option Json))
  | .arr items =>
    if items.length ≤ members.length then
      some (items.map some ++ List.replicate (members.length - items.length) none)
    else none
  | json => json.record? members

/-- Read options; one that is not given is the default. -/
def ofJson? (json : Json) : Option Options := do
  match ← given? json with
  | [stem, warnUnused] =>
    let stem ← match stem with
      | some json => json.asText?
      | none => some default.stem
    let warnUnused ← match warnUnused with
      | some json => json.asBool?
      | none => some default.warnUnused
    return { stem, warnUnused }
  | _ => none

/-- The options of a JSON text. -/
def read (text : String) : Except Fault Options :=
  match (Json.read? text).bind ofJson? with
  | some options => .ok options
  | none => .error .malformedOptions

end Options

end Extraction

end TensorRecipe
