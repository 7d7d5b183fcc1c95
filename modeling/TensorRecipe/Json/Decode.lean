import TensorRecipe.Json.Value

/-!
# Reading records and variants

A record is an object with known members, in any order and among others, or the array of its members
in their order.  A variant is its name alone, or an object with one member: the name and what it
carries.
-/

namespace TensorRecipe

namespace Json

/-- A text. -/
def asText? : Json → Option String
  | .str value => value
  | _ => none

/-- A truth value. -/
def asBool? : Json → Option Bool
  | .bool value => some value
  | _ => none

/-- A natural number below a bound. -/
def asNat? (bound : Nat) : Json → Option Nat
  | .num value => value.toNat? bound
  | _ => none

/-- An array, with each item read alike. -/
def asList? {α : Type} (item? : Json → Option α) : Json → Option (List α)
  | .arr items => items.mapM item?
  | _ => none

/-- Either null or a value. -/
def asOption? {α : Type} (value? : Json → Option α) : Json → Option (Option α)
  | .null => some none
  | json => (value? json).map some

/-- The member of a given name, which may occur once or not at all. -/
def memberOnce? (members : List (String × Json)) (name : String) : Option (Option Json) :=
  match members.filter (·.1 == name) with
  | [] => some none
  | [(_, value)] => some (some value)
  | _ => none

/-- The members of an object whose keys are all text. -/
def textMembers? (members : List (Option String × Json)) : Option (List (String × Json)) :=
  members.mapM fun (key, value) => key.map (·, value)

/-- The members of a record, in the order of their names.  Of an object a known member may be absent
and unknown ones are passed over; an array must hold every member and no more. -/
def record? (names : List String) : Json → Option (List (Option Json))
  | .obj members => do
    let members ← textMembers? members
    names.mapM (memberOnce? members)
  | .arr items => if items.length = names.length then some (items.map some) else none
  | _ => none

/-- The name of a variant and what it carries, if anything. -/
def variant? : Json → Option (String × Option Json)
  | .str (some name) => some (name, none)
  | .obj [(some name, payload)] => some (name, some payload)
  | _ => none

end Json

end TensorRecipe
