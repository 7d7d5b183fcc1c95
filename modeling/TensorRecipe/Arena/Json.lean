import TensorRecipe.Arena.Basic
import TensorRecipe.Binary64.Numeral
import TensorRecipe.Json.Decode

/-!
# Arenas as JSON

`Arena.toJson` and `Arena.ofJson?` give the JSON form of an arena, down to its nodes and indices.
Handles are written as numbers and may name nothing.  A constant that is not finite is written as
null, which no constant is read from.
-/

namespace TensorRecipe

/-- Handles are below this bound. -/
def handleBound : Nat := UInt32.size

/-- Extents and positions are below this bound. -/
def sizeBound : Nat := UInt64.size

namespace Index

/-- The JSON form of an index handle. -/
def toJson (i : Index) : Json := .nat i.pos

/-- Read an index handle. -/
def ofJson? (json : Json) : Option Index := (json.asNat? handleBound).map Index.mk

/-- The JSON form of several index handles. -/
def listToJson (indices : List Index) : Json := .arr (indices.map toJson)

/-- Read several index handles. -/
def listOfJson? (json : Json) : Option (List Index) := json.asList? ofJson?

end Index

namespace NodeId

/-- The JSON form of a node handle. -/
def toJson (id : NodeId) : Json := .nat id.pos

/-- Read a node handle. -/
def ofJson? (json : Json) : Option NodeId := (json.asNat? handleBound).map NodeId.mk

/-- The JSON form of several node handles. -/
def listToJson (ids : List NodeId) : Json := .arr (ids.map toJson)

/-- Read several node handles. -/
def listOfJson? (json : Json) : Option (List NodeId) := json.asList? ofJson?

end NodeId

namespace IndexRole

/-- The name of a role in JSON. -/
def name : IndexRole → String
  | domain => "Domain"
  | basisFunction => "BasisFunction"
  | point => "Point"
  | free => "Free"

/-- The role of a name. -/
def ofName? (name : String) : Option IndexRole :=
  [domain, basisFunction, point, free].find? (·.name == name)

/-- The JSON form of a role is its name. -/
def toJson (role : IndexRole) : Json := .text role.name

/-- Read a role: a variant that carries nothing, or null. -/
def ofJson? (json : Json) : Option IndexRole :=
  match json.variant? with
  | some (name, none) => ofName? name
  | some (name, some .null) => ofName? name
  | _ => none

end IndexRole

namespace IndexInfo

/-- The JSON form of an entry of the index table. -/
def toJson (info : IndexInfo) : Json :=
  .object [("name", .text info.name), ("extent", .nat info.extent), ("kind", info.role.toJson),
    ("factors", Index.listToJson info.factors)]

/-- Read an entry of the index table. -/
def ofJson? (json : Json) : Option IndexInfo := do
  match ← json.record? ["name", "extent", "kind", "factors"] with
  | [some name, some extent, some role, some factors] =>
    return { name := ← name.asText?, extent := ← extent.asNat? sizeBound,
             role := ← IndexRole.ofJson? role, factors := ← Index.listOfJson? factors }
  | _ => none

end IndexInfo

namespace IndexDeclaration

/-- The JSON form of declared indices. -/
def toJson (g : IndexDeclaration) : Json :=
  .object [("domain", Index.listToJson g.domain), ("basis", Index.listToJson g.basis),
    ("point", Index.listToJson g.point)]

/-- Read declared indices. -/
def ofJson? (json : Json) : Option IndexDeclaration := do
  match ← json.record? ["domain", "basis", "point"] with
  | [some domain, some basis, some point] =>
    return { domain := ← Index.listOfJson? domain, basis := ← Index.listOfJson? basis,
             point := ← Index.listOfJson? point }
  | _ => none

end IndexDeclaration

namespace Recipe

/-- The JSON form of a transpose. -/
def transposeToJson : Option (List Nat) → Json
  | some positions => .arr (positions.map Json.nat)
  | none => .null

/-- Read a transpose. -/
def transposeOfJson? (json : Json) : Option (Option (List Nat)) :=
  json.asOption? fun positions => positions.asList? (·.asNat? sizeBound)

/-- The JSON form of a recipe. -/
def toJson (r : Recipe) : Json :=
  .object [("indices", r.indices.toJson), ("body", r.body.toJson),
    ("transpose", transposeToJson r.transpose)]

/-- Read a recipe; a transpose that is absent is none. -/
def ofJson? (json : Json) : Option Recipe := do
  match ← json.record? ["indices", "body", "transpose"] with
  | [some indices, some body, transpose] =>
    return { indices := ← IndexDeclaration.ofJson? indices, body := ← NodeId.ofJson? body,
             transpose := ← transposeOfJson? (transpose.getD .null) }
  | _ => none

end Recipe

namespace Binding

/-- The JSON form of a binding. -/
def toJson (b : Binding) : Json := .object [("name", .text b.name), ("value", b.value.toJson)]

/-- Read a binding. -/
def ofJson? (json : Json) : Option Binding := do
  match ← json.record? ["name", "value"] with
  | [some name, some value] => return { name := ← name.asText?, value := ← NodeId.ofJson? value }
  | _ => none

end Binding

namespace Binary64

/-- The JSON form of a number. -/
def toJson (x : Binary64) : Json :=
  match x.numeral? with
  | some numeral => .num numeral
  | none => .null

/-- Read a finite number. -/
def ofJson? : Json → Option Binary64
  | .num numeral => ofNumeral? numeral
  | _ => none

end Binary64

namespace Node

/-- The JSON form of a variant that carries something. -/
def variantToJson (name : String) (payload : Json) : Json := .object [(name, payload)]

/-- The JSON form of a loop over indices. -/
def loopToJson (name : String) (indices : List Index) (body : NodeId) : Json :=
  variantToJson name (.object [("indices", Index.listToJson indices), ("body", body.toJson)])

/-- The names of the members of an application. -/
def applyMembers : Application → List String
  | .subscript => ["aggregate", "indices"]
  | .call => ["function", "args"]

/-- The JSON form of a node: a variant by the name of its kind. -/
def toJson : Node → Json
  | recipe r => variantToJson "Recipe" r.toJson
  | forAll indices body => loopToJson "ForAll" indices body
  | indexSum indices body => loopToJson "IndexSum" indices body
  | letIn bindings body =>
    variantToJson "Let"
      (.object [("bindings", .arr (bindings.map Binding.toJson)), ("body", body.toJson)])
  | var name => variantToJson "Variable" (.text name)
  | index i => variantToJson "Index" i.toJson
  | constant value => variantToJson "Constant" value.toJson
  | operator op operands => variantToJson op.name (NodeId.listToJson operands)
  | unary op operand => variantToJson op.name operand.toJson
  | apply how head args =>
    variantToJson how.name
      (.object ((applyMembers how).zip [head.toJson, NodeId.listToJson args]))
  | delta left right => variantToJson "Delta" (NodeId.listToJson [left, right])

/-- Read the indices and the body of a loop. -/
def loopOfJson? (build : List Index → NodeId → Node) (json : Json) : Option Node := do
  match ← json.record? ["indices", "body"] with
  | [some indices, some body] =>
    return build (← Index.listOfJson? indices) (← NodeId.ofJson? body)
  | _ => none

/-- Read the bindings and the body of a let. -/
def letOfJson? (json : Json) : Option Node := do
  match ← json.record? ["bindings", "body"] with
  | [some bindings, some body] =>
    return letIn (← bindings.asList? Binding.ofJson?) (← NodeId.ofJson? body)
  | _ => none

/-- Read the head and the arguments of an application. -/
def applyOfJson? (how : Application) (json : Json) : Option Node := do
  match ← json.record? (applyMembers how) with
  | [some head, some args] => return apply how (← NodeId.ofJson? head) (← NodeId.listOfJson? args)
  | _ => none

/-- Read the two sides of a delta. -/
def deltaOfJson? : Json → Option Node
  | .arr [left, right] => return delta (← NodeId.ofJson? left) (← NodeId.ofJson? right)
  | _ => none

/-- Read what a variant of a given name carries. -/
def ofVariant? (name : String) (payload : Json) : Option Node :=
  match name with
  | "Recipe" => (Recipe.ofJson? payload).map recipe
  | "ForAll" => loopOfJson? forAll payload
  | "IndexSum" => loopOfJson? indexSum payload
  | "Let" => letOfJson? payload
  | "Variable" => payload.asText?.map var
  | "Index" => (Index.ofJson? payload).map index
  | "Constant" => (Binary64.ofJson? payload).map constant
  | "Sum" => (NodeId.listOfJson? payload).map (operator .sum)
  | "Product" => (NodeId.listOfJson? payload).map (operator .product)
  | "Subscript" => applyOfJson? .subscript payload
  | "Call" => applyOfJson? .call payload
  | "Delta" => deltaOfJson? payload
  | "LeviCivita" => (NodeId.listOfJson? payload).map (operator .leviCivita)
  | "CompoundVector" => (NodeId.listOfJson? payload).map (operator .compoundVector)
  | "Inverse" => (NodeId.ofJson? payload).map (unary .inverse)
  | "Det" => (NodeId.ofJson? payload).map (unary .det)
  | "Abs" => (NodeId.ofJson? payload).map (unary .abs)
  | "Wave" => (NodeId.listOfJson? payload).map (operator .wave)
  | _ => none

/-- Read a node. -/
def ofJson? (json : Json) : Option Node :=
  match json.variant? with
  | some (name, some payload) => ofVariant? name payload
  | _ => none

end Node

namespace Arena

/-- The JSON form of an arena. -/
def toJson (a : Arena) : Json :=
  .object [("exprs", .arr (a.nodes.toList.map Node.toJson)),
    ("indices", .arr (a.indices.toList.map IndexInfo.toJson))]

/-- Read an arena. -/
def ofJson? (json : Json) : Option Arena := do
  match ← json.record? ["exprs", "indices"] with
  | [some nodes, some indices] =>
    let nodes ← nodes.asList? Node.ofJson?
    let indices ← indices.asList? IndexInfo.ofJson?
    return ⟨nodes.toArray, indices.toArray⟩
  | _ => none

/-- The JSON text of an arena. -/
def write (a : Arena) : String := a.toJson.write

/-- The arena of a JSON text. -/
def read? (text : String) : Option Arena := do
  let json ← Json.read? text
  ofJson? json

end Arena

end TensorRecipe
