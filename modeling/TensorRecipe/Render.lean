import TensorRecipe.Marks
import TensorRecipe.Decimal.Plain
import TensorRecipe.Text

/-!
# Rendering

`Arena.render` writes a tree on one line.  A sum inside a product stands in parentheses, and the
name of a marked index stands between exclamation marks.
-/

namespace TensorRecipe

namespace Operator

/-- What stands between the operands of an operator that is written between them. -/
def separator : Operator → Option String
  | sum => some " + "
  | product => some " * "
  | _ => none

end Operator

namespace Node

/-- Whether a node is a sum of terms. -/
def isSum : Node → Bool
  | operator .sum _ => true
  | _ => false

end Node

namespace Arena

/-- The name of an index, with its mark. -/
def renderIndex (a : Arena) (m : Marks) (i : Index) : Except Fault String := do
  let info ← a.indexInfo i
  return if m.isMarked (.index i) then "!" ++ info.name ++ "!" else info.name

/-- The names of indices in parentheses. -/
def renderIndices (a : Arena) (m : Marks) (indices : List Index) : Except Fault String := do
  let names ← indices.mapM (a.renderIndex m)
  return "(" ++ joinWith ", " names ++ ")"

/-- An operand, in parentheses if it is a sum inside a product. -/
def renderOperand (a : Arena) (render : NodeId → Except Fault String) (op : Operator)
    (id : NodeId) : Except Fault String := do
  let text ← render id
  let node ← a.get id
  return if op = .product && node.isSum then "(" ++ text ++ ")" else text

/-- One binding of a let. -/
def renderBinding (render : NodeId → Except Fault String) (b : Binding) : Except Fault String := do
  let text ← render b.value
  return b.name ++ " = " ++ text

/-- Several nodes with commas between them. -/
def renderList (render : NodeId → Except Fault String) (ids : List NodeId) :
    Except Fault String := do
  let texts ← ids.mapM render
  return joinWith ", " texts

/-- The text of a node, given the texts of the nodes below it. -/
def renderNode (a : Arena) (m : Marks) (render : NodeId → Except Fault String) :
    Node → Except Fault String
  | .recipe r => do
    let groups ← r.indices.groups.mapM (a.renderIndices m)
    let body ← render r.body
    let transpose := match r.transpose with
      | some positions => ", transpose=" ++ bracketed positions
      | none => ""
    return "Recipe(" ++ joinWith ", " groups ++ ", " ++ body ++ transpose ++ ")"
  | .forAll indices body => do
    let names ← a.renderIndices m indices
    let text ← render body
    return "ForAll(" ++ names ++ ", " ++ text ++ ")"
  | .indexSum indices body => do
    let names ← a.renderIndices m indices
    let text ← render body
    return "IndexSum(" ++ names ++ ", " ++ text ++ ")"
  | .letIn bindings body => do
    let texts ← bindings.mapM (renderBinding render)
    let text ← render body
    return "let " ++ joinWith ", " texts ++ " in " ++ text
  | .var name => return name
  | .index i => a.renderIndex m i
  | .constant value => return value.plain
  | .operator op operands => do
    let texts ← operands.mapM (a.renderOperand render op)
    return match op.separator with
      | some separator => joinWith separator texts
      | none => op.name ++ "(" ++ joinWith ", " texts ++ ")"
  | .unary op operand => do
    let text ← render operand
    return op.name ++ "(" ++ text ++ ")"
  | .apply .subscript head args => do
    let text ← render head
    let texts ← renderList render args
    return text ++ "[" ++ texts ++ "]"
  | .apply .call head args => do
    let text ← render head
    let texts ← renderList render args
    return text ++ "(" ++ texts ++ ")"
  | .delta left right => do
    let texts ← renderList render [left, right]
    return "Delta(" ++ texts ++ ")"

/-- The text of the tree at a node, at most so deep. -/
def renderWithin (a : Arena) (m : Marks) : Nat → NodeId → Except Fault String
  | 0, _ => .error .cyclic
  | depth + 1, id => do
    let node ← a.get id
    a.renderNode m (renderWithin a m depth) node

/-- The text of the tree at a node. -/
def render (a : Arena) (m : Marks) (id : NodeId) : Except Fault String :=
  a.renderWithin m (a.size + 1) id

end Arena

end TensorRecipe
