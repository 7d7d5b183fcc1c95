import TensorRecipe.Index
import TensorRecipe.Binary64.Basic

/-!
# Nodes

A recipe is an expression tree whose nodes refer to one another by handles.  `Node.children` lists
the handles a node refers to, and `Node.replaceChildren` puts others in their place.  The indices a
recipe declares and those a loop scopes are attributes of the node, not children.
-/

namespace TensorRecipe

/-- The handle of a node: its position in the node table. -/
structure NodeId where
  pos : Nat
deriving DecidableEq

instance : LT NodeId := ⟨fun a b => a.pos < b.pos⟩

instance : DecidableLT NodeId := fun a b => inferInstanceAs (Decidable (a.pos < b.pos))

namespace NodeId

/-- The text by which messages refer to a node. -/
def label (id : NodeId) : String := "expr#" ++ toString id.pos

end NodeId

/-- A tabulated quantity: the indices that address it and the expression of one entry. -/
structure Recipe where
  indices : IndexDeclaration
  body : NodeId
  /-- Once loops are bound: for each flattened loop index, from the outermost, its position in the
  flattened declared order. -/
  transpose : Option (List Nat)
deriving DecidableEq

/-- A name and the expression it stands for. -/
structure Binding where
  name : String
  value : NodeId
deriving DecidableEq

/-- The operators on any number of operands.  The last operand of a wave is its body; the others are
its state. -/
inductive Operator where
  | sum
  | product
  | leviCivita
  | compoundVector
  | wave
deriving DecidableEq

namespace Operator

/-- The display name of an operator. -/
def name : Operator → String
  | sum => "Sum"
  | product => "Product"
  | leviCivita => "LeviCivita"
  | compoundVector => "CompoundVector"
  | wave => "Wave"

end Operator

/-- The operators on one operand. -/
inductive UnaryOperator where
  | inverse
  | det
  | abs
deriving DecidableEq

namespace UnaryOperator

/-- The display name of an operator. -/
def name : UnaryOperator → String
  | inverse => "Inverse"
  | det => "Det"
  | abs => "Abs"

end UnaryOperator

/-- The two ways in which a head takes arguments: an aggregate its subscripts, a function its
arguments. -/
inductive Application where
  | subscript
  | call
deriving DecidableEq

namespace Application

/-- The display name of an application. -/
def name : Application → String
  | subscript => "Subscript"
  | call => "Call"

end Application

/-- One node of an expression tree. -/
inductive Node where
  | recipe (r : Recipe)
  /-- The body for each value of the indices. -/
  | forAll (indices : List Index) (body : NodeId)
  /-- The sum of the body over all values of the indices. -/
  | indexSum (indices : List Index) (body : NodeId)
  /-- The body, with names for values; a value may use the names before it. -/
  | letIn (bindings : List Binding) (body : NodeId)
  | var (name : String)
  /-- An index used as a value. -/
  | index (i : Index)
  | constant (value : Binary64)
  | operator (op : Operator) (operands : List NodeId)
  | unary (op : UnaryOperator) (operand : NodeId)
  | apply (how : Application) (head : NodeId) (args : List NodeId)
  | delta (left right : NodeId)
deriving DecidableEq

namespace Node

/-- The display name of a node's kind. -/
def name : Node → String
  | recipe _ => "Recipe"
  | forAll _ _ => "ForAll"
  | indexSum _ _ => "IndexSum"
  | letIn _ _ => "Let"
  | var _ => "Variable"
  | index _ => "Index"
  | constant _ => "Constant"
  | operator op _ => op.name
  | unary op _ => op.name
  | apply how _ _ => how.name
  | delta _ _ => "Delta"

/-- The nodes a node refers to, from left to right. -/
def children : Node → List NodeId
  | recipe r => [r.body]
  | forAll _ body => [body]
  | indexSum _ body => [body]
  | letIn bindings body => bindings.map Binding.value ++ [body]
  | var _ => []
  | index _ => []
  | constant _ => []
  | operator _ operands => operands
  | unary _ operand => [operand]
  | apply _ head args => head :: args
  | delta left right => [left, right]

/-- The node with its children replaced, in the order of `children`, by as many others. -/
def replaceChildren : Node → List NodeId → Node
  | recipe r, new => recipe { r with body := new.headD r.body }
  | forAll indices body, new => forAll indices (new.headD body)
  | indexSum indices body, new => indexSum indices (new.headD body)
  | letIn bindings body, new =>
    letIn (List.zipWith (fun b value => { b with value }) bindings new) (new.getLastD body)
  | var name, _ => var name
  | index i, _ => index i
  | constant value, _ => constant value
  | operator op _, new => operator op new
  | unary op operand, new => unary op (new.headD operand)
  | apply how head _, new => apply how (new.headD head) new.tail
  | delta left right, new => delta (new.headD left) (new.tail.headD right)

/-- The indices a loop binds in its body; no other node binds any. -/
def loopIndices : Node → Option (List Index)
  | forAll indices _ => some indices
  | indexSum indices _ => some indices
  | _ => none

/-- The indices a node carries: those a recipe declares or a loop scopes. -/
def attributes : Node → List Index
  | recipe r => r.indices.toList
  | forAll indices _ => indices
  | indexSum indices _ => indices
  | _ => []

/-- The node with its constant in canonical form. -/
def canonical : Node → Node
  | constant value => constant value.canonical
  | node => node

/-- Nodes are equivalent when they agree up to the form of their constants: all NaNs are alike, and
so are the two zeros. -/
def equiv (a b : Node) : Bool := a.canonical = b.canonical

end Node

end TensorRecipe
