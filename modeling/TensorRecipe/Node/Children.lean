import TensorRecipe.Fault

/-!
# Giving a node other children

`Node.setChildren` puts other children into a node, if they are as many as it has.
-/

namespace TensorRecipe

namespace Node

/-- The node with other children, in the order of `children`. -/
def setChildren (node : Node) (new : List NodeId) : Except Fault Node :=
  if new.length = node.children.length then
    .ok (node.replaceChildren new)
  else
    .error (.arity node.name node.children.length new.length)

end Node

end TensorRecipe
