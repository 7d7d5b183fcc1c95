import TensorRecipe.Arena.Flatten
import TensorRecipe.Order.Ascending

/-!
# Free indices

An index leaf is free in a tree when no loop around it scopes the index itself or all of its scalar
factors.  A recipe declares its indices but does not bind them.
-/

namespace TensorRecipe

namespace Arena

/-- Whether an index is bound where the indices `bound` are: it is one of them, or all of its scalar
factors are. -/
def isBound (a : Arena) (bound : List Index) (i : Index) : Except Fault Bool :=
  if i ∈ bound then
    return true
  else do
    let factors ← a.flatten [i]
    return factors.all (· ∈ bound)

/-- The indices bound in the body of a node: those around it, those it scopes, and their factors. -/
def boundBelow (a : Arena) (bound : List Index) (node : Node) : Except Fault (List Index) :=
  match node.loopIndices with
  | some indices => do
    let factors ← a.flatten indices
    return indices ++ factors ++ bound
  | none => return bound

/-- The indices free in the tree at a node, where the indices `bound` are bound. -/
def freeWithin (a : Arena) : Nat → List Index → NodeId → Except Fault (List Index)
  | 0, _, _ => .error .cyclic
  | depth + 1, bound, id => do
    match ← a.get id with
    | .index i => return if ← a.isBound bound i then [] else [i]
    | node =>
      let below ← a.boundBelow bound node
      let free ← node.children.mapM (freeWithin a depth below)
      return Ascending.ofList free.flatten

/-- The indices free in the tree at a node, in ascending order. -/
def freeIndices (a : Arena) (id : NodeId) : Except Fault (List Index) :=
  a.freeWithin (a.size + 1) [] id

end Arena

end TensorRecipe
