import TensorRecipe.Arena.Basic

/-!
# Keys

A `Key` names anything that can be visited or marked: a node or an index.  Nodes come before
indices, and each kind is ordered by its handles.
-/

namespace TensorRecipe

/-- The handle of a node or of an index. -/
inductive Key where
  | node (id : NodeId)
  | index (i : Index)
deriving DecidableEq

namespace Key

/-- Nodes come before indices. -/
def before : Key → Key → Bool
  | node a, node b => a < b
  | node _, index _ => true
  | index _, node _ => false
  | index i, index j => i < j

instance : LT Key := ⟨fun a b => a.before b⟩

instance : DecidableLT Key := fun a b => inferInstanceAs (Decidable (a.before b))

/-- The text by which a node or an index is referred to. -/
def label : Key → String
  | node id => id.label
  | index i => i.label

end Key

end TensorRecipe
