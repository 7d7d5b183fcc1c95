import TensorRecipe.Key
import TensorRecipe.Order.Ascending

/-!
# Marks

`Marks` are kept beside an arena: the nodes and the indices that made a pass fail.  Nodes themselves
carry no marks; whoever shows them looks here.  `isMarked_mark` says what one more mark changes.
-/

namespace TensorRecipe

/-- What is marked, in ascending order. -/
structure Marks where
  marked : List Key
deriving DecidableEq

namespace Marks

/-- No marks. -/
def empty : Marks := ⟨[]⟩

/-- Mark one more key. -/
def mark (m : Marks) (key : Key) : Marks := ⟨Ascending.insert key m.marked⟩

/-- Mark all that others mark. -/
def markAll (m others : Marks) : Marks := others.marked.foldl mark m

/-- Whether a key is marked. -/
def isMarked (m : Marks) (key : Key) : Bool := key ∈ m.marked

theorem isMarked_mark {m : Marks} {key other : Key} :
    (m.mark key).isMarked other ↔ other = key ∨ m.isMarked other := by
  simp [mark, isMarked, Ascending.mem_insert]

/-- The display class of an index: `error` where it is marked or unknown, else that of its role. -/
def indexClass (m : Marks) (a : Arena) (i : Index) : String :=
  if m.isMarked (.index i) then "error"
  else match a.indexInfo i with
    | .ok info => info.role.displayClass
    | .error _ => "error"

/-- The display class of a key: an index leaf has that of its index. -/
def displayClass (m : Marks) (a : Arena) (key : Key) : String :=
  if m.isMarked key then "error"
  else match key with
    | .index i => m.indexClass a i
    | .node id =>
      match a.get id with
      | .ok (.index i) => m.indexClass a i
      | .ok (.var _) => "variable"
      | .ok _ => "plain"
      | .error _ => "error"

end Marks

end TensorRecipe
