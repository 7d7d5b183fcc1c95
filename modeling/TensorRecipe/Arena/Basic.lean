import TensorRecipe.Fault

/-!
# Arenas

An `Arena` owns a table of nodes and a table of indices.  Entries are only ever appended, so a
handle names the same entry for good.  A handle that names nothing is a fault of whoever looks it
up, not of the table: nodes may refer to handles that name nothing, or nothing yet.
-/

namespace TensorRecipe

/-- A table of nodes and a table of indices. -/
structure Arena where
  nodes : Array Node
  indices : Array IndexInfo
deriving DecidableEq

namespace Arena

/-- The arena without entries. -/
def empty : Arena := ⟨#[], #[]⟩

/-- How many nodes there are. -/
def size (a : Arena) : Nat := a.nodes.size

/-- The node a handle names. -/
def get (a : Arena) (id : NodeId) : Except Fault Node :=
  match a.nodes[id.pos]? with
  | some node => .ok node
  | none => .error (.unknownNode id)

/-- The entry an index handle names. -/
def indexInfo (a : Arena) (i : Index) : Except Fault IndexInfo :=
  match a.indices[i.pos]? with
  | some info => .ok info
  | none => .error (.unknownIndex i)

/-- The handle of the next node to be added. -/
def nextId (a : Arena) : NodeId := ⟨a.nodes.size⟩

/-- The handle of the next index to be added. -/
def nextIndex (a : Arena) : Index := ⟨a.indices.size⟩

/-- Append a node; its handle is `nextId`. -/
def addNode (a : Arena) (node : Node) : Arena := { a with nodes := a.nodes.push node }

theorem size_addNode (a : Arena) (node : Node) : (a.addNode node).size = a.size + 1 := by
  simp [size, addNode]

theorem get_nextId_addNode (a : Arena) (node : Node) :
    (a.addNode node).get a.nextId = .ok node := by
  simp [get, addNode, nextId]

/-- Append an index; its handle is `nextIndex`. -/
def addIndex (a : Arena) (info : IndexInfo) : Arena := { a with indices := a.indices.push info }

/-- Append a scalar index; the answer is its handle and the arena that has it. -/
def addScalar (a : Arena) (name : String) (extent : Nat) (role : IndexRole) : Index × Arena :=
  (a.nextIndex, a.addIndex { name, extent, role, factors := [] })

/-- The product of the extents of indices. -/
def extentOf (a : Arena) (indices : List Index) : Except Fault Nat := do
  let infos ← indices.mapM a.indexInfo
  return infos.foldl (fun extent info => extent * info.extent) 1

/-- Append a tensor-product index, whose extent is the product of the extents of its factors. -/
def addComposite (a : Arena) (name : String) (role : IndexRole) (factors : List Index) :
    Except Fault (Index × Arena) := do
  let extent ← a.extentOf factors
  return (a.nextIndex, a.addIndex { name, extent, role, factors })

/-- The arena with all constants in canonical form. -/
def canonical (a : Arena) : Arena := { a with nodes := a.nodes.map Node.canonical }

/-- Arenas are equivalent when their tables agree up to the form of constants. -/
def equiv (a b : Arena) : Bool := a.canonical = b.canonical

end Arena

end TensorRecipe
