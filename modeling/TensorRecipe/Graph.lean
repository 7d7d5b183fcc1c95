import TensorRecipe.Arena.Visitor
import TensorRecipe.Decimal.Plain

/-!
# Graphs of walks

A `Graph` records what walks have met: one vertex for each node or index, and one edge for each pair
of a node and what hangs from it.  A shared tree is one vertex with several edges to it.  A graph
may record several walks; `path` is the way from the root of the walk that is under way.
-/

namespace TensorRecipe

/-- A vertex: what it stands for and how it is labelled. -/
structure Vertex where
  key : Key
  label : String
deriving DecidableEq

namespace Visited

/-- A variable and a constant are labelled by what they are, anything else by its kind or name. -/
def vertexLabel : Visited → String
  | node _ (.var name) => name
  | node _ (.constant value) => value.plain
  | visited => visited.label

/-- The vertex of what is visited. -/
def vertex (visited : Visited) : Vertex := ⟨visited.key, visited.vertexLabel⟩

end Visited

/-- What walks have met, in the order in which they met it. -/
structure Graph where
  vertices : List Vertex
  /-- Pairs of positions among the vertices. -/
  edges : List (Nat × Nat)
  /-- The positions of the vertices entered and not yet left, the innermost first. -/
  path : List Nat
deriving DecidableEq

namespace Graph

/-- The graph before any walk. -/
def empty : Graph := ⟨[], [], []⟩

/-- The position of the vertex of a key. -/
def position? (g : Graph) (key : Key) : Option Nat := g.vertices.findIdx? (·.key == key)

/-- Join the innermost vertex of the path to another, unless they are joined already. -/
def link (g : Graph) (position : Nat) : Graph :=
  match g.path with
  | [] => g
  | parent :: _ =>
    if (parent, position) ∈ g.edges then g else { g with edges := g.edges ++ [(parent, position)] }

/-- Enter what has no vertex yet; what has one is only joined to the path. -/
def enter (visited : Visited) (g : Graph) : Bool × Graph :=
  match g.position? visited.key with
  | some position => (false, g.link position)
  | none =>
    let position := g.vertices.length
    let joined := { g with vertices := g.vertices ++ [visited.vertex] }.link position
    (true, { joined with path := position :: joined.path })

/-- Leave the innermost vertex of the path. -/
def leave (g : Graph) : Graph := { g with path := g.path.tail }

/-- The visitor that records a walk. -/
def recorder : Visitor Graph := ⟨enter, fun _ g => g.leave⟩

/-- Record the walk from a root. -/
def record (a : Arena) (root : NodeId) : Walk Graph Unit := recorder.walk a root

/-- The graph of the tree at a node. -/
def ofTree (a : Arena) (root : NodeId) : Except Fault Graph :=
  match (record a root).run empty with
  | .ok _ g => .ok g
  | .error fault _ => .error fault

end Graph

end TensorRecipe
