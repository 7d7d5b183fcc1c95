import TensorRecipe.Graph

/-!
# Graphs in the dot language
-/

namespace TensorRecipe

namespace Graph

/-- How a character stands in a label: a quote and a backslash are escaped, and a line break ends a
line that is set to the left. -/
def escape (c : Char) : List Char :=
  if c = '"' ∨ c = '\\' then ['\\', c]
  else if c = '\n' then ['\\', 'l']
  else [c]

/-- The line of a vertex. -/
def vertexLine (position : Nat) (vertex : Vertex) : String :=
  "    " ++ toString position ++ " [ label = \"" ++
    String.ofList (vertex.label.toList.flatMap escape) ++ "\" ]\n"

/-- The line of an edge. -/
def edgeLine (edge : Nat × Nat) : String :=
  "    " ++ toString edge.1 ++ " -> " ++ toString edge.2 ++ " [ ]\n"

/-- The graph in the dot language: its vertices by number, then its edges. -/
def dot (g : Graph) : String :=
  let vertices := g.vertices.zipIdx.map fun (vertex, position) => vertexLine position vertex
  "digraph \x7b\n" ++ String.join vertices ++ String.join (g.edges.map edgeLine) ++ "\x7d\n"

end Graph

end TensorRecipe
