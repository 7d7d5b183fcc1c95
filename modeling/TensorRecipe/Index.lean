/-!
# Indices

An index runs over `extent` values and plays one role in a recipe.  `Index` is its handle, a
position in the index table of an arena; `IndexInfo` is the entry there.  An entry with factors is a
tensor-product index over them.  `IndexDeclaration` are the indices a recipe declares, in the order
that addresses its result.
-/

namespace TensorRecipe

/-- The handle of an index: its position in the index table.  Names are for display only, so two
indices are the same when their handles are. -/
structure Index where
  pos : Nat
deriving DecidableEq

instance : LT Index := ⟨fun i j => i.pos < j.pos⟩

instance : DecidableLT Index := fun i j => inferInstanceAs (Decidable (i.pos < j.pos))

namespace Index

/-- The text by which messages refer to an index. -/
def label (i : Index) : String := "index#" ++ toString i.pos

end Index

/-- The role an index plays in a recipe. -/
inductive IndexRole where
  | domain
  | basisFunction
  | point
  | free
deriving DecidableEq

namespace IndexRole

/-- The display class of a role. -/
def displayClass : IndexRole → String
  | domain => "domain"
  | basisFunction => "basis_function"
  | point => "point"
  | free => "free"

end IndexRole

/-- What the index table holds of one index. -/
structure IndexInfo where
  name : String
  extent : Nat
  role : IndexRole
  /-- The factors of a tensor-product index, outermost first; a scalar index has none. -/
  factors : List Index
deriving DecidableEq

namespace IndexInfo

/-- An index with at least one factor is composite. -/
def isComposite (info : IndexInfo) : Bool := !info.factors.isEmpty

end IndexInfo

/-- The indices a recipe declares, by role. -/
structure IndexDeclaration where
  domain : List Index
  basis : List Index
  point : List Index
deriving DecidableEq

namespace IndexDeclaration

/-- The three groups in addressing order. -/
def groups (g : IndexDeclaration) : List (List Index) := [g.domain, g.basis, g.point]

/-- All declared indices in addressing order. -/
def toList (g : IndexDeclaration) : List Index := g.domain ++ g.basis ++ g.point

/-- How many indices are declared. -/
def size (g : IndexDeclaration) : Nat := g.domain.length + g.basis.length + g.point.length

/-- Whether nothing is declared. -/
def isEmpty (g : IndexDeclaration) : Bool := g.size == 0

end IndexDeclaration

end TensorRecipe
