import TensorRecipe.Arena.FreeIndices
import TensorRecipe.Arena.Visitor

/-!
# Scopes of reductions

A reduction met twice is one computation only if it reads the same values both times.  A `Scope` is
a visit of a loop, or of a value or the body of a let, with what it binds.  `bindingSerial` is the
innermost scope that binds something a reduction reads.
-/

namespace TensorRecipe

namespace Extraction

/-- A visit of a node that binds something.  Visits have different serials, so two visits of one
shared node are two scopes. -/
structure Scope where
  serial : Nat
  /-- The bound indices and their factors. -/
  indices : List Index
  /-- The bound names. -/
  names : List String

namespace Scope

/-- Whether a scope binds an index or a name that is read. -/
def binds (s : Scope) (indices : List Index) (names : List String) : Bool :=
  s.indices.any (· ∈ indices) || s.names.any (· ∈ names)

end Scope

/-- Gather the names of variables. -/
def gatherName : Visited → List String → List String
  | .node _ (.var name), names => if name ∈ names then names else name :: names
  | _, names => names

/-- The names of the variables in the tree at a node. -/
def namesRead (root : NodeId) (a : Arena) : Except Fault (List String) :=
  match ((Visitor.gather gatherName).walk a root).run [] with
  | .ok _ names => .ok names
  | .error fault _ => .error fault

/-- The indices that are free in the tree at a node, and their factors. -/
def indicesRead (root : NodeId) (a : Arena) : Except Fault (List Index) := do
  let free ← a.freeIndices root
  let factors ← a.flatten free
  return free ++ factors

/-- The serial of the innermost scope that binds something a reduction reads, or zero where none
does.  Scopes are listed from the innermost. -/
def bindingSerial (scopes : List Scope) (sum : NodeId) (a : Arena) : Except Fault Nat := do
  let indices ← indicesRead sum a
  let names ← namesRead sum a
  return match scopes.find? (·.binds indices names) with
    | some scope => scope.serial
    | none => 0

end Extraction

end TensorRecipe
