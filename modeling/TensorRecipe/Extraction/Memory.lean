import TensorRecipe.Extraction.Namer
import TensorRecipe.Extraction.Options
import TensorRecipe.Extraction.Scope
import TensorRecipe.Pass.Rule

/-!
# What extraction remembers

Temporaries belong to a `Region`: the body of a recipe, or the whole tree where it is no recipe.
The `Memory` of the pass holds the region it is in, the names that are taken, the sums that a let of
the tree binds already, and how many scopes there have been.
-/

namespace TensorRecipe

namespace Extraction

/-- A named reduction. -/
structure Temporary where
  name : String
  value : NodeId
deriving DecidableEq

/-- The temporaries of one region. -/
structure Region where
  /-- The name of the temporary of each sum met so far, by the scope that binds what it reads. -/
  known : List ((NodeId × Nat) × String)
  /-- The temporaries that wait for their place, in the order of their completion: the value of each
  refers only to those before it. -/
  pending : List Temporary

namespace Region

/-- A region in which nothing has been met. -/
def empty : Region := ⟨[], []⟩

/-- The name of the temporary of a sum in a scope. -/
def find? (r : Region) (key : NodeId × Nat) : Option String :=
  (r.known.find? (·.1 = key)).map (·.2)

/-- Add the temporary of a sum in a scope. -/
def add (r : Region) (key : NodeId × Nat) (temporary : Temporary) : Region :=
  { known := (key, temporary.name) :: r.known, pending := r.pending ++ [temporary] }

end Region

/-- The memory of the pass. -/
structure Memory where
  options : Options
  namer : Namer
  /-- The sums that are values of a let already. -/
  bound : List NodeId
  region : Region
  /-- The serial of the newest scope. -/
  lastScope : Nat

namespace Memory

/-- A fresh memory. -/
def ofOptions (options : Options) : Memory :=
  { options, namer := .ofStem options.stem, bound := [], region := .empty, lastScope := 0 }

/-- Note that a let binds a sum. -/
def noteSum (m : Memory) (sum : NodeId) : Memory :=
  if sum ∈ m.bound then m else { m with bound := sum :: m.bound }

/-- Take the name of a binding, and note its value if that is a sum. -/
def noteBinding (a : Arena) (m : Memory) (b : Binding) : Memory :=
  let m := { m with namer := m.namer.reserve b.name }
  match a.get b.value with
  | .ok (.indexSum _ _) => m.noteSum b.value
  | _ => m

/-- Take every name in use, and note which sums a let binds. -/
def survey (a : Arena) : Visited → Memory → Memory
  | .node _ (.letIn bindings _), m => bindings.foldl (noteBinding a) m
  | .node _ (.var name), m => { m with namer := m.namer.reserve name }
  | _, m => m

end Memory

/-- Begin a scope inside others. -/
def openScope (indices : List Index) (names : List String) (scopes : List Scope) :
    PassM Memory (List Scope) := do
  let factors ← PassM.ask (·.flatten indices)
  PassM.remember fun m => { m with lastScope := m.lastScope + 1 }
  let m ← PassM.getMemory
  return { serial := m.lastScope, indices := indices ++ factors, names } :: scopes

/-- Mint the name of a temporary. -/
def freshName : PassM Memory String := do
  let m ← PassM.getMemory
  let (name, namer) := m.namer.fresh
  PassM.remember fun m => { m with namer }
  return name

/-- Put a region in the place of the current one; the answer is the latter. -/
def exchangeRegion (region : Region) : PassM Memory Region := do
  let m ← PassM.getMemory
  PassM.remember fun m => { m with region }
  return m.region

end Extraction

end TensorRecipe
