import TensorRecipe.Extraction.Memory
import TensorRecipe.Extraction.Tally

/-!
# Placing temporaries

Once the sums of a region are replaced, its temporaries are bound.  `bindTemporaries` rebuilds the
region from below and counts references as it goes; a temporary is bound by a let around the lowest
node whose tree holds every reference to it, those from values of temporaries bound there included.
A bare reference is such a node only where it is the body of a loop, or a value or the body of a
let, so that no temporary leaves a scope that holds all of its uses.
-/

namespace TensorRecipe

namespace Extraction

/-- What is to be placed: the temporaries, numbered in the order of their completion, and how often
each is used in the whole region. -/
structure Plan where
  temporaries : List Temporary
  totals : Tally

namespace Plan

/-- The number of the temporary that a node refers to. -/
def refersTo? (temporaries : List Temporary) : Node → Option Nat
  | .var name => temporaries.findIdx? (·.name == name)
  | _ => none

/-- Count the references in the tree at a node. -/
def countWithin (temporaries : List Temporary) (a : Arena) : Nat → NodeId → Except Fault Tally
  | 0, _ => .error .cyclic
  | depth + 1, id => do
    let node ← a.get id
    match refersTo? temporaries node with
    | some t => return [(t, 1)]
    | none =>
      let counts ← node.children.mapM (countWithin temporaries a depth)
      return counts.foldl Tally.merge []

/-- The plan for a region with the given body: references are counted in the body and in the value
of every temporary. -/
def ofRegion (temporaries : List Temporary) (body : NodeId) (a : Arena) : Except Fault Plan := do
  let roots := body :: temporaries.map Temporary.value
  let counts ← roots.mapM (countWithin temporaries a (a.size + 1))
  return { temporaries, totals := counts.foldl Tally.merge [] }

/-- The let that binds numbered values around a node. -/
def letOf (p : Plan) (values : List (Nat × NodeId)) (body : NodeId) : Node :=
  let bindings := p.temporaries.zipIdx.filterMap fun (temporary, t) =>
    (values.find? (·.1 = t)).map fun (_, value) => Binding.mk temporary.name value
  .letIn bindings body

end Plan

/-- The steps of placing remember which temporaries have been placed. -/
abbrev PlaceM : Type → Type := PassM (List Nat)

/-- Whether the values and the body of a node are places for a temporary even when they are bare
references. -/
def isScope : Node → Bool
  | .forAll _ _ => true
  | .indexSum _ _ => true
  | .letIn _ _ => true
  | _ => false

namespace Plan

variable (p : Plan)

/-- The temporaries that have every use below, and no place yet. -/
def complete (uses : Tally) (placed : List Nat) : List Nat :=
  (uses.filter fun (t, n) => t ∉ placed && n = p.totals.count t).map (·.1)

/-- Place the values of temporaries around a node: the values with their numbers, and the uses in
them. -/
def placeValues (place : NodeId → PlaceM (NodeId × Tally)) (around : NodeId) :
    List Nat → Tally → PlaceM (List (Nat × NodeId) × Tally)
  | [], uses => return ([], uses)
  | t :: ts, uses => do
    PassM.remember (t :: ·)
    match p.temporaries[t]? with
    | none => placeValues place around ts uses
    | some temporary =>
      let (value, more) ← place temporary.value
      PassM.log (.placed temporary.name around)
      let (values, uses) ← placeValues place around ts (uses.merge more)
      return ((t, value) :: values, uses)

/-- Place the temporaries that are complete at a node, then those that their values complete, and so
on.  Every round but the last places one at least. -/
def placeComplete (place : NodeId → PlaceM (NodeId × Tally)) (around : NodeId) :
    Nat → Tally → PlaceM (List (Nat × NodeId) × Tally)
  | 0, uses => return ([], uses)
  | rounds + 1, uses => do
    let placed ← PassM.getMemory
    match p.complete uses placed with
    | [] => return ([], uses)
    | ts =>
      let (values, uses) ← p.placeValues place around ts uses
      let (more, uses) ← placeComplete place around rounds uses
      return (values ++ more, uses)

/-- Bind the temporaries that are complete at a node around it. -/
def bindComplete (place : NodeId → PlaceM (NodeId × Tally)) (id : NodeId) (uses : Tally) :
    PlaceM (NodeId × Tally) := do
  let (values, uses) ← p.placeComplete place id (p.temporaries.length + 1) uses
  let id ← PassM.addUnless values.isEmpty id (p.letOf values id)
  return (id, uses)

/-- Place temporaries in several trees from left to right. -/
def placeChildren (place : NodeId → PlaceM (NodeId × Tally)) :
    List NodeId → PlaceM (List NodeId × Tally)
  | [] => return ([], [])
  | id :: ids => do
    let (id, uses) ← place id
    let (ids, more) ← placeChildren place ids
    return (id :: ids, uses.merge more)

/-- Place temporaries in the tree at a node, at most so deep; `isBody` says that a bare reference
may be a place. -/
def placeWithin : Nat → Bool → NodeId → PlaceM (NodeId × Tally)
  | 0, _, _ => throw .cyclic
  | depth + 1, isBody, id => do
    let node ← PassM.ask (·.get id)
    match refersTo? p.temporaries node with
    | some t =>
      if isBody then p.bindComplete (placeWithin depth false) id [(t, 1)]
      else return (id, [(t, 1)])
    | none =>
      let (children, uses) ← placeChildren (placeWithin depth (isScope node)) node.children
      let id ← PassM.setChildren id node children
      p.bindComplete (placeWithin depth false) id uses

/-- Place temporaries in the tree at a node.  A way down goes through the region and through the
values of temporaries, each of which is entered once, so the depth allowed here stops nothing but a
cycle. -/
def place (isBody : Bool) (id : NodeId) : PlaceM (NodeId × Tally) := do
  let size ← PassM.ask fun a => return a.size
  p.placeWithin ((p.temporaries.length + 1) * (size + 1)) isBody id

/-- Place what is left over once the whole region has been seen, with a warning where nothing refers
to it. -/
def placeLeftOver (warnUnused : Bool) : List (Temporary × Nat) → PlaceM (List Binding)
  | [] => return []
  | (temporary, t) :: rest => do
    let placed ← PassM.getMemory
    if t ∈ placed then placeLeftOver warnUnused rest
    else
      PassM.remember (t :: ·)
      PassM.logIf (warnUnused ∧ p.totals.count t = 0) (.unreferenced temporary.name)
      let (value, _) ← p.place false temporary.value
      let bindings ← placeLeftOver warnUnused rest
      return { name := temporary.name, value } :: bindings

/-- Place all temporaries in a region with the given body. -/
def placeAll (warnUnused : Bool) (body : NodeId) : PlaceM NodeId := do
  let (body, _) ← p.place true body
  let bindings ← p.placeLeftOver warnUnused p.temporaries.zipIdx
  PassM.addUnless bindings.isEmpty body (.letIn bindings body)

end Plan

/-- Bind the temporaries of a region in its body. -/
def bindTemporaries (temporaries : List Temporary) (body : NodeId) : PassM Memory NodeId :=
  if temporaries.isEmpty then
    return body
  else do
    let m ← PassM.getMemory
    let plan ← PassM.ask (Plan.ofRegion temporaries body)
    let (body, _) ← PassM.within [] (plan.placeAll m.options.warnUnused body)
    return body

end Extraction

end TensorRecipe
