import TensorRecipe.Arena.Flatten
import TensorRecipe.Marks
import TensorRecipe.Pass.Rule

/-!
# Binding loops

A recipe declares the indices of what it tabulates, in the order that addresses the result.  Its
body may already loop over some of them, in whatever order its data force.  Binding wraps the rest
into a loop around the body and records on the recipe the transpose between the declared order and
the order in which the loops nest.

`LoopNest` is what the pass hands on; `transposition` computes a transpose.
-/

namespace TensorRecipe

/-- The loops around and below the place where the pass is. -/
structure LoopNest where
  /-- The indices bound by loops around it, which no recipe may bind again. -/
  above : List Index
  /-- The indices that the trees visited so far loop over, the outermost first. -/
  below : List Index
deriving DecidableEq

namespace LoopNest

/-- No loops. -/
def empty : LoopNest := ⟨[], []⟩

end LoopNest

/-! ### Transposes -/

/-- Why flattened loops are no rearrangement of flattened declared indices. -/
inductive Mismatch where
  /-- A loop has no declared position left to it. -/
  | undeclared (i : Index)
  /-- A declared position is left over. -/
  | unlooped (i : Index)
deriving DecidableEq

namespace Mismatch

/-- The index that does not fit. -/
def index : Mismatch → Index
  | undeclared i => i
  | unlooped i => i

/-- The fault, given the name of the index and the declared names. -/
def fault : Mismatch → String → List String → Fault
  | undeclared _ => .undeclared
  | unlooped _ => .unlooped

end Mismatch

/-- The first declared position that holds the index and is not claimed yet. -/
def claim? (declared : List Index) (claimed : List Nat) (i : Index) : Option Nat :=
  (List.range declared.length).find? fun position =>
    declared[position]? = some i && position ∉ claimed

/-- The positions that the loops claim one after another, where some are claimed already. -/
def claimAll (declared : List Index) : List Nat → List Index → Except Mismatch (List Nat)
  | _, [] => .ok []
  | claimed, i :: loops =>
    match claim? declared claimed i with
    | some position => do
      let positions ← claimAll declared (position :: claimed) loops
      return position :: positions
    | none => .error (.undeclared i)

/-- For each loop index its position among the declared ones.  Equal indices take their positions in
order, so the positions are a rearrangement of all there are; failing that, the first loop index
without a position or else the first position without a loop is to blame. -/
def transposition (declared loops : List Index) : Except Mismatch (List Nat) := do
  let positions ← claimAll declared [] loops
  match (List.range declared.length).find? (· ∉ positions) with
  | some position =>
    match declared[position]? with
    | some i => .error (.unlooped i)
    | none => return positions
  | none => return positions

/-! ### The pass -/

namespace LoopBinding

/-- The names of indices. -/
def names (indices : List Index) (a : Arena) : Except Fault (List String) := do
  let infos ← indices.mapM a.indexInfo
  return infos.map IndexInfo.name

/-- Mark the index that does not fit, log it, and stop. -/
def refuse (mismatch : Mismatch) (declared : List Index) : PassM Marks (List Nat) := do
  PassM.remember (·.mark (.index mismatch.index))
  let info ← PassM.ask (·.indexInfo mismatch.index)
  let declared ← PassM.ask (names declared)
  PassM.log (.unresolvable info.name declared)
  throw (mismatch.fault info.name declared)

/-- The transpose from declared indices to loops, both flattened first. -/
def transpose (declared loops : List Index) : PassM Marks (List Nat) := do
  let declared ← PassM.ask (·.flatten declared)
  let loops ← PassM.ask (·.flatten loops)
  match transposition declared loops with
  | .ok positions => return positions
  | .error mismatch => refuse mismatch declared

/-- Bind the indices of a recipe.  Those bound around it are not its own; of the rest, those its
body does not loop over yet get a loop around the body.  To what lies around the recipe, its loops
are loops below. -/
def bindRecipe (r : Recipe) (visit : Visit Marks LoopNest) (id : NodeId)
    (nest : LoopNest) : PassM Marks (NodeId × LoopNest) := do
  let (body, inner) ← visit r.body ⟨nest.above, []⟩
  let declared := r.indices.toList.filter (· ∉ nest.above)
  let free := declared.filter (· ∉ inner.below)
  let below := free ++ inner.below
  let positions ← transpose declared below
  PassM.log (.bound id free.length positions)
  let body ← PassM.addUnless free.isEmpty body (.forAll free body)
  let id ← PassM.addNode (.recipe { r with body, transpose := some positions })
  return (id, ⟨nest.above, below ++ nest.below⟩)

/-- Go on below a loop, whose indices are bound there; the node is made anew if its body changed. -/
def enterLoop (build : List Index → NodeId → Node) (indices : List Index) (body : NodeId)
    (visit : Visit Marks LoopNest) (id : NodeId) (nest : LoopNest) :
    PassM Marks (NodeId × List Index) := do
  let (new, inner) ← visit body ⟨indices ++ nest.above, nest.below⟩
  let id ← PassM.addUnless (new = body) id (build indices new)
  return (id, inner.below)

/-- The values of bindings have loops of their own, which take no part in the order of those of the
expression that uses them. -/
def bindValue (visit : Visit Marks LoopNest) (above : List Index) (b : Binding) :
    PassM Marks Binding := do
  let (value, _) ← visit b.value ⟨above, []⟩
  return { b with value }

/-- Bind in the values of a let, each by itself, and in its body. -/
def bindLet (bindings : List Binding) (body : NodeId) (visit : Visit Marks LoopNest)
    (id : NodeId) (nest : LoopNest) : PassM Marks (NodeId × LoopNest) := do
  let new ← bindings.mapM (bindValue visit nest.above)
  let (newBody, nest) ← visit body nest
  let id ← PassM.addUnless (newBody = body ∧ new = bindings) id (.letIn new newBody)
  return (id, nest)

/-- What becomes of each node. -/
def rule : Rule Marks LoopNest
  | visit, id, .recipe r, nest => bindRecipe r visit id nest
  | visit, id, .forAll indices body, nest => do
    let (id, below) ← enterLoop .forAll indices body visit id nest
    return (id, ⟨nest.above, indices.reverse ++ below⟩)
  | visit, id, .indexSum indices body, nest => do
    let (id, below) ← enterLoop .indexSum indices body visit id nest
    return (id, ⟨nest.above, below⟩)
  | visit, id, .letIn bindings body, nest => bindLet bindings body visit id nest
  | visit, id, node, nest => Rule.rebuild visit id node nest

/-- Bind the indices of every recipe in the tree at a node.  The pass remembers which indices it
could not bind. -/
def bind (root : NodeId) : PassM Marks NodeId := do
  let (id, _) ← rule.transform root LoopNest.empty
  return id

/-- Bind by a pass of its own, which begins without marks.  What it marks is marked here too, whether
it goes through or stops. -/
def bindFresh (root : NodeId) : PassM Marks NodeId := PassM.aside .empty Marks.markAll (bind root)

end LoopBinding

end TensorRecipe
