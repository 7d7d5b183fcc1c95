import TensorRecipe.Arena.Flatten
import TensorRecipe.Pass.Rule

/-!
# Substitution of indices

A `Substitution` gives some indices a replacement.  It replaces index leaves, all at once.  Where an
index is replaced by another, declared and scoped indices are renamed along.  Where it is replaced
by anything else, a recipe no longer declares it, but a loop over it still runs: its body only
refers to it no more.
-/

namespace TensorRecipe

/-- The replacements of indices; an index without one is left alone. -/
abbrev Substitution : Type := Index → Option NodeId

namespace Substitution

/-- The substitution of a list of entries, of which the last for an index counts. -/
def ofEntries (entries : List (Index × NodeId)) : Substitution := fun i =>
  (entries.reverse.find? (·.1 = i)).map (·.2)

/-- The index that an index becomes, unless it becomes something else. -/
def renamed (s : Substitution) (a : Arena) (i : Index) : Except Fault (Option Index) :=
  match s i with
  | none => return some i
  | some id => do
    match ← a.get id with
    | .index j => return some j
    | _ => return none

/-- Declared indices, renamed or left out. -/
def renameGroup (s : Substitution) (group : List Index) (a : Arena) :
    Except Fault (List Index) := do
  let indices ← group.mapM (s.renamed a)
  return indices.filterMap id

/-- The declared indices of a recipe, renamed or left out. -/
def renameGroups (s : Substitution) (g : IndexDeclaration) (a : Arena) :
    Except Fault IndexDeclaration := do
  let domain ← s.renameGroup g.domain a
  let basis ← s.renameGroup g.basis a
  let point ← s.renameGroup g.point a
  return { domain, basis, point }

/-- Scoped indices, renamed or kept. -/
def renameScope (s : Substitution) (scope : List Index) (a : Arena) :
    Except Fault (List Index) := do
  let indices ← scope.mapM (s.renamed a)
  return List.zipWith (fun (new : Option Index) i => new.getD i) indices scope

/-- The transpose of a recipe whose declared indices were renamed: it is kept if it still has as
many scalar indices to place. -/
def keptTranspose (r : Recipe) (indices : IndexDeclaration) (a : Arena) :
    Except Fault (Option (List Nat)) :=
  match r.transpose with
  | none => return none
  | some transpose => do
    let new ← a.flatten indices.toList
    let old ← a.flatten r.indices.toList
    return if new.length = old.length then some transpose else none

/-- Rename the indices of a loop, and go on below. -/
def renameLoop (s : Substitution) (build : List Index → NodeId → Node) (indices : List Index)
    (body : NodeId) (visit : Visit Unit Unit) (id : NodeId) : PassM Unit (NodeId × Unit) := do
  let renamed ← PassM.ask (s.renameScope indices)
  if renamed = indices then
    Rule.rebuild visit id (build indices body) ()
  else
    let (body, _) ← visit body ()
    let id ← PassM.addNode (build renamed body)
    return (id, ())

/-- Rename the declared indices of a recipe, and go on below. -/
def renameRecipe (s : Substitution) (r : Recipe) (visit : Visit Unit Unit) (id : NodeId) :
    PassM Unit (NodeId × Unit) := do
  let indices ← PassM.ask (s.renameGroups r.indices)
  let (body, _) ← visit r.body ()
  if indices = r.indices ∧ body = r.body then
    return (id, ())
  else
    let transpose ← PassM.ask (keptTranspose r indices)
    let id ← PassM.addNode (.recipe { indices, body, transpose })
    return (id, ())

/-- What becomes of each node. -/
def rule (s : Substitution) : Rule Unit Unit
  | _, id, .index i, _ => return ((s i).getD id, ())
  | visit, id, .recipe r, _ => s.renameRecipe r visit id
  | visit, id, .forAll indices body, _ => s.renameLoop .forAll indices body visit id
  | visit, id, .indexSum indices body, _ => s.renameLoop .indexSum indices body visit id
  | visit, id, node, _ => Rule.rebuild visit id node ()

/-- Substitute throughout the tree at a node. -/
def apply (s : Substitution) (root : NodeId) : PassM Unit NodeId := do
  let (id, _) ← s.rule.transform root ()
  return id

end Substitution

end TensorRecipe
