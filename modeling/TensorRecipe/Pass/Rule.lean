import TensorRecipe.Pass.Basic

/-!
# Transforming by rules

A pass over trees is given by a `Rule`: what becomes of one node, given how to transform what lies
below it.  Along with handles it passes on a value of type `τ`, from left to right.  `Rule.rebuild`
is the rule that changes nothing by itself: it transforms the children and makes a new node only
where one of them changed, so that untouched trees stay shared.  Other rules fall back on it.
-/

namespace TensorRecipe

/-- How to transform the tree at a handle: the handle of the new tree, and the value passed on. -/
abbrev Visit (ω τ : Type) : Type := NodeId → τ → PassM ω (NodeId × τ)

/-- What becomes of a node, given how to transform what lies below it. -/
abbrev Rule (ω τ : Type) : Type := Visit ω τ → NodeId → Node → τ → PassM ω (NodeId × τ)

namespace Visit

variable {ω τ : Type}

/-- Transform several trees from left to right. -/
def all (visit : Visit ω τ) : List NodeId → τ → PassM ω (List NodeId × τ)
  | [], passed => return ([], passed)
  | id :: ids, passed => do
    let (id, passed) ← visit id passed
    let (ids, passed) ← all visit ids passed
    return (id :: ids, passed)

end Visit

namespace Rule

variable {ω τ : Type}

/-- Transform the children, and make a new node if one of them changed. -/
def rebuild : Rule ω τ := fun visit id node passed => do
  let (children, passed) ← visit.all node.children passed
  let id ← PassM.setChildren id node children
  return (id, passed)

/-- Transform the tree at a handle by a rule, at most so deep. -/
def transformWithin (rule : Rule ω τ) : Nat → Visit ω τ
  | 0, _, _ => throw .cyclic
  | depth + 1, id, passed => do
    let node ← PassM.ask (·.get id)
    rule (transformWithin rule depth) id node passed

/-- How deep a transformation may go.  A way down through more nodes than there are meets one of
them twice; and where a handle names nothing yet, the way may go on through nodes that the pass
appends, of which there are never more than handles can name. -/
def maxDepth (a : Arena) : Nat := a.size + UInt32.size

/-- Transform the tree at a handle by a rule. -/
def transform (rule : Rule ω τ) : Visit ω τ := fun id passed => do
  let depth ← PassM.ask fun a => return maxDepth a
  rule.transformWithin depth id passed

end Rule

end TensorRecipe
