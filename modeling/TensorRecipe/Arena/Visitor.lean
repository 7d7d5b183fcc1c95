import TensorRecipe.Key

/-!
# Walks

A walk visits a tree depth first.  At a recipe or a loop it visits the indices the node carries,
then the body; at any other node the children.  A `Visitor` is told when a node is entered and when
it is left; where it declines to enter, nothing below is visited and the node is not left.  What the
visitor has gathered survives a walk that stops at an unknown handle.
-/

namespace TensorRecipe

/-- What a walk visits: a node of the tree, or an index that a node carries. -/
inductive Visited where
  | node (id : NodeId) (node : Node)
  | index (i : Index) (info : IndexInfo)

namespace Visited

/-- The key of what is visited. -/
def key : Visited → Key
  | node id _ => .node id
  | index i _ => .index i

/-- The kind of a node, or the name of an index. -/
def label : Visited → String
  | node _ n => n.name
  | index _ info => info.name

end Visited

/-- What to do on the way down and on the way up, with a memory of type `σ`. -/
structure Visitor (σ : Type) where
  /-- On entering; the answer is whether to go on below. -/
  enter : Visited → σ → Bool × σ
  /-- On leaving what was entered. -/
  leave : Visited → σ → σ

/-- A walk keeps the visitor's memory also when it stops. -/
abbrev Walk (σ : Type) : Type → Type := EStateM Fault σ

namespace Visitor

variable {σ : Type}

/-- The visitor that enters everything and remembers nothing. -/
def silent : Visitor Unit := ⟨fun _ _ => (true, ()), fun _ _ => ()⟩

/-- The visitor that enters everything and gathers on the way down. -/
def gather (collect : Visited → σ → σ) : Visitor σ :=
  ⟨fun visited memory => (true, collect visited memory), fun _ memory => memory⟩

/-- Visit an index that a node carries; nothing lies below it. -/
def visitIndex (v : Visitor σ) (a : Arena) (i : Index) : Walk σ Unit := do
  let info ← MonadExcept.ofExcept (a.indexInfo i)
  if ← modifyGet (v.enter (.index i info)) then
    modify (v.leave (.index i info))

/-- Walk the tree at a node, at most so deep. -/
def walkWithin (v : Visitor σ) (a : Arena) : Nat → NodeId → Walk σ Unit
  | 0, _ => throw .cyclic
  | depth + 1, id => do
    let node ← MonadExcept.ofExcept (a.get id)
    if ← modifyGet (v.enter (.node id node)) then
      node.attributes.forM (v.visitIndex a)
      node.children.forM (walkWithin v a depth)
      modify (v.leave (.node id node))

/-- Walk the tree at a node. -/
def walk (v : Visitor σ) (a : Arena) (root : NodeId) : Walk σ Unit :=
  v.walkWithin a (a.size + 1) root

end Visitor

end TensorRecipe
