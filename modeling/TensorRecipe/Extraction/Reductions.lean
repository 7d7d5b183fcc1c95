import TensorRecipe.Extraction.Plan

/-!
# Extracting reductions

Every index sum that no let of the tree binds becomes a temporary: it is computed once, under a
fresh name, and referred to by that name wherever it stood.  The same sum met again in the same
binding scope of the same region is another reference to the same temporary.

`rule` replaces the sums and leaves their temporaries pending; at the end of a region they are
placed.
-/

namespace TensorRecipe

namespace Extraction

/-- The visits of this pass are told the scopes around them. -/
abbrev ScopedVisit : Type := Visit Memory (List Scope)

/-- Visit a loop, whose indices make a scope. -/
def visitLoop (indices : List Index) (visit : ScopedVisit) (id : NodeId) (node : Node)
    (scopes : List Scope) : PassM Memory (NodeId × List Scope) := do
  let inner ← openScope indices [] scopes
  let (id, _) ← Rule.rebuild visit id node inner
  return (id, scopes)

/-- Make a sum a temporary of its binding scope, and refer to it. -/
def extractSum (indices : List Index) (body : NodeId) (visit : ScopedVisit) (id : NodeId)
    (serial : Nat) (scopes : List Scope) : PassM Memory NodeId := do
  let inner ← openScope indices [] scopes
  let (new, _) ← visit body inner
  let value ← PassM.addUnless (new = body) id (.indexSum indices new)
  let name ← freshName
  PassM.log (.extracted name id serial)
  PassM.remember fun m => { m with region := m.region.add (id, serial) { name, value } }
  PassM.addNode (.var name)

/-- Visit a sum: one that a let binds stays, one that is known in its binding scope is referred to
by its name, and any other is extracted. -/
def visitSum (indices : List Index) (body : NodeId) (visit : ScopedVisit) (id : NodeId)
    (scopes : List Scope) : PassM Memory (NodeId × List Scope) := do
  let m ← PassM.getMemory
  if id ∈ m.bound then
    visitLoop indices visit id (.indexSum indices body) scopes
  else
    let serial ← PassM.ask (bindingSerial scopes id)
    match m.region.find? (id, serial) with
    | some name =>
      let id ← PassM.addNode (.var name)
      return (id, scopes)
    | none =>
      let id ← extractSum indices body visit id serial scopes
      return (id, scopes)

/-- Visit the values of a let.  Each sees the names bound before it; the answer holds all names. -/
def visitValues (visit : ScopedVisit) (scopes : List Scope) :
    List Binding → List String → PassM Memory (List Binding × List String)
  | [], names => return ([], names)
  | b :: bindings, names => do
    let inner ← openScope [] names scopes
    let (value, _) ← visit b.value inner
    let (bindings, names) ← visitValues visit scopes bindings (b.name :: names)
    return ({ b with value } :: bindings, names)

/-- Visit a let, whose values and body are scopes of their own. -/
def visitLet (bindings : List Binding) (body : NodeId) (visit : ScopedVisit) (id : NodeId)
    (scopes : List Scope) : PassM Memory (NodeId × List Scope) := do
  let (newBindings, names) ← visitValues visit scopes bindings []
  let inner ← openScope [] names scopes
  let (newBody, _) ← visit body inner
  let id ← PassM.addUnless (newBody = body ∧ newBindings = bindings) id
    (.letIn newBindings newBody)
  return (id, scopes)

/-- Visit a recipe, whose body is a region of its own. -/
def visitRecipe (r : Recipe) (visit : ScopedVisit) (id : NodeId) (scopes : List Scope) :
    PassM Memory (NodeId × List Scope) := do
  let outer ← exchangeRegion .empty
  let (body, _) ← visit r.body scopes
  let inner ← exchangeRegion outer
  let body ← bindTemporaries inner.pending body
  let id ← PassM.addUnless (body = r.body) id (.recipe { r with body })
  return (id, scopes)

/-- What becomes of each node.  The scopes handed on are those handed in. -/
def rule : Rule Memory (List Scope)
  | visit, id, .indexSum indices body, scopes => visitSum indices body visit id scopes
  | visit, id, .forAll indices body, scopes =>
    visitLoop indices visit id (.forAll indices body) scopes
  | visit, id, .letIn bindings body, scopes => visitLet bindings body visit id scopes
  | visit, id, .recipe r, scopes => visitRecipe r visit id scopes
  | visit, id, node, scopes => Rule.rebuild visit id node scopes

/-- Replace the sums in the tree at a node; the temporaries of its outermost region stay pending. -/
def replaceSums (root : NodeId) : PassM Memory NodeId := do
  let (id, _) ← rule.transform root []
  return id

/-- Extract the sums in the tree at a node.  The names in use there, and the sums that a let binds,
are noted first.  The temporaries of a recipe at the root are placed in its body already. -/
def extract (root : NodeId) : PassM Memory NodeId := do
  PassM.walk (fun a => Visitor.gather (Memory.survey a)) root
  let id ← replaceSums root
  let region ← exchangeRegion .empty
  bindTemporaries region.pending id

end Extraction

end TensorRecipe
