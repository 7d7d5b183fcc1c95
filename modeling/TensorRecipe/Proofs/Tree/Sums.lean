import TensorRecipe.Proofs.Tree.Leaves
import TensorRecipe.Proofs.Tree.Unfolding

/-!
# Where sums stand

A node may stand in a tree as the value that a let binds to a name, or in another place, where it is
exposed; where nodes are shared, it may do both.  `Arena.Tidy kept used a id` says that in the tree
at a handle no sums are exposed but those in `kept`, and the bodies of lets that bind a name not
among those in use.
-/

namespace TensorRecipe

namespace Node

/-- The nodes that a let binds to names. -/
def letValues : Node → List NodeId
  | letIn bindings _ => bindings.map Binding.value
  | _ => []

/-- The children of a node that it binds to no names. -/
def exposed : Node → List NodeId
  | letIn _ body => [body]
  | node => node.children

theorem children_eq (node : Node) : node.children = node.letValues ++ node.exposed := by
  cases node <;> rfl

theorem exposed_eq_drop (node : Node) :
    node.exposed = node.children.drop node.shape.given.length := by
  cases node
  case letIn bindings body => simp [exposed, children, shape, Shape.given]
  all_goals rfl

/-- Between nodes of one shape, what relates the children in order relates the exposed ones. -/
theorem forall₂_exposed {R : NodeId → NodeId → Prop} {node new : Node} (hs : new.shape = node.shape)
    (h : List.Forall₂ R node.children new.children) : List.Forall₂ R node.exposed new.exposed := by
  rw [exposed_eq_drop, exposed_eq_drop, hs]
  exact List.forall₂_drop _ h

/-- The node is a let that binds a name not in use. -/
def BindsFresh (used : List String) (node : Node) : Prop := ∃ x ∈ node.shape.given, x ∉ used

end Node

namespace Arena

variable {a b : Arena} {root id c : NodeId} {kept : NodeId → Prop} {used : List String}

/-- A sum over indices stands at the handle. -/
def IsSum (a : Arena) (id : NodeId) : Prop := ∃ is body, a.get id = .ok (.indexSum is body)

/-- A let in the tree at `root` binds the node to a name. -/
def IsLetValue (a : Arena) (root c : NodeId) : Prop :=
  ∃ id node, a.Reaches root id ∧ a.get id = .ok node ∧ c ∈ node.letValues

/-- The node stands in the tree at `root` where no let binds it to a name. -/
def Exposes (a : Arena) (root c : NodeId) : Prop :=
  c = root ∨ ∃ id node, a.Reaches root id ∧ a.get id = .ok node ∧ c ∈ node.exposed

theorem IsLetValue.below (h : a.IsLetValue root c) : a.Below root c := by
  obtain ⟨id, node, hid, hn, hc⟩ := h
  refine .tail' hid ⟨node, hn, ?_⟩
  rw [Node.children_eq]
  exact List.mem_append_left _ hc

theorem IsLetValue.exists_mem (h : a.IsLetValue root c) :
    ∃ node ∈ a.nodes.toList, c ∈ node.letValues := by
  obtain ⟨id, node, -, hn, hc⟩ := h
  exact ⟨node, Array.mem_toList_iff.2 (Array.mem_of_getElem? (get_eq_ok.1 hn)), hc⟩

/-- No sums are exposed below a handle but kept ones and bodies of lets of fresh names. -/
inductive Tidy (kept : NodeId → Prop) (used : List String) (a : Arena) : NodeId → Prop where
  | intro {id : NodeId} {node : Node} (entry : a.get id = .ok node)
    (children : ∀ c ∈ node.children, Tidy kept used a c)
    (exposed : ∀ c ∈ node.exposed, a.IsSum c → kept c ∨ node.BindsFresh used) :
    Tidy kept used a id

namespace Tidy

theorem imp {kept' : NodeId → Prop} (h : a.Tidy kept used id) (hk : ∀ c, kept c → kept' c) :
    a.Tidy kept' used id := by
  induction h with
  | intro entry _ exposed ih =>
    exact .intro entry ih fun c hc hsum => (exposed c hc hsum).imp_left (hk c)

theorem child (h : a.Tidy kept used id) {node : Node} (hn : a.get id = .ok node)
    (hc : c ∈ node.children) : a.Tidy kept used c := by
  cases h with
  | intro entry children _ =>
    obtain rfl := Except.ok.inj (entry.symm.trans hn)
    exact children c hc

theorem exposed (h : a.Tidy kept used id) {node : Node} (hn : a.get id = .ok node)
    (hc : c ∈ node.exposed) (hsum : a.IsSum c) : kept c ∨ node.BindsFresh used := by
  cases h with
  | intro entry _ exposed =>
    obtain rfl := Except.ok.inj (entry.symm.trans hn)
    exact exposed c hc hsum

theorem reaches (h : a.Tidy kept used id) (hc : a.Reaches id c) : a.Tidy kept used c := by
  induction hc with
  | refl => exact h
  | tail _ hstep ih =>
    obtain ⟨node, hn, hmem⟩ := hstep
    exact ih.child hn hmem

/-- A sum in a tidy tree is bound by a let, or kept, or the body of a let of a fresh name; unless it
is the whole tree. -/
theorem sum_cases (h : a.Tidy kept used root) (hc : a.Reaches root c) (hsum : a.IsSum c) :
    c = root ∨ a.IsLetValue root c ∨ kept c ∨
      ∃ id node, a.Reaches root id ∧ a.get id = .ok node ∧ c ∈ node.exposed ∧
        node.BindsFresh used := by
  rcases Relation.ReflTransGen.cases_tail hc with rfl | ⟨id, hid, node, hn, hmem⟩
  · exact .inl rfl
  · rw [Node.children_eq, List.mem_append] at hmem
    rcases hmem with hmem | hmem
    · exact .inr (.inl ⟨id, node, hid, hn, hmem⟩)
    · refine .inr (.inr (((h.reaches hid).exposed hn hmem hsum).imp_right fun hfresh => ?_))
      exact ⟨id, node, hid, hn, hmem, hfresh⟩

/-- A node made anew over other children is tidy, if exposed children that are sums are kept. -/
theorem of_shape {node new : Node} {R : NodeId → NodeId → Prop} (hnew : a.get id = .ok new)
    (hshape : new.shape = node.shape) (hR : List.Forall₂ R node.children new.children)
    (htidy : ∀ c c', R c c' → a.Tidy kept used c')
    (hsum : ∀ c ∈ node.exposed, ∀ c', R c c' → a.IsSum c' → kept c' ∨ node.BindsFresh used) :
    a.Tidy kept used id := by
  refine .intro hnew (fun c' hc' => ?_) fun c' hc' hc's => ?_
  · obtain ⟨c, -, hcc'⟩ := exists_of_mem_right hR hc'
    exact htidy c c' hcc'
  · obtain ⟨c, hc, hcc'⟩ := exists_of_mem_right (Node.forall₂_exposed hshape hR) hc'
    refine (hsum c hc c' hcc' hc's).imp_right fun hfresh => ?_
    rwa [Node.BindsFresh, hshape]

end Tidy

end Arena

end TensorRecipe
