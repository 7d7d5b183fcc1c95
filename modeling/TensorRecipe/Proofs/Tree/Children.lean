import TensorRecipe.Node.Children
import TensorRecipe.Proofs.Tree.Basic

/-!
# Children as a part of a node

A node is its shape and its children, and nothing else (`Node.eq_of_shape`).  So to exchange the
children is to ask for the one node of the same shape that has the new ones
(`Node.setChildren_eq_ok_iff`), and it does not matter which children were there before.

Main statement: the laws by which children are looked up and exchanged
(`Node.setChildren_lawful`).
-/

namespace TensorRecipe

namespace Node

variable {node other : Node} {new : List NodeId}

theorem eq_of_shape (hshape : node.shape = other.shape)
    (hchildren : node.children = other.children) : node = other := by
  cases node with
  | letIn bindings body =>
    cases other with
    | letIn bindings' body' =>
      obtain ⟨hvalues, hbodies⟩ := List.append_inj' hchildren rfl
      rw [Binding.ext_all (Shape.letIn.inj hshape) hvalues, List.singleton_inj.1 hbodies]
    | _ => cases hshape
  | recipe r =>
    cases other with
    | recipe r' =>
      obtain ⟨hindices, htranspose⟩ := Shape.recipe.inj hshape
      have hbody : r.body = r'.body := List.singleton_inj.1 hchildren
      cases r
      cases r'
      simp_all
    | _ => cases hshape
  | _ => cases other <;> cases hshape; cases hchildren; rfl

theorem name_eq_of_shape (h : node.shape = other.shape) : node.name = other.name := by
  cases node <;> cases other <;> simp_all [shape, name]

/-- The node with other children is the one node of the same shape that has them; there must be as
many as before. -/
theorem setChildren_eq_ok_iff : node.setChildren new = .ok other ↔
    other.shape = node.shape ∧ other.children = new ∧ new.length = node.children.length := by
  unfold setChildren
  constructor
  · intro h
    split at h
    · next hlength =>
      cases h
      exact ⟨shape_replaceChildren hlength, children_replaceChildren hlength, hlength⟩
    · cases h
  · rintro ⟨hshape, hchildren, hlength⟩
    rw [if_pos hlength]
    refine congrArg Except.ok (eq_of_shape ?_ ?_)
    · rw [shape_replaceChildren hlength, hshape]
    · rw [children_replaceChildren hlength, hchildren]

theorem setChildren_of_length_ne (h : new.length ≠ node.children.length) :
    node.setChildren new = .error (.arity node.name node.children.length new.length) :=
  if_neg h

/-- Only the shape of a node and the number of its children matter to what is put into it. -/
theorem setChildren_congr (hshape : node.shape = other.shape)
    (hlength : node.children.length = other.children.length) (new : List NodeId) :
    node.setChildren new = other.setChildren new := by
  by_cases h : new.length = other.children.length
  · have hother : other.setChildren new = .ok (other.replaceChildren new) := if_pos h
    obtain ⟨hs, hc, -⟩ := setChildren_eq_ok_iff.1 hother
    rw [hother]
    exact setChildren_eq_ok_iff.2 ⟨hs.trans hshape.symm, hc, h.trans hlength.symm⟩
  · rw [setChildren_of_length_ne h, setChildren_of_length_ne (hlength ▸ h),
      name_eq_of_shape hshape, hlength]

/-- Children that are as many as before can be put into a node: they are found there as they were
given, the shape stays, and whatever is put in afterwards comes out as if they had never been
there.  To put in the children that are there changes nothing.  Children of any other number are
refused, and the report says how many there should be and how many were given. -/
theorem setChildren_lawful (node : Node) :
    (∀ new : List NodeId, new.length = node.children.length →
      ∃ node', node.setChildren new = .ok node' ∧ node'.shape = node.shape ∧
        node'.children = new ∧ ∀ newer, node'.setChildren newer = node.setChildren newer) ∧
      node.setChildren node.children = .ok node ∧
      ∀ new : List NodeId, new.length ≠ node.children.length →
        ∃ fault, node.setChildren new = .error fault ∧
          fault.report = ⟨.transform, .mismatchedArity,
            some (node.name ++ " expects " ++ toString node.children.length ++ " children, got " ++
              toString new.length)⟩ := by
  refine ⟨fun new h => ?_, setChildren_eq_ok_iff.2 ⟨rfl, rfl, rfl⟩, fun new h => ?_⟩
  · have hset : node.setChildren new = .ok (node.replaceChildren new) := if_pos h
    obtain ⟨hshape, hchildren, -⟩ := setChildren_eq_ok_iff.1 hset
    refine ⟨_, hset, hshape, hchildren, setChildren_congr hshape ?_⟩
    rw [hchildren, h]
  · exact ⟨_, setChildren_of_length_ne h, rfl⟩

/-- A let of two names takes three children, of which the last is the body, and refuses two. -/
theorem setChildren_lawful_twoNames :
    let node := letIn [⟨"a", ⟨5⟩⟩, ⟨"b", ⟨6⟩⟩] ⟨7⟩
    (∃ node', node.setChildren [⟨1⟩, ⟨2⟩, ⟨3⟩] = .ok node' ∧ node'.shape = .letIn ["a", "b"] ∧
      node'.children = [⟨1⟩, ⟨2⟩, ⟨3⟩] ∧
      ∀ newer, node'.setChildren newer = node.setChildren newer) ∧
    ∃ fault, node.setChildren [⟨1⟩, ⟨2⟩] = .error fault ∧
      fault.report.details = some "Let expects 3 children, got 2" := by
  obtain ⟨hput, -, hrefuse⟩ := setChildren_lawful (letIn [⟨"a", ⟨5⟩⟩, ⟨"b", ⟨6⟩⟩] ⟨7⟩)
  refine ⟨hput _ rfl, ?_⟩
  obtain ⟨fault, hfault, hreport⟩ := hrefuse [⟨1⟩, ⟨2⟩] (by decide)
  exact ⟨fault, hfault, by rw [hreport]; decide⟩

end Node

end TensorRecipe
