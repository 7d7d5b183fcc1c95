import TensorRecipe.Node
import Mathlib

/-!
# Trees

A `Tree` is what a handle stands for once no node is shared any more: the `Shape` of a node, which
is all it carries besides its children, over the trees of the children.  `Node.shape` and
`Node.children` together say everything about a node, and `Node.replaceChildren` changes the latter
alone (`shape_replaceChildren`, `children_replaceChildren`).

The children of a let are the values of its names, then its body.
-/

namespace TensorRecipe

/-- What a node carries besides its children. -/
inductive Shape where
  | recipe (indices : IndexDeclaration) (transpose : Option (List Nat))
  | forAll (indices : List Index)
  | indexSum (indices : List Index)
  | letIn (names : List String)
  | var (name : String)
  | index (i : Index)
  | constant (value : Binary64)
  | operator (op : Operator)
  | unary (op : UnaryOperator)
  | apply (how : Application)
  | delta
deriving DecidableEq

namespace Shape

/-- The indices a shape mentions: those a recipe declares, a loop scopes or an index leaf is. -/
def indices : Shape → List Index
  | recipe g _ => g.toList
  | forAll is => is
  | indexSum is => is
  | index i => [i]
  | _ => []

/-- The indices a shape binds in its children. -/
def scope : Shape → List Index
  | forAll is => is
  | indexSum is => is
  | _ => []

/-- The names a shape mentions: that of a variable, and those a let binds. -/
def names : Shape → List String
  | letIn ns => ns
  | var x => [x]
  | _ => []

theorem recipe_or (shape : Shape) : (∃ g transpose, shape = recipe g transpose) ∨
    ∀ g transpose, shape ≠ recipe g transpose := by
  cases shape <;> simp

end Shape

theorem Binding.ext_all {bs cs : List Binding} (hnames : bs.map Binding.name = cs.map Binding.name)
    (hvalues : bs.map Binding.value = cs.map Binding.value) : bs = cs := by
  have hzip : ∀ bs : List Binding,
      List.zipWith Binding.mk (bs.map Binding.name) (bs.map Binding.value) = bs := by
    simp [List.zipWith_map, List.zipWith_self]
  rw [← hzip bs, hnames, hvalues, hzip]

namespace Node

/-- What a node carries besides its children. -/
def shape : Node → Shape
  | recipe r => .recipe r.indices r.transpose
  | forAll is _ => .forAll is
  | indexSum is _ => .indexSum is
  | letIn bindings _ => .letIn (bindings.map Binding.name)
  | var x => .var x
  | index i => .index i
  | constant c => .constant c
  | operator op _ => .operator op
  | unary op _ => .unary op
  | apply how _ _ => .apply how
  | delta _ _ => .delta

theorem recipe_or (node : Node) : (∃ r, node = recipe r) ∨ ∀ r, node ≠ recipe r := by
  cases node <;> simp

theorem eq_var {node : Node} {x : String} (h : node.shape = .var x) : node = .var x := by
  cases node with
  | var y => rw [Shape.var.inj h]
  | _ => cases h

theorem map_value_zipWith (bindings : List Binding) :
    ∀ values : List NodeId, values.length = bindings.length →
      (List.zipWith (fun (b : Binding) value => { b with value }) bindings values).map
        Binding.value = values := by
  induction bindings with
  | nil =>
    intro values h
    simp [List.length_eq_zero_iff.1 h]
  | cons b bindings ih =>
    intro values h
    obtain ⟨v, vs, rfl⟩ := List.exists_cons_of_length_eq_add_one h
    simp [ih vs (by simpa using h)]

theorem map_name_zipWith (bindings : List Binding) :
    ∀ values : List NodeId, bindings.length ≤ values.length →
      (List.zipWith (fun (b : Binding) value => { b with value }) bindings values).map
        Binding.name = bindings.map Binding.name := by
  induction bindings with
  | nil => simp
  | cons b bindings ih =>
    intro values h
    cases values with
    | nil => simp at h
    | cons v vs => simp [ih vs (by simpa using h)]

theorem children_replaceChildren {node : Node} {new : List NodeId}
    (h : new.length = node.children.length) : (node.replaceChildren new).children = new := by
  cases node with
  | letIn bindings body =>
    simp only [children, List.length_append, List.length_map, List.length_singleton] at h
    obtain ⟨values, last, rfl⟩ : ∃ values last, new = values ++ [last] :=
      ⟨_, _, (List.dropLast_append_getLast (List.ne_nil_of_length_eq_add_one h)).symm⟩
    have hv : values.length = bindings.length := by simpa using h
    have hz : List.zipWith (fun (b : Binding) value => { b with value }) bindings
        (values ++ [last]) =
        List.zipWith (fun (b : Binding) value => { b with value }) bindings values := by
      rw [← List.append_nil bindings, List.zipWith_append hv.symm]
      simp
    simp only [replaceChildren, children, hz, map_value_zipWith bindings values hv]
    simp
  | recipe r => obtain ⟨b, rfl⟩ := List.length_eq_one_iff.1 h; rfl
  | forAll is body => obtain ⟨b, rfl⟩ := List.length_eq_one_iff.1 h; rfl
  | indexSum is body => obtain ⟨b, rfl⟩ := List.length_eq_one_iff.1 h; rfl
  | unary op x => obtain ⟨b, rfl⟩ := List.length_eq_one_iff.1 h; rfl
  | delta x y => obtain ⟨b, c, rfl⟩ := List.length_eq_two.1 h; rfl
  | apply how head args =>
    obtain ⟨b, bs, rfl⟩ := List.exists_cons_of_length_eq_add_one h
    rfl
  | operator op xs => rfl
  | var x => exact (List.length_eq_zero_iff.1 h).symm
  | index i => exact (List.length_eq_zero_iff.1 h).symm
  | constant c => exact (List.length_eq_zero_iff.1 h).symm

theorem shape_replaceChildren {node : Node} {new : List NodeId}
    (h : new.length = node.children.length) : (node.replaceChildren new).shape = node.shape := by
  cases node with
  | letIn bindings body =>
    simp only [children, List.length_append, List.length_map, List.length_singleton] at h
    simp only [replaceChildren, shape]
    rw [map_name_zipWith bindings new (by omega)]
  | _ => rfl

end Node

/-! ### Trees -/

/-- A tree without sharing. -/
inductive Tree where
  | node (shape : Shape) (children : List Tree)

namespace Tree

theorem induct {motive : Tree → Prop}
    (node : ∀ shape children, (∀ t ∈ children, motive t) → motive (.node shape children)) :
    ∀ t, motive t := by
  intro t
  refine Tree.rec (motive_1 := motive) (motive_2 := fun ts => ∀ t ∈ ts, motive t) node ?_ ?_ t
  · simp
  · intro t ts iht ihts u hu
    rcases List.mem_cons.1 hu with rfl | hu
    · exact iht
    · exact ihts u hu

mutual

/-- The number of nodes on a longest way down. -/
def height : Tree → Nat
  | node _ children => heightAll children + 1

/-- The height of the highest tree. -/
def heightAll : List Tree → Nat
  | [] => 0
  | t :: ts => max (height t) (heightAll ts)

end

theorem heightAll_le_iff {ts : List Tree} {n : Nat} :
    heightAll ts ≤ n ↔ ∀ t ∈ ts, t.height ≤ n := by
  induction ts with
  | nil => simp [heightAll]
  | cons t ts ih => simp [heightAll, ih]

theorem height_le_of_mem {t : Tree} {ts : List Tree} (h : t ∈ ts) : t.height ≤ heightAll ts :=
  heightAll_le_iff.1 le_rfl t h

theorem height_lt_of_mem {t : Tree} {shape : Shape} {children : List Tree} (h : t ∈ children) :
    t.height < (node shape children).height :=
  Nat.lt_succ_of_le (height_le_of_mem h)

/-- To go down a tree takes one step more than to go down its children. -/
theorem height_le_iff {shape : Shape} {children : List Tree} {depth : Nat} :
    (node shape children).height ≤ depth ↔
      ∃ d, depth = d + 1 ∧ ∀ t ∈ children, t.height ≤ d := by
  constructor
  · intro h
    rw [height] at h
    exact ⟨depth - 1, by omega, heightAll_le_iff.1 (by omega)⟩
  · rintro ⟨d, rfl, h⟩
    exact Nat.succ_le_succ (heightAll_le_iff.2 h)

theorem height_pos (t : Tree) : 0 < t.height := by
  cases t
  simp [height]

mutual

/-- The indices mentioned anywhere in a tree. -/
def indices : Tree → List Index
  | node shape children => shape.indices ++ indicesAll children

/-- The indices mentioned in any of the trees. -/
def indicesAll : List Tree → List Index
  | [] => []
  | t :: ts => indices t ++ indicesAll ts

end

theorem mem_indicesAll {ts : List Tree} {i : Index} :
    i ∈ indicesAll ts ↔ ∃ t ∈ ts, i ∈ t.indices := by
  induction ts with
  | nil => simp [indicesAll]
  | cons t ts ih => simp [indicesAll, ih]

mutual

/-- The names mentioned anywhere in a tree, of variables and of bindings. -/
def names : Tree → List String
  | node shape children => shape.names ++ namesAll children

/-- The names mentioned in any of the trees. -/
def namesAll : List Tree → List String
  | [] => []
  | t :: ts => names t ++ namesAll ts

end

theorem mem_namesAll {ts : List Tree} {x : String} :
    x ∈ namesAll ts ↔ ∃ t ∈ ts, x ∈ t.names := by
  induction ts with
  | nil => simp [namesAll]
  | cons t ts ih => simp [namesAll, ih]

end Tree

end TensorRecipe
