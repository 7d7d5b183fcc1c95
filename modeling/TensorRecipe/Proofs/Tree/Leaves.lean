import TensorRecipe.Proofs.Tree.Basic

/-!
# Leaves and what is bound there

The only nodes that read something are the leaves: a variable reads a name, an index leaf an index.
`Tree.leaves` lists them, each with the `Binder` of all loops and lets on the way to it.  Indices
are bound together with their factors, which a function `factors` gives.
-/

namespace TensorRecipe

/-- What is bound in a place. -/
structure Binder where
  indices : List Index
  names : List String

namespace Binder

/-- Nothing is bound. -/
def empty : Binder := ⟨[], []⟩

/-- What is bound inside, and what is bound outside. -/
def append (inside outside : Binder) : Binder :=
  ⟨inside.indices ++ outside.indices, inside.names ++ outside.names⟩

instance : Append Binder := ⟨append⟩

@[simp] theorem indices_append (β γ : Binder) : (β ++ γ).indices = β.indices ++ γ.indices := rfl

@[simp] theorem names_append (β γ : Binder) : (β ++ γ).names = β.names ++ γ.names := rfl

@[simp] theorem indices_empty : empty.indices = [] := rfl

@[simp] theorem names_empty : empty.names = [] := rfl

end Binder

namespace Shape

/-- The indices that a shape binds in its children, and their factors. -/
def binds (factors : Index → List Index) (shape : Shape) : List Index :=
  shape.scope ++ shape.scope.flatMap factors

/-- The names that a shape gives to the values among its children. -/
def given : Shape → List String
  | letIn names => names
  | _ => []

theorem names_of_given {shape : Shape} {x : String} (h : x ∈ shape.given) : x ∈ shape.names := by
  cases shape with
  | letIn names => exact h
  | _ => cases h

/-- What a shape binds in its child at a position.  The value of a let sees the names before it. -/
def binder (factors : Index → List Index) (shape : Shape) (position : Nat) : Binder :=
  ⟨shape.binds factors, shape.given.take position⟩

/-- A shape that reads nothing itself. -/
def IsInner (shape : Shape) : Prop := (∀ i, shape ≠ index i) ∧ ∀ x, shape ≠ var x

theorem isInner_or (shape : Shape) :
    shape.IsInner ∨ (∃ i, shape = index i) ∨ ∃ x, shape = var x := by
  cases shape <;> simp [IsInner]

end Shape

/-- What a leaf reads. -/
inductive Leaf where
  | index (i : Index)
  | name (x : String)
deriving DecidableEq

namespace Tree

section

variable (factors : Index → List Index)

mutual

/-- What the leaves of a tree read, each with what is bound on the way to it. -/
def leaves : Tree → List (Binder × Leaf)
  | node (.var x) _ => [(.empty, .name x)]
  | node (.index i) _ => [(.empty, .index i)]
  | node shape children => leavesAll shape 0 children

/-- The leaves of the children of a shape from a position on. -/
def leavesAll (shape : Shape) (position : Nat) : List Tree → List (Binder × Leaf)
  | [] => []
  | t :: ts =>
    (leaves t).map (fun leaf => (leaf.1 ++ shape.binder factors position, leaf.2)) ++
      leavesAll shape (position + 1) ts

end

end

variable {factors : Index → List Index}

theorem leaves_node {shape : Shape} {children : List Tree} (h : shape.IsInner) :
    (node shape children).leaves factors = leavesAll factors shape 0 children := by
  cases shape
  case index i => exact absurd rfl (h.1 i)
  case var x => exact absurd rfl (h.2 x)
  all_goals rfl

theorem mem_leavesAll {shape : Shape} {leaf : Binder × Leaf} :
    ∀ {ts : List Tree} {position : Nat}, leaf ∈ leavesAll factors shape position ts ↔
      ∃ k t, ts[k]? = some t ∧ ∃ inside ∈ t.leaves factors,
        leaf = (inside.1 ++ shape.binder factors (position + k), inside.2)
  | [], _ => by simp [leavesAll]
  | t :: ts, position => by
    rw [leavesAll, List.mem_append, List.mem_map, mem_leavesAll]
    constructor
    · rintro (⟨inside, hin, rfl⟩ | ⟨k, u, hu, inside, hin, rfl⟩)
      · exact ⟨0, t, rfl, inside, hin, rfl⟩
      · exact ⟨k + 1, u, hu, inside, hin, by rw [Nat.add_right_comm, Nat.add_assoc]⟩
    · rintro ⟨k, u, hu, inside, hin, rfl⟩
      cases k with
      | zero =>
        obtain rfl : t = u := by simpa using hu
        exact .inl ⟨inside, hin, rfl⟩
      | succ k =>
        exact .inr ⟨k, u, by simpa using hu, inside, hin, by
          rw [Nat.add_right_comm, Nat.add_assoc]⟩

/-- The leaves below an inner node are those of its children, with what it binds there. -/
theorem mem_leaves_node {shape : Shape} {children : List Tree} (h : shape.IsInner)
    {leaf : Binder × Leaf} : leaf ∈ (node shape children).leaves factors ↔
      ∃ k t, children[k]? = some t ∧ ∃ inside ∈ t.leaves factors,
        leaf = (inside.1 ++ shape.binder factors k, inside.2) := by
  rw [leaves_node h, mem_leavesAll]
  simp only [Nat.zero_add]

theorem mem_of_mem_leaves {t : Tree} {leaf : Binder × Leaf} (h : leaf ∈ t.leaves factors) :
    (∀ i, leaf.2 = .index i → i ∈ t.indices) ∧ ∀ x, leaf.2 = .name x → x ∈ t.names := by
  induction t using Tree.induct generalizing leaf with
  | node shape children ih =>
    rcases shape.isInner_or with hs | ⟨j, rfl⟩ | ⟨y, rfl⟩
    · obtain ⟨k, t, ht, inside, hin, rfl⟩ := (mem_leaves_node hs).1 h
      have hmem := List.mem_of_getElem? ht
      refine ⟨fun i hi => ?_, fun x hx => ?_⟩
      · exact List.mem_append_right _ (mem_indicesAll.2 ⟨t, hmem, (ih t hmem hin).1 i hi⟩)
      · exact List.mem_append_right _ (mem_namesAll.2 ⟨t, hmem, (ih t hmem hin).2 x hx⟩)
    · obtain rfl : leaf = (.empty, .index j) := by simpa [leaves] using h
      simp [indices, Shape.indices]
    · obtain rfl : leaf = (.empty, .name y) := by simpa [leaves] using h
      simp [names, Shape.names]

end Tree

end TensorRecipe
