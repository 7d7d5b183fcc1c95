import TensorRecipe.Proofs.Tree.Leaves

/-!
# Positions in trees

A position in a tree is the list of the numbers of the children on the way down to it.  The body of
a recipe is a region of its own, without the bodies of the recipes in it; what lies in no recipe is
the outermost region.  `Tree.region` tells the region of a position by the way to its top.
-/

namespace TensorRecipe

/-- The top of the region of a position below a node of a shape, given which child the position is
in and the top of its region there. -/
def Shape.regionBelow : Shape → Nat → List Nat → List Nat
  | recipe _ _, k, top => k :: top
  | _, _, [] => []
  | _, k, j :: top => k :: j :: top

theorem Shape.regionBelow_nil {shape : Shape} (h : ∀ g transpose, shape ≠ .recipe g transpose)
    (k : Nat) : shape.regionBelow k [] = [] := by
  cases shape
  case recipe g transpose => exact absurd rfl (h g transpose)
  all_goals rfl

theorem Shape.regionBelow_of_ne_nil (shape : Shape) (k : Nat) {top : List Nat} (h : top ≠ []) :
    shape.regionBelow k top = k :: top := by
  obtain ⟨j, top, rfl⟩ := List.exists_cons_of_ne_nil h
  cases shape <;> rfl

namespace Tree

/-- The tree at a position. -/
def at? : Tree → List Nat → Option Tree
  | t, [] => some t
  | node _ children, k :: p =>
    match children[k]? with
    | some c => at? c p
    | none => none

/-- The top of the region of a position: the body of the innermost recipe around it, or the root. -/
def region : Tree → List Nat → List Nat
  | _, [] => []
  | node shape children, k :: p =>
    match children[k]? with
    | some c => shape.regionBelow k (region c p)
    | none => []

section

variable {shape : Shape} {children : List Tree} {c t u : Tree} {k : Nat} {p q r : List Nat}
  {x : String}

theorem at?_cons_eq_some : (node shape children).at? (k :: p) = some u ↔
    ∃ c, children[k]? = some c ∧ c.at? p = some u := by
  rw [at?]
  split
  · next c hc => simp [hc]
  · next hc => simp [hc]

theorem height_lt_of_at? : ∀ {t u : Tree} {k : Nat} {p : List Nat}, t.at? (k :: p) = some u →
    u.height < t.height
  | node shape children, u, k, p, h => by
    obtain ⟨c, hc, h⟩ := at?_cons_eq_some.1 h
    have hle := height_le_of_mem (List.mem_of_getElem? hc)
    rw [height]
    cases p with
    | nil =>
      obtain rfl : c = u := by simpa [at?] using h
      omega
    | cons j p =>
      have := height_lt_of_at? h
      omega

theorem region_cons (h : children[k]? = some c) :
    (node shape children).region (k :: p) = shape.regionBelow k (c.region p) := by
  rw [region]
  simp only [h]

/-- The top of a region is on the way to each of its positions. -/
theorem region_prefix : ∀ {t : Tree} {p : List Nat}, t.region p <+: p
  | _, [] => List.prefix_rfl
  | node shape children, k :: p => by
    rw [region]
    split
    · next c _ =>
      by_cases hnil : c.region p = []
      · cases shape <;> simp [hnil, Shape.regionBelow]
      · rw [Shape.regionBelow_of_ne_nil _ _ hnil, List.cons_prefix_cons]
        exact ⟨rfl, region_prefix⟩
    · exact List.nil_prefix

/-- Within the body of a recipe, the top of a region is in that body. -/
theorem prefix_region {g : IndexDeclaration} {transpose : Option (List Nat)} :
    ∀ {r p : List Nat} {t u : Tree}, t.at? r = some (node (.recipe g transpose) children) →
      t.at? p = some u → r ++ [k] <+: p → r ++ [k] <+: t.region p
  | [], p, t, u, hr, hp, hle => by
    obtain rfl : t = _ := by simpa [at?] using hr
    obtain ⟨p, rfl⟩ : ∃ p', p = k :: p' := by
      obtain ⟨p', rfl⟩ := hle
      exact ⟨p', rfl⟩
    obtain ⟨c, hc, -⟩ := at?_cons_eq_some.1 hp
    rw [region_cons hc, Shape.regionBelow]
    simp
  | j :: r, p, node shape below, u, hr, hp, hle => by
    obtain ⟨c, hc, hr⟩ := at?_cons_eq_some.1 hr
    obtain ⟨p, rfl⟩ : ∃ p', p = j :: p' := by
      obtain ⟨p', rfl⟩ := hle
      exact ⟨r ++ [k] ++ p', by simp⟩
    obtain ⟨c', hc', hp⟩ := at?_cons_eq_some.1 hp
    obtain rfl : c = c' := Option.some.inj (hc.symm.trans hc')
    have hle' : r ++ [k] <+: p := by simpa [List.cons_prefix_cons] using hle
    have hin : r ++ [k] <+: c.region p := prefix_region hr hp hle'
    have hne : c.region p ≠ [] := by
      rintro hnil
      simp [hnil] at hin
    rw [region_cons hc, Shape.regionBelow_of_ne_nil _ _ hne, List.cons_append,
      List.cons_prefix_cons]
    exact ⟨rfl, hin⟩

/-! ### Names at positions -/

/-- A variable of the name is at the position. -/
def ReadsAt (t : Tree) (p : List Nat) (x : String) : Prop :=
  ∃ children, t.at? p = some (node (.var x) children)

/-- A let that binds the name is at the position. -/
def BindsAt (t : Tree) (p : List Nat) (x : String) : Prop :=
  ∃ names children, t.at? p = some (node (.letIn names) children) ∧ x ∈ names

theorem bindsAt_cons : (node shape children).BindsAt (k :: p) x ↔
    ∃ c, children[k]? = some c ∧ c.BindsAt p x := by
  simp only [BindsAt, at?_cons_eq_some]
  grind

theorem bindsAt_nil : (node shape children).BindsAt [] x ↔ x ∈ shape.given := by
  simp only [BindsAt, at?, Option.some.injEq, node.injEq]
  cases shape <;> simp [Shape.given]

end

end Tree

end TensorRecipe
