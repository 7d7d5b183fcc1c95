import TensorRecipe.Proofs.Extraction.Supply

/-!
# Low lets

A let of a draft is low when it could not stand further down: nothing that it binds has all of its
uses in one of its values, or in one part of its body (`Draft.LowLet`).  A draft is low when all of
its lets are, and bind their names in a given order: of one region (`Draft.Low`), or of every region
in it (`Draft.Lowest`).
-/

namespace TensorRecipe

namespace Draft

/-- The let could not stand further down.  A bare reference is no place for a let, unless the node
above it is a scope. -/
structure LowLet (xs : List Reduction) (values : List Draft) (body : Draft) : Prop where
  value : ∀ x ∈ xs, ∀ d ∈ values, d.count x.name < (temps xs values body).count x.name
  child : ∀ shape children, body = .node shape children → ∀ x ∈ xs, ∀ d ∈ children,
    d.count x.name < (temps xs values body).count x.name ∨
      shape.isScope = false ∧ ∃ y, d = .ref y ∧ y.name = x.name
  body_ne : ∀ ys others inner, body ≠ .temps ys others inner

/-- The lets of the region are low, and bind names in the given order. -/
inductive Low (order : List String) : Draft → Prop where
  | node {shape : Shape} {children : List Draft}
    (parts : (∀ g transpose, shape ≠ .recipe g transpose) → ∀ d ∈ children, Low order d) :
    Low order (.node shape children)
  | ref {x : Reduction} : Low order (.ref x)
  | temps {xs : List Reduction} {values : List Draft} {body : Draft}
    (sorted : (xs.map Reduction.name).Sublist order) (low : LowLet xs values body)
    (parts : ∀ d ∈ values, Low order d) (last : Low order body) :
    Low order (.temps xs values body)

mutual

/-- The regions right inside the region of a draft: the bodies of its recipes. -/
def regions : Draft → List Draft
  | node (.recipe _ _) children => children
  | node _ children => regionsAll children
  | ref _ => []
  | temps _ values body => regionsAll values ++ regions body

/-- The regions right inside the region of several drafts. -/
def regionsAll : List Draft → List Draft
  | [] => []
  | d :: ds => regions d ++ regionsAll ds

end

/-- All lets are low, and bind names in the given order. -/
inductive Lowest (order : List String) : Draft → Prop where
  | intro {d : Draft} (low : Low order d) (inner : ∀ r ∈ d.regions, Lowest order r) :
    Lowest order d

theorem regionsAll_eq (ds : List Draft) : regionsAll ds = ds.flatMap regions := by
  induction ds with
  | nil => rfl
  | cons d ds ih => rw [regionsAll, ih, List.flatMap_cons]

theorem regions_node {shape : Shape} {children : List Draft}
    (h : ∀ g transpose, shape ≠ .recipe g transpose) :
    (node shape children).regions = children.flatMap regions := by
  rw [← regionsAll_eq]
  cases shape
  case recipe g transpose => exact absurd rfl (h g transpose)
  all_goals rfl

theorem Scoped.mem_regions_core {factors : Index → List Index} {used : List String} {d : Draft}
    (h : d.Scoped factors used) {r : Draft} :
    r ∈ d.regions ↔ r ∈ d.core.regions ∨ ∃ b ∈ d.bindings, r ∈ b.2.core.regions :=
  h.mem_core_iff (fun _ _ hs => regions_node hs) fun _ _ _ => by rw [regions, regionsAll_eq]

/-- Drafts with the same core, and with lets of the same cores, have the same regions inside. -/
theorem Scoped.mem_regions_congr {factors : Index → List Index} {used : List String} {c d : Draft}
    {entries : List (Reduction × Draft)} (hc : c.Scoped factors used) (hd : d.Scoped factors used)
    (hcore : c.core = d.core) (hbc : (c.bindings.map fun b => (b.1, b.2.core)).Perm entries)
    (hbd : (d.bindings.map fun b => (b.1, b.2.core)).Perm entries) {r : Draft} :
    r ∈ c.regions ↔ r ∈ d.regions := by
  have hbindings : ∀ {e : Draft}, (e.bindings.map fun b => (b.1, b.2.core)).Perm entries →
      ((∃ b ∈ e.bindings, r ∈ b.2.core.regions) ↔ ∃ b ∈ entries, r ∈ b.2.regions) := by
    intro e he
    simp only [← he.mem_iff, List.mem_map]
    constructor
    · rintro ⟨b, hb, hr⟩
      exact ⟨_, ⟨b, hb, rfl⟩, hr⟩
    · rintro ⟨_, ⟨b, hb, rfl⟩, hr⟩
      exact ⟨b, hb, hr⟩
  rw [hc.mem_regions_core, hd.mem_regions_core, hcore, hbindings hbc, hbindings hbd]

variable {order order' : List String}

theorem Low.mono {d : Draft} (h : Low order d) (hsub : order.Sublist order') : Low order' d := by
  induction h with
  | node _ ih => exact .node ih
  | ref => exact .ref
  | temps sorted low _ _ ihv ihb => exact .temps (sorted.trans hsub) low ihv ihb

theorem Lowest.mono {d : Draft} (h : Lowest order d) (hsub : order.Sublist order') :
    Lowest order' d := by
  induction h with
  | intro low _ ih => exact .intro (low.mono hsub) ih

end Draft

end TensorRecipe
