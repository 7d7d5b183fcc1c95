import TensorRecipe.Proofs.Tree.Capture

/-!
# Drafts

A `Draft` is a tree in which some sums have been named.  Besides nodes it has references to named
sums, each of which knows the sum it stands for, and lets that bind them.  A draft can be read in
two ways: as the tree it is (`toTree`), and as the tree it comes from (`expand`), in which every
reference is the sum again and no sum has a name.

`Draft.Scoped` says that no loop or let captures a sum that a reference below it stands for and that
is not bound there, and that what is bound to a name expands to the sum it stands for.
-/

namespace TensorRecipe

/-- A sum with a name. -/
structure Reduction where
  name : String
  sum : Tree
  /-- The serial of the innermost scope that binds something the sum reads; zero if none does. -/
  home : Nat

/-- A tree in which sums have names. -/
inductive Draft where
  | node (shape : Shape) (children : List Draft)
  | ref (x : Reduction)
  | temps (xs : List Reduction) (values : List Draft) (body : Draft)

namespace Draft

theorem induct {motive : Draft → Prop}
    (node : ∀ shape children, (∀ d ∈ children, motive d) → motive (.node shape children))
    (ref : ∀ x, motive (.ref x))
    (temps : ∀ xs values body, (∀ d ∈ values, motive d) → motive body →
      motive (.temps xs values body)) : ∀ d, motive d := by
  intro d
  refine Draft.rec (motive_1 := motive) (motive_2 := fun ds => ∀ d ∈ ds, motive d) node ref temps
    ?_ ?_ d
  · simp
  · intro d ds ihd ihds e he
    rcases List.mem_cons.1 he with rfl | he
    · exact ihd
    · exact ihds e he

mutual

/-- The tree that a draft is. -/
def toTree : Draft → Tree
  | node shape children => .node shape (toTrees children)
  | ref x => .node (.var x.name) []
  | temps xs values body => .node (.letIn (xs.map Reduction.name)) (toTrees values ++ [toTree body])

/-- The trees that several drafts are. -/
def toTrees : List Draft → List Tree
  | [] => []
  | d :: ds => toTree d :: toTrees ds

end

mutual

/-- The tree that a draft comes from. -/
def expand : Draft → Tree
  | node shape children => .node shape (expandAll children)
  | ref x => x.sum
  | temps _ _ body => expand body

/-- The trees that several drafts come from. -/
def expandAll : List Draft → List Tree
  | [] => []
  | d :: ds => expand d :: expandAll ds

end

mutual

/-- The draft without the lets of its own region; those inside recipes stay. -/
def core : Draft → Draft
  | node (.recipe g transpose) children => node (.recipe g transpose) children
  | node shape children => node shape (coreAll children)
  | ref x => ref x
  | temps _ _ body => core body

/-- The drafts without the lets of their region. -/
def coreAll : List Draft → List Draft
  | [] => []
  | d :: ds => core d :: coreAll ds

end

mutual

/-- The sums that are bound in the region of a draft, with what is bound to them. -/
def bindings : Draft → List (Reduction × Draft)
  | node (.recipe _ _) _ => []
  | node _ children => bindingsAll children
  | ref _ => []
  | temps xs values body => xs.zip values ++ (bindingsAll values ++ bindings body)

/-- The sums that are bound in the region of several drafts. -/
def bindingsAll : List Draft → List (Reduction × Draft)
  | [] => []
  | d :: ds => bindings d ++ bindingsAll ds

end

mutual

/-- The sums that are bound anywhere in a draft. -/
def bound : Draft → List Reduction
  | node _ children => boundAll children
  | ref _ => []
  | temps xs values body => xs ++ (boundAll values ++ bound body)

/-- The sums that are bound anywhere in several drafts. -/
def boundAll : List Draft → List Reduction
  | [] => []
  | d :: ds => bound d ++ boundAll ds

end

mutual

/-- The references in the region of a draft. -/
def refs : Draft → List Reduction
  | node (.recipe _ _) _ => []
  | node _ children => refsAll children
  | ref x => [x]
  | temps _ values body => refsAll values ++ refs body

/-- The references in the region of several drafts. -/
def refsAll : List Draft → List Reduction
  | [] => []
  | d :: ds => refs d ++ refsAll ds

end

theorem toTrees_eq (ds : List Draft) : toTrees ds = ds.map toTree := by
  induction ds with
  | nil => rfl
  | cons d ds ih => rw [toTrees, ih, List.map_cons]

theorem expandAll_eq (ds : List Draft) : expandAll ds = ds.map expand := by
  induction ds with
  | nil => rfl
  | cons d ds ih => rw [expandAll, ih, List.map_cons]

theorem coreAll_eq (ds : List Draft) : coreAll ds = ds.map core := by
  induction ds with
  | nil => rfl
  | cons d ds ih => rw [coreAll, ih, List.map_cons]

theorem bindingsAll_eq (ds : List Draft) : bindingsAll ds = ds.flatMap bindings := by
  induction ds with
  | nil => rfl
  | cons d ds ih => rw [bindingsAll, ih, List.flatMap_cons]

theorem boundAll_eq (ds : List Draft) : boundAll ds = ds.flatMap bound := by
  induction ds with
  | nil => rfl
  | cons d ds ih => rw [boundAll, ih, List.flatMap_cons]

theorem refsAll_eq (ds : List Draft) : refsAll ds = ds.flatMap refs := by
  induction ds with
  | nil => rfl
  | cons d ds ih => rw [refsAll, ih, List.flatMap_cons]

theorem core_node {shape : Shape} {children : List Draft}
    (h : ∀ g transpose, shape ≠ .recipe g transpose) :
    (node shape children).core = node shape (children.map core) := by
  rw [← coreAll_eq]
  cases shape
  case recipe g transpose => exact absurd rfl (h g transpose)
  all_goals rfl

theorem bindings_node {shape : Shape} {children : List Draft}
    (h : ∀ g transpose, shape ≠ .recipe g transpose) :
    (node shape children).bindings = children.flatMap bindings := by
  rw [← bindingsAll_eq]
  cases shape
  case recipe g transpose => exact absurd rfl (h g transpose)
  all_goals rfl

theorem refs_node {shape : Shape} {children : List Draft}
    (h : ∀ g transpose, shape ≠ .recipe g transpose) :
    (node shape children).refs = children.flatMap refs := by
  rw [← refsAll_eq]
  cases shape
  case recipe g transpose => exact absurd rfl (h g transpose)
  all_goals rfl

/-- Leaving out lets changes nothing about where a draft comes from. -/
theorem expand_core (d : Draft) : d.core.expand = d.expand := by
  induction d using Draft.induct with
  | node shape children ih =>
    obtain ⟨g, transpose, rfl⟩ | h := shape.recipe_or
    · rfl
    · rw [core_node h, expand, expand, expandAll_eq, expandAll_eq, List.map_map]
      exact congrArg _ (List.map_congr_left fun d hd => ih d hd)
  | ref x => rfl
  | temps xs values body _ ih => rw [core, expand, ih]

/-- A reference that no let of the draft binds. -/
inductive Free (x : Reduction) : Draft → Prop where
  | node {shape : Shape} {children : List Draft} {d : Draft} (mem : d ∈ children) (free : Free x d) :
    Free x (.node shape children)
  | ref : Free x (.ref x)
  | value {xs : List Reduction} {values : List Draft} {body d : Draft} (notMem : x ∉ xs)
    (mem : d ∈ values) (free : Free x d) : Free x (.temps xs values body)
  | body {xs : List Reduction} {values : List Draft} {body : Draft} (notMem : x ∉ xs)
    (free : Free x body) : Free x (.temps xs values body)

theorem free_node_iff {x : Reduction} {shape : Shape} {children : List Draft} :
    Free x (.node shape children) ↔ ∃ d ∈ children, Free x d :=
  ⟨fun h => by cases h with | node mem free => exact ⟨_, mem, free⟩, fun ⟨_, hd, h⟩ => .node hd h⟩

theorem free_ref_iff {x y : Reduction} : Free x (.ref y) ↔ x = y :=
  ⟨fun h => by cases h; rfl, fun h => h ▸ .ref⟩

theorem free_temps_iff {x : Reduction} {xs : List Reduction} {values : List Draft} {body : Draft} :
    Free x (.temps xs values body) ↔ x ∉ xs ∧ ((∃ d ∈ values, Free x d) ∨ Free x body) := by
  constructor
  · intro h
    cases h with
    | value notMem mem free => exact ⟨notMem, .inl ⟨_, mem, free⟩⟩
    | body notMem free => exact ⟨notMem, .inr free⟩
  · rintro ⟨hx, ⟨d, hd, h⟩ | h⟩
    · exact .value hx hd h
    · exact .body hx h

/-! ### Scoped drafts -/

section

variable (factors : Index → List Index) (used : List String)

/-- Every let of the draft is in its place: nothing between it and a reference to a sum that it
binds captures the sum, and each value expands to the sum it is bound to.  The names of sums are
apart from the names `used` otherwise. -/
inductive Scoped : Draft → Prop where
  | node {shape : Shape} {children : List Draft} (inner : shape.IsInner ∨ children = [])
    (names : ∀ y ∈ shape.names, y ∈ used)
    (parts : ∀ d ∈ children, Scoped d)
    (free : ∀ (k : Nat) d, children[k]? = some d → ∀ x, Free x d →
      ¬ (shape.binder factors k).Captures factors x.sum)
    (closed : ∀ g transpose, shape = .recipe g transpose → ∀ d ∈ children, ∀ x, ¬ Free x d) :
    Scoped (.node shape children)
  | ref {x : Reduction} (fresh : x.name ∉ used) (names : ∀ y ∈ x.sum.names, y ∈ used) :
    Scoped (.ref x)
  | temps {xs : List Reduction} {values : List Draft} {body : Draft}
    (length : xs.length = values.length) (nodup : (xs.map Reduction.name).Nodup)
    (fresh : ∀ x ∈ xs, x.name ∉ used) (parts : ∀ d ∈ values, Scoped d) (last : Scoped body)
    (expand : ∀ (k : Nat) x d, xs[k]? = some x → values[k]? = some d → d.expand = x.sum)
    (earlier : ∀ (k : Nat) d, values[k]? = some d → ∀ y, Free y d →
      y ∈ xs.take k ∨ y.name ∉ xs.map Reduction.name)
    (apart : ∀ y, Free y body → y ∈ xs ∨ y.name ∉ xs.map Reduction.name)
    (needed : ∀ (k : Nat) x, xs[k]? = some x →
      Free x body ∨ ∃ (l : Nat) (d : Draft), k < l ∧ values[l]? = some d ∧ Free x d) :
    Scoped (.temps xs values body)

end

namespace Scoped

variable {factors : Index → List Index} {used : List String}

theorem names_expand {d : Draft} (h : d.Scoped factors used) : ∀ y ∈ d.expand.names, y ∈ used := by
  induction h with
  | node _ names _ _ _ ih =>
    intro y hy
    rw [Draft.expand, Tree.names, List.mem_append, expandAll_eq, Tree.mem_namesAll] at hy
    rcases hy with hy | ⟨t, ht, hy⟩
    · exact names y hy
    · obtain ⟨d, hd, rfl⟩ := List.mem_map.1 ht
      exact ih d hd y hy
  | ref _ names => exact names
  | temps _ _ _ _ _ _ _ _ _ _ ih => exact ih

/-- A free reference has a fresh name, and the sum it stands for has none but the names in use. -/
theorem of_free {d : Draft} (h : d.Scoped factors used) {x : Reduction} (hx : Free x d) :
    x.name ∉ used ∧ ∀ y ∈ x.sum.names, y ∈ used := by
  induction h with
  | node _ _ _ _ _ ih =>
    obtain ⟨d, hd, hx⟩ := free_node_iff.1 hx
    exact ih d hd hx
  | ref fresh names =>
    obtain rfl := free_ref_iff.1 hx
    exact ⟨fresh, names⟩
  | temps _ _ _ _ _ _ _ _ _ ihv ihb =>
    obtain ⟨-, ⟨d, hd, hx⟩ | hx⟩ := free_temps_iff.1 hx
    · exact ihv d hd hx
    · exact ihb hx

theorem free_or_mem_bindings {d : Draft} (h : d.Scoped factors used) {x : Reduction}
    (hx : x ∈ d.refs) : Free x d ∨ x ∈ d.bindings.map Prod.fst := by
  induction h with
  | @node shape children _ _ _ _ _ ih =>
    obtain ⟨g, transpose, rfl⟩ | hs := shape.recipe_or
    · simp [refs] at hx
    · rw [refs_node hs] at hx
      obtain ⟨d, hd, hx⟩ := List.mem_flatMap.1 hx
      rw [bindings_node hs, List.map_flatMap]
      exact (ih d hd hx).imp (.node hd) fun hb => List.mem_flatMap.2 ⟨d, hd, hb⟩
  | ref _ _ =>
    obtain rfl : _ = _ := by simpa [refs] using hx
    exact .inl .ref
  | @temps xs values body length _ _ _ _ _ _ _ _ ihv ihb =>
    rw [bindings, List.map_append, List.map_append, List.map_fst_zip length.le, bindingsAll_eq,
      List.map_flatMap]
    by_cases hmem : x ∈ xs
    · exact .inr (List.mem_append_left _ hmem)
    rw [refs, refsAll_eq, List.mem_append] at hx
    rcases hx with hx | hx
    · obtain ⟨d, hd, hx⟩ := List.mem_flatMap.1 hx
      refine (ihv d hd hx).imp (.value hmem hd) fun hb => ?_
      exact List.mem_append_right _ (List.mem_append_left _ (List.mem_flatMap.2 ⟨d, hd, hb⟩))
    · exact (ihb hx).imp (.body hmem) fun hb => List.mem_append_right _ (List.mem_append_right _ hb)

theorem mem_refs_of_free {d : Draft} (h : d.Scoped factors used) {x : Reduction} (hx : Free x d) :
    x ∈ d.refs := by
  induction h with
  | @node shape children _ _ _ _ closed ih =>
    obtain ⟨d, hd, hx⟩ := free_node_iff.1 hx
    have hs : ∀ g transpose, shape ≠ .recipe g transpose := fun g transpose hs =>
      closed g transpose hs d hd x hx
    rw [refs_node hs]
    exact List.mem_flatMap.2 ⟨d, hd, ih d hd hx⟩
  | ref _ _ =>
    obtain rfl := free_ref_iff.1 hx
    simp [refs]
  | temps _ _ _ _ _ _ _ _ _ ihv ihb =>
    rw [refs, refsAll_eq, List.mem_append]
    obtain ⟨-, ⟨d, hd, hx⟩ | hx⟩ := free_temps_iff.1 hx
    · exact .inl (List.mem_flatMap.2 ⟨d, hd, ihv d hd hx⟩)
    · exact .inr (ihb hx)

/-- What adds up over the nodes and lets of drafts adds up over the cores of a draft and of what it
binds. -/
theorem sum_core {M : Type} [AddCommMonoid M] {f : Draft → M} {g : Shape → M} {h : Reduction → M}
    (hnode : ∀ shape children, (∀ g transpose, shape ≠ .recipe g transpose) →
      f (.node shape children) = g shape + (children.map f).sum)
    (htemps : ∀ xs values body, xs.length = values.length →
      f (.temps xs values body) = (xs.map h).sum + (values.map f).sum + f body)
    {d : Draft} (hd : d.Scoped factors used) :
    f d = f d.core + (d.bindings.map fun b => h b.1 + f b.2.core).sum := by
  have hflat : ∀ {ds : List Draft}, (∀ d ∈ ds, f d = f d.core +
      (d.bindings.map fun b => h b.1 + f b.2.core).sum) →
      (ds.map f).sum = ((ds.map core).map f).sum +
        ((ds.flatMap bindings).map fun b => h b.1 + f b.2.core).sum := by
    intro ds hds
    induction ds with
    | nil => simp
    | cons d ds ih =>
      rw [List.map_cons, List.sum_cons, hds d (by simp),
        ih fun e he => hds e (List.mem_cons_of_mem d he), List.map_cons, List.map_cons,
        List.sum_cons, List.flatMap_cons, List.map_append, List.sum_append]
      abel
  have hzip : ∀ {xs : List Reduction} {values : List Draft}, xs.length = values.length →
      ((xs.zip values).map fun b => h b.1 + f b.2.core).sum =
        (xs.map h).sum + ((values.map core).map f).sum := by
    intro xs
    induction xs with
    | nil =>
      intro values hl
      obtain rfl : values = [] := List.length_eq_zero_iff.1 hl.symm
      simp
    | cons x xs ih =>
      intro values hl
      obtain ⟨v, vs, rfl⟩ := List.exists_cons_of_length_eq_add_one hl.symm
      rw [List.zip_cons_cons, List.map_cons, List.sum_cons, ih (by simpa using hl)]
      simp only [List.map_cons, List.sum_cons]
      abel
  induction hd with
  | @node shape children _ _ _ _ _ ih =>
    obtain ⟨g, transpose, rfl⟩ | hs := shape.recipe_or
    · simp [core, bindings]
    · rw [core_node hs, bindings_node hs, hnode _ _ hs, hnode _ _ hs, hflat ih, add_assoc]
  | ref _ _ => simp [core, bindings]
  | @temps xs values body length _ _ _ _ _ _ _ _ ihv ihb =>
    rw [htemps _ _ _ length, core, bindings, bindingsAll_eq, List.map_append, List.sum_append,
      List.map_append, List.sum_append, hzip length, hflat ihv, ihb]
    abel

end Scoped

end Draft

end TensorRecipe
