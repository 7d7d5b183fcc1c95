import TensorRecipe.Proofs.Extraction.Preservation

/-!
# Lets stand as low as they can

A let that extraction puts in could not stand further down: each of its names is read outside of any
one of its values, and outside of any one part of its body.  It binds its names in the order in which
their sums were completed, and no other such let stands right below it (`letsLowest_extract`).
-/

namespace TensorRecipe

namespace Tree

/-- The tree is found in another one. -/
inductive Within (s : Tree) : Tree → Prop where
  | here : Within s s
  | child {shape : Shape} {children : List Tree} {t : Tree} (mem : t ∈ children)
    (found : Within s t) : Within s (.node shape children)

/-- A let of values around a body whose shape and children are these. -/
def letAround (names : List String) (values : List Tree) (shape : Shape) (children : List Tree) :
    Tree :=
  .node (.letIn names) (values ++ [.node shape children])

/-- The let could not stand further down, given the names minted, in the order of time. -/
structure LetLowest (order names : List String) (values : List Tree) (shape : Shape)
    (children : List Tree) : Prop where
  sorted : names.Sublist order
  /-- No value holds all references to a name. -/
  value : ∀ x ∈ names, ∀ v ∈ values,
    v.occurrences x < (letAround names values shape children).occurrences x
  /-- No part of the body holds all references to a name, unless it is the one reference there is, and
  its place is none for a let. -/
  child : ∀ x ∈ names, ∀ c ∈ children,
    c.occurrences x < (letAround names values shape children).occurrences x ∨
      shape.isScope = false ∧ c = .node (.var x) []
  /-- The body is no let of minted names. -/
  body : ∀ others, shape = .letIn others → ∀ y ∈ others, y ∉ order

/-- No let of a minted name could stand further down. -/
def LetsLowest (order : List String) (t : Tree) : Prop :=
  ∀ names values shape children, Within (letAround names values shape children) t →
    (∃ x ∈ names, x ∈ order) → LetLowest order names values shape children

end Tree

namespace Draft

variable {factors : Index → List Index} {used order : List String}

/-- The draft is found in another one. -/
inductive Inside (e : Draft) : Draft → Prop where
  | here : Inside e e
  | part {c d : Draft} (mem : c ∈ d.parts) (found : Inside e c) : Inside e d

/-- What every part inherits, every draft inside inherits. -/
theorem Inside.inherit {P : Draft → Prop} (hpart : ∀ c d, P d → c ∈ d.parts → P c) {d e : Draft}
    (h : Inside e d) (hd : P d) : P e := by
  induction h with
  | here => exact hd
  | part mem _ ih => exact ih (hpart _ _ hd mem)

theorem Lowest.part {d e : Draft} (h : Lowest order d) (he : e ∈ d.parts) : Lowest order e := by
  obtain ⟨low, inner⟩ := h
  cases d with
  | node shape children =>
    obtain ⟨g, transpose, rfl⟩ | hs := shape.recipe_or
    · exact inner e he
    · cases low with
      | node parts =>
        refine ⟨parts hs e he, fun r hr => inner r ?_⟩
        rw [regions_node hs]
        exact List.mem_flatMap.2 ⟨e, he, hr⟩
  | ref x => simp [parts] at he
  | temps xs values body =>
    rw [regions, regionsAll_eq] at inner
    cases low with
    | temps _ _ parts last =>
      rcases List.mem_append.1 he with he | he
      · exact ⟨parts e he, fun r hr => inner r
          (List.mem_append_left _ (List.mem_flatMap.2 ⟨e, he, hr⟩))⟩
      · obtain rfl : e = body := by simpa using he
        exact ⟨last, fun r hr => inner r (List.mem_append_right _ hr)⟩

theorem exists_toTree_eq (d : Draft) : ∃ shape, d.toTree = .node shape (d.parts.map toTree) := by
  cases d with
  | node shape children => exact ⟨shape, by rw [toTree, toTrees_eq]; rfl⟩
  | ref x => exact ⟨.var x.name, rfl⟩
  | temps xs values body =>
    exact ⟨.letIn (xs.map Reduction.name), by rw [toTree, toTrees_eq, parts]; simp⟩

/-- A let of a fresh name in the tree that a draft is, is a let of the draft. -/
theorem exists_temps {d : Draft} (h : d.Scoped factors used) {names : List String}
    {values children : List Tree} {shape : Shape}
    (hwithin : (Tree.letAround names values shape children).Within d.toTree)
    (hfresh : ∃ x ∈ names, x ∉ used) : ∃ xs vs body, Inside (temps xs vs body) d ∧
      xs.map Reduction.name = names ∧ vs.map toTree = values ∧
        body.toTree = .node shape children := by
  induction d using induct_parts with
  | step d ih =>
    obtain ⟨top, htop⟩ := d.exists_toTree_eq
    generalize htree : d.toTree = t at hwithin
    cases hwithin with
    | here =>
      cases d with
      | node _ _ =>
        -- a let of the tree that was there binds names in use
        obtain ⟨x, hx, hmem⟩ := hfresh
        rw [toTree, Tree.letAround, Tree.node.injEq] at htree
        obtain ⟨rfl, -⟩ := htree
        cases h with
        | node _ hnames _ _ _ => exact absurd (hnames x hx) hmem
      | ref x => simp [toTree, Tree.letAround] at htree
      | temps xs vs body =>
        rw [toTree, toTrees_eq, Tree.letAround, Tree.node.injEq, Shape.letIn.injEq] at htree
        obtain ⟨hnames, hparts⟩ := htree
        obtain ⟨hvalues, hbody⟩ := List.append_inj' hparts rfl
        exact ⟨xs, vs, body, .here, hnames, hvalues, List.singleton_inj.1 hbody⟩
    | child mem found =>
      obtain ⟨rfl, rfl⟩ := Tree.node.inj (htop.symm.trans htree)
      obtain ⟨e, he, rfl⟩ := List.mem_map.1 mem
      obtain ⟨xs, vs, body, hinside, hlet⟩ := ih e he (h.part he) found
      exact ⟨xs, vs, body, .part he hinside, hlet⟩

theorem LowLet.letLowest {xs : List Reduction} {values : List Draft} {body : Draft}
    (h : LowLet xs values body) (hsorted : (xs.map Reduction.name).Sublist order)
    (hbody : body.Scoped factors used) (horder : ∀ x ∈ order, x ∉ used) {shape : Shape}
    {children : List Tree} (hnode : body.toTree = .node shape children) :
    Tree.LetLowest order (xs.map Reduction.name) (values.map toTree) shape children := by
  have hcount : ∀ x, (Tree.letAround (xs.map Reduction.name) (values.map toTree) shape
      children).occurrences x = (temps xs values body).count x := by
    intro x
    rw [count, toTree, toTrees_eq, hnode]
    rfl
  refine ⟨hsorted, fun y hy v hv => ?_, fun y hy c hc => ?_, fun others hs y hy hmem => ?_⟩
  · obtain ⟨x, hx, rfl⟩ := List.mem_map.1 hy
    obtain ⟨d, hd, rfl⟩ := List.mem_map.1 hv
    rw [hcount]
    exact h.value x hx d hd
  · obtain ⟨x, hx, rfl⟩ := List.mem_map.1 hy
    rw [hcount]
    cases body with
    | node bodyShape parts =>
      rw [toTree, toTrees_eq, Tree.node.injEq] at hnode
      obtain ⟨rfl, rfl⟩ := hnode
      obtain ⟨d, hd, rfl⟩ := List.mem_map.1 hc
      refine (h.child bodyShape parts rfl x hx d hd).imp_right ?_
      rintro ⟨hscope, z, rfl, hname⟩
      exact ⟨hscope, by rw [toTree, hname]⟩
    | ref z =>
      rw [toTree, Tree.node.injEq] at hnode
      obtain ⟨-, rfl⟩ := hnode
      simp at hc
    | temps ys others inner => exact absurd rfl (h.body_ne ys others inner)
  · subst hs
    cases hbody with
    | node _ names _ _ _ =>
      rw [toTree, Tree.node.injEq] at hnode
      obtain ⟨rfl, -⟩ := hnode
      exact horder y hmem (names y hy)
    | ref _ _ => simp [toTree] at hnode
    | temps _ _ _ _ _ _ _ _ _ => exact h.body_ne _ _ _ rfl

theorem Lowest.letsLowest {d : Draft} (h : Lowest order d) (hs : d.Scoped factors used)
    (horder : ∀ x ∈ order, x ∉ used) : d.toTree.LetsLowest order := by
  rintro _ _ shape children hwithin ⟨x, hx, hmem⟩
  obtain ⟨xs, vs, body, hinside, rfl, rfl, hbody⟩ := exists_temps hs hwithin ⟨x, hx, horder x hmem⟩
  obtain ⟨low, -⟩ := hinside.inherit (fun _ _ => Lowest.part) h
  cases low with
  | temps sorted low _ _ =>
    cases hinside.inherit (fun _ _ => Scoped.part) hs with
    | temps _ _ _ _ last _ _ _ _ => exact low.letLowest sorted last horder hbody

end Draft

namespace Extraction

open Draft PassM

/-- Every let that extraction puts in stands as low as it can, and binds its names in the order in
which they were minted. -/
theorem letsLowest_extract {root : NodeId} {t : Tree} {a : Arena} (options : Options)
    (h : a.WellFormed root t) :
    ∃ out w' u, (extract root).start a (.ofOptions options) = .ok out w' ∧
      w'.arena.Unfolds out u ∧ u.LetsLowest (minted w'.events).reverse := by
  obtain ⟨out, w', hok, xs, d, hd, hlowest, hadvances, hun⟩ :=
    gives_extract_lowest (w := ⟨a, [], .ofOptions options⟩) h rfl
  refine ⟨out, w', d.toTree, hok, hun, hlowest.letsLowest hd.isScoped fun x hx => ?_⟩
  have hminted : (minted w'.events).Perm (xs.map Reduction.name) := by
    simpa [minted] using hadvances.minted
  obtain ⟨y, hy, rfl⟩ := List.mem_map.1 (hminted.subset (List.mem_reverse.1 hx))
  exact hd.isScoped.fresh_of_mem_bound y (hd.bound.symm.subset hy)

/-- The let of a sum that is met twice stands right above the two references. -/
theorem letsLowest_extract_repeated :
    let sum : Tree := .node (.indexSum [⟨0⟩]) [.node (.index ⟨0⟩) []]
    let reference : Tree := .node (.var "isum_0") []
    ∃ out w', (extract ⟨2⟩).start repeated (.ofOptions .default) = .ok out w' ∧
      w'.arena.Unfolds out
        (.letAround ["isum_0"] [sum] (.operator .sum) [reference, reference]) ∧
      Tree.LetLowest ["isum_0"] ["isum_0"] [sum] (.operator .sum) [reference, reference] := by
  intro sum reference
  obtain ⟨out, w', u, hok, hun, hlowest⟩ := letsLowest_extract .default wellFormed_repeated
  obtain ⟨rfl, hnodes, hminted⟩ : out = ⟨6⟩ ∧ w'.arena.nodes = repeated.nodes ++
      #[.var "isum_0", .var "isum_0", .operator .sum [⟨3⟩, ⟨4⟩], .letIn [⟨"isum_0", ⟨1⟩⟩] ⟨5⟩] ∧
      minted w'.events = ["isum_0"] := by
    have hrun : (match (extract ⟨2⟩).start repeated (.ofOptions .default) with
      | .ok out w => some (out, w.arena.nodes, minted w.events)
      | .error _ _ => none) = some (⟨6⟩, repeated.nodes ++
        #[.var "isum_0", .var "isum_0", .operator .sum [⟨3⟩, ⟨4⟩], .letIn [⟨"isum_0", ⟨1⟩⟩] ⟨5⟩],
        ["isum_0"]) := by
      decide +kernel
    rw [hok] at hrun
    simpa only [Option.some.injEq, Prod.mk.injEq] using hrun
  have hsum : w'.arena.Unfolds ⟨1⟩ sum :=
    ⟨.indexSum [⟨0⟩] ⟨0⟩, by simp [Arena.get, hnodes, repeated], rfl,
      ⟨.index ⟨0⟩, by simp [Arena.get, hnodes, repeated], rfl, trivial⟩, trivial⟩
  have hfirst : w'.arena.Unfolds ⟨3⟩ reference :=
    ⟨.var "isum_0", by simp [Arena.get, hnodes, repeated], rfl, trivial⟩
  have hsecond : w'.arena.Unfolds ⟨4⟩ reference :=
    ⟨.var "isum_0", by simp [Arena.get, hnodes, repeated], rfl, trivial⟩
  have hbody : w'.arena.Unfolds ⟨5⟩ (.node (.operator .sum) [reference, reference]) :=
    ⟨.operator .sum [⟨3⟩, ⟨4⟩], by simp [Arena.get, hnodes, repeated], rfl, hfirst, hsecond, trivial⟩
  have hout : w'.arena.Unfolds ⟨6⟩
      (.letAround ["isum_0"] [sum] (.operator .sum) [reference, reference]) :=
    ⟨.letIn [⟨"isum_0", ⟨1⟩⟩] ⟨5⟩, by simp [Arena.get, hnodes, repeated], rfl, hsum, hbody, trivial⟩
  obtain rfl := hun.unique hout
  rw [hminted] at hlowest
  exact ⟨_, w', hok, hout, hlowest _ _ _ _ .here (by simp)⟩

end Extraction

end TensorRecipe
