import TensorRecipe.Proofs.Extraction.BoundSums
import TensorRecipe.Proofs.Extraction.Hygiene
import TensorRecipe.Proofs.Tree.Homes

/-!
# Temporaries stay in their regions

A reference of a draft that no let binds in its region is free, since the body of a recipe leaves no
reference free (`Draft.Scoped.exists_bindsAt`).  So in a closed draft every name is read in regions
where it is bound, and as it is bound only once there is one such region (`Extraction.Confined`).
Wherever a sum is met that no let binds there is a name now that was minted for it (`Mirrors`); so a
sum that is met in two regions goes by different names in them (`confined_extract`).
-/

namespace TensorRecipe

open Extraction

theorem add_le_sum_of_ne {α : Type} {f : α → Nat} {x y : α} :
    ∀ {xs : List α} {j k : Nat}, xs[j]? = some x → xs[k]? = some y → j ≠ k →
      f x + f y ≤ (xs.map f).sum
  | _ :: xs, 0, 0, _, _, h => absurd rfl h
  | z :: xs, 0, k + 1, hx, hy, _ => by
    obtain rfl : z = x := by simpa using hx
    have hle : f y ≤ (xs.map f).sum := le_sum (List.mem_of_getElem? (by simpa using hy))
    rw [List.map_cons, List.sum_cons]
    omega
  | z :: xs, j + 1, 0, hx, hy, _ => by
    obtain rfl : z = y := by simpa using hy
    have hle : f x ≤ (xs.map f).sum := le_sum (List.mem_of_getElem? (by simpa using hx))
    rw [List.map_cons, List.sum_cons]
    omega
  | z :: xs, j + 1, k + 1, hx, hy, hne => by
    have hle := add_le_sum_of_ne (f := f) (by simpa using hx) (by simpa using hy)
      fun heq => hne (congrArg Nat.succ heq)
    rw [List.map_cons, List.sum_cons]
    omega

namespace Tree

variable {x : String}

theorem count_letNames_node {shape : Shape} {children : List Tree} :
    (node shape children).letNames.count x =
      shape.given.count x + (children.map fun t => t.letNames.count x).sum := by
  rw [letNames, letNamesAll_eq, List.count_append, List.count_flatMap]
  rfl

theorem BindsAt.count_pos : ∀ {t : Tree} {p : List Nat}, t.BindsAt p x → 0 < t.letNames.count x
  | node shape children, [], h => by
    have hpos : 0 < shape.given.count x := List.count_pos_iff.2 (bindsAt_nil.1 h)
    rw [count_letNames_node]
    omega
  | node shape children, k :: p, h => by
    obtain ⟨c, hc, h⟩ := bindsAt_cons.1 h
    have hpos : 0 < c.letNames.count x := h.count_pos
    have hle := le_sum (f := fun t : Tree => t.letNames.count x) (List.mem_of_getElem? hc)
    rw [count_letNames_node]
    omega

theorem BindsAt.unique : ∀ {t : Tree} {p q : List Nat}, t.letNames.count x ≤ 1 →
    t.BindsAt p x → t.BindsAt q x → p = q
  | _, [], [], _, _, _ => rfl
  | node shape children, [], k :: q, hone, hp, hq => by
    obtain ⟨c, hc, hq⟩ := bindsAt_cons.1 hq
    have hpos : 0 < shape.given.count x := List.count_pos_iff.2 (bindsAt_nil.1 hp)
    have hpos' : 0 < c.letNames.count x := hq.count_pos
    have hle := le_sum (f := fun t : Tree => t.letNames.count x) (List.mem_of_getElem? hc)
    rw [count_letNames_node] at hone
    omega
  | node shape children, j :: p, [], hone, hp, hq => by
    obtain ⟨c, hc, hp⟩ := bindsAt_cons.1 hp
    have hpos : 0 < shape.given.count x := List.count_pos_iff.2 (bindsAt_nil.1 hq)
    have hpos' : 0 < c.letNames.count x := hp.count_pos
    have hle := le_sum (f := fun t : Tree => t.letNames.count x) (List.mem_of_getElem? hc)
    rw [count_letNames_node] at hone
    omega
  | node shape children, j :: p, k :: q, hone, hp, hq => by
    obtain ⟨c, hc, hp⟩ := bindsAt_cons.1 hp
    obtain ⟨d, hd, hq⟩ := bindsAt_cons.1 hq
    rw [count_letNames_node] at hone
    by_cases hjk : j = k
    · subst hjk
      obtain rfl : c = d := Option.some.inj (hc.symm.trans hd)
      have hle := le_sum (f := fun t : Tree => t.letNames.count x) (List.mem_of_getElem? hc)
      rw [hp.unique (by omega) hq]
    · have hpos := hp.count_pos
      have hpos' := hq.count_pos
      have hle := add_le_sum_of_ne (f := fun t : Tree => t.letNames.count x) hc hd hjk
      omega

end Tree

namespace Draft

variable {factors : Index → List Index} {used : List String}

/-- The draft at a position. -/
def at? : Draft → List Nat → Option Draft
  | d, [] => some d
  | d, k :: p =>
    match d.parts[k]? with
    | some e => at? e p
    | none => none

theorem at?_cons_eq_some {d e : Draft} {k : Nat} {p : List Nat} :
    d.at? (k :: p) = some e ↔ ∃ c, d.parts[k]? = some c ∧ c.at? p = some e := by
  rw [at?]
  split
  · next c hc => simp [hc]
  · next hc => simp [hc]

/-- A draft has the positions of the tree that it is. -/
theorem at?_toTree : ∀ {d : Draft} {p : List Nat}, d.toTree.at? p = (d.at? p).map toTree
  | _, [] => by simp [at?, Tree.at?]
  | d, k :: p => by
    obtain ⟨shape, hd⟩ := d.exists_toTree_eq
    rw [hd, Tree.at?, at?, List.getElem?_map]
    cases d.parts[k]? with
    | none => rfl
    | some c => exact at?_toTree

theorem region_cons {d c : Draft} {k : Nat} {p : List Nat} (hc : d.parts[k]? = some c) :
    ∃ shape children, d.toTree = .node shape children ∧
      d.toTree.region (k :: p) = shape.regionBelow k (c.toTree.region p) := by
  obtain ⟨shape, hd⟩ := d.exists_toTree_eq
  refine ⟨shape, _, hd, ?_⟩
  rw [hd, Tree.region_cons (by rw [List.getElem?_map, hc]; rfl)]

theorem bindsAt_cons {d c : Draft} {k : Nat} {p : List Nat} {x : String}
    (hc : d.parts[k]? = some c) (h : c.toTree.BindsAt p x) : d.toTree.BindsAt (k :: p) x := by
  obtain ⟨shape, hd⟩ := d.exists_toTree_eq
  rw [hd]
  exact Tree.bindsAt_cons.2 ⟨c.toTree, by rw [List.getElem?_map, hc]; rfl, h⟩

theorem Scoped.at? : ∀ {d e : Draft} {p : List Nat}, d.Scoped factors used → d.at? p = some e →
    e.Scoped factors used
  | d, e, [], h, he => by
    obtain rfl : d = e := by simpa [Draft.at?] using he
    exact h
  | d, e, k :: p, h, he => by
    obtain ⟨c, hc, he⟩ := at?_cons_eq_some.1 he
    exact (h.part (List.mem_of_getElem? hc)).at? he

/-- A reference to a name that is not in use otherwise stands where that name is read. -/
theorem Scoped.exists_ref {d : Draft} (h : d.Scoped factors used) {p : List Nat} {x : String}
    (hx : x ∉ used) (hread : d.toTree.ReadsAt p x) :
    ∃ y : Reduction, d.at? p = some (.ref y) ∧ y.name = x := by
  obtain ⟨children, hat⟩ := hread
  rw [at?_toTree, Option.map_eq_some_iff] at hat
  obtain ⟨e, he, htree⟩ := hat
  have hscoped := h.at? he
  cases e with
  | node shape ds =>
    obtain ⟨rfl, -⟩ : shape = .var x ∧ _ := by simpa [toTree] using htree
    cases hscoped with
    | node _ names _ _ _ => exact absurd (names x (by simp [Shape.names])) hx
  | ref y =>
    obtain ⟨hname, -⟩ : y.name = x ∧ _ := by simpa [toTree] using htree
    exact ⟨y, he, hname⟩
  | temps xs values body => simp [toTree] at htree

theorem bindsAt_own {d : Draft} {x : Reduction} (h : x ∈ d.own) : d.toTree.BindsAt [] x.name := by
  cases d with
  | temps xs values body =>
    rw [toTree, Tree.bindsAt_nil]
    exact List.mem_map_of_mem h
  | _ => cases h

/-- What is free in a part of a draft is in the region of the draft, since the body of a recipe
leaves nothing free. -/
theorem Scoped.region_eq_nil {d c : Draft} (h : d.Scoped factors used) {k : Nat} {p : List Nat}
    (hc : d.parts[k]? = some c) {x : Reduction} (hfree : Free x c) (htop : c.toTree.region p = []) :
    d.toTree.region (k :: p) = [] := by
  obtain ⟨shape, children, hd, hregion⟩ := region_cons (p := p) hc
  rw [hregion, htop]
  refine Shape.regionBelow_nil (fun g transpose hs => ?_) k
  subst hs
  cases h with
  | node _ _ _ _ closed =>
    obtain ⟨rfl, -⟩ := Tree.node.inj hd
    exact closed g transpose rfl c (List.mem_of_getElem? hc) x hfree
  | ref _ _ => cases hc
  | temps _ _ _ _ _ _ _ _ _ => cases hd

/-- A reference is free in the outermost region, or a let of its region binds it. -/
theorem Scoped.exists_bindsAt {d : Draft} (h : d.Scoped factors used) {x : Reduction} :
    ∀ {p : List Nat}, d.at? p = some (.ref x) →
      d.toTree.region p = [] ∧ Free x d ∨
        ∃ q, d.toTree.BindsAt q x.name ∧ d.toTree.region q = d.toTree.region p := by
  induction d using induct_parts with
  | step d ih =>
    rintro (_ | ⟨k, p⟩) hp
    · obtain rfl : d = .ref x := by simpa [Draft.at?] using hp
      exact .inl ⟨rfl, .ref⟩
    · obtain ⟨c, hc, hp⟩ := at?_cons_eq_some.1 hp
      have hmem : c ∈ d.parts := List.mem_of_getElem? hc
      rcases ih c hmem (h.part hmem) hp with ⟨htop, hfree⟩ | ⟨q, hq, hsame⟩
      · have hregion := h.region_eq_nil hc hfree htop
        rcases free_of_part hmem hfree with hfree | hown
        · exact .inl ⟨hregion, hfree⟩
        · exact .inr ⟨[], bindsAt_own hown, hregion.symm⟩
      · obtain ⟨shape, children, hd, hregion⟩ := region_cons (p := p) hc
        obtain ⟨shape', children', hd', hregion'⟩ := region_cons (p := q) hc
        obtain ⟨rfl, rfl⟩ := Tree.node.inj (hd.symm.trans hd')
        exact .inr ⟨k :: q, bindsAt_cons hc hq, by rw [hregion, hregion', hsame]⟩

theorem exists_bindsAt_of_mem_bindings {d : Draft} : ∀ b ∈ d.bindings,
    ∃ q, d.toTree.BindsAt q b.1.name ∧ d.toTree.region q = [] := by
  induction d using induct_parts with
  | step d ih =>
    intro b hb
    obtain ⟨hregion, hlets | ⟨e, he, hb⟩⟩ := mem_bindings_iff.1 hb
    · exact ⟨[], bindsAt_own (mem_own_of_mem_lets hlets), rfl⟩
    · obtain ⟨q, hq, htop⟩ := ih e he b hb
      obtain ⟨k, hk⟩ := List.mem_iff_getElem?.1 he
      obtain ⟨shape, children, hd, hbelow⟩ := region_cons (p := q) hk
      refine ⟨k :: q, bindsAt_cons hk hq, ?_⟩
      rw [hbelow, htop]
      refine Shape.regionBelow_nil (fun g transpose hshape => ?_) k
      cases d <;> simp_all [toTree]

/-- What is bound in the region of the tree is bound in that of the draft, if the name is not in use
otherwise. -/
theorem Scoped.mem_bindings_of_bindsAt {d : Draft} (h : d.Scoped factors used) {x : String}
    (hx : x ∉ used) : ∀ {q : List Nat}, d.toTree.BindsAt q x → d.toTree.region q = [] →
      ∃ b ∈ d.bindings, b.1.name = x := by
  induction d using induct_parts with
  | step d ih =>
    rintro (_ | ⟨k, q⟩) hq htop
    · cases h with
      | @node shape _ _ names _ _ _ =>
        rw [toTree, Tree.bindsAt_nil] at hq
        exact absurd (names x (Shape.names_of_given hq)) hx
      | ref _ _ =>
        rw [toTree, Tree.bindsAt_nil] at hq
        cases hq
      | @temps xs values body length _ _ _ _ _ _ _ _ =>
        rw [toTree, Tree.bindsAt_nil] at hq
        obtain ⟨y, hy, rfl⟩ := List.mem_map.1 hq
        obtain ⟨k, hk, rfl⟩ := List.mem_iff_getElem.1 hy
        refine ⟨(xs[k], values[k]), mem_bindings_iff.2 ⟨by simp, .inl ?_⟩, rfl⟩
        exact List.mem_iff_getElem.2 ⟨k, by simpa [lets, length] using hk, by simp [lets]⟩
    · obtain ⟨shape, hd⟩ := d.exists_toTree_eq
      rw [hd] at hq htop
      obtain ⟨c', hc', hq⟩ := Tree.bindsAt_cons.1 hq
      rw [Tree.region_cons hc', Shape.regionBelow_eq_nil] at htop
      rw [List.getElem?_map, Option.map_eq_some_iff] at hc'
      obtain ⟨c, hc, rfl⟩ := hc'
      have hmem := List.mem_of_getElem? hc
      obtain ⟨b, hb, hname⟩ := ih c hmem (h.part hmem) hq htop.1
      refine ⟨b, mem_bindings_iff.2 ⟨?_, .inr ⟨c, hmem, hb⟩⟩, hname⟩
      rintro g transpose cs rfl
      obtain ⟨rfl, -⟩ := Tree.node.inj hd
      exact htop.2 g transpose rfl

end Draft

namespace Extraction

open Draft PassM

/-- The names do not cross the boundary of a recipe. -/
structure Confined (names : List String) (u : Tree) : Prop where
  /-- A let of its region binds what is read. -/
  bound : ∀ x ∈ names, ∀ p, u.ReadsAt p x → ∃ q, u.BindsAt q x ∧ u.region q = u.region p
  /-- What is bound in the body of a recipe is read nowhere else. -/
  inside : ∀ x ∈ names, ∀ r g transpose children,
    u.at? r = some (.node (.recipe g transpose) children) → ∀ p q, r ++ [0] <+: p →
      u.BindsAt p x → u.ReadsAt q x → r ++ [0] <+: q

/-- A name that is bound once, and in the region of all that reads it, is confined. -/
theorem Confined.of_once {names : List String} {u : Tree}
    (once : ∀ x ∈ names, u.letNames.count x ≤ 1)
    (bound : ∀ x ∈ names, ∀ p, u.ReadsAt p x → ∃ q, u.BindsAt q x ∧ u.region q = u.region p) :
    Confined names u := by
  refine ⟨bound, fun x hx r g transpose children hr p q hp hbinds hreads => ?_⟩
  obtain ⟨p', hbinds', hsame⟩ := bound x hx q hreads
  obtain rfl : p = p' := hbinds.unique (once x hx) hbinds'
  obtain ⟨_, _, hat, -⟩ := hbinds
  have htop : r ++ [0] <+: u.region q := hsame ▸ Tree.prefix_region hr hat hp
  exact htop.trans Tree.region_prefix

theorem Confined.ne {names : List String} {u : Tree} (h : Confined names u)
    (once : ∀ x ∈ names, u.letNames.count x ≤ 1) {x y : String} (hx : x ∈ names)
    {p q : List Nat} (hp : u.ReadsAt p x) (hq : u.ReadsAt q y) (hne : u.region p ≠ u.region q) :
    x ≠ y := by
  rintro rfl
  obtain ⟨p', hp', hsame⟩ := h.bound x hx p hp
  obtain ⟨q', hq', hsame'⟩ := h.bound x hx q hq
  obtain rfl : p' = q' := hp'.unique (once x hx) hq'
  exact hne (hsame.symm.trans hsame')

theorem Finished.confined {factors : Index → List Index} {used : List String} {t : Tree}
    {xs : List Reduction} {d : Draft} (h : Finished factors used t xs d) {names : List String}
    (hunused : ∀ x ∈ names, x ∉ used) (once : ∀ x ∈ names, d.toTree.letNames.count x ≤ 1) :
    Confined names d.toTree := by
  refine .of_once once fun x hx p hread => ?_
  obtain ⟨y, hat, rfl⟩ := h.isScoped.exists_ref (hunused x hx) hread
  rcases h.isScoped.exists_bindsAt hat with ⟨-, hfree⟩ | hbinds
  · exact absurd hfree (h.closed y)
  · exact hbinds

/-- No name that extraction mints crosses the boundary of a recipe.  Wherever a sum is met that no
let binds it gives way to such a name, and in different regions these are different names. -/
theorem confined_extract {root : NodeId} {t : Tree} {a : Arena} (options : Options)
    (h : a.WellFormed root t) :
    ∃ (out : NodeId) (w' : Workspace Memory) (u : Tree),
      (extract root).start a (.ofOptions options) = .ok out w' ∧ w'.arena.Unfolds out u ∧
        Confined (minted w'.events) u ∧
        Mirrors a w'.arena (a.IsLetValue root) (extractions w'.events) false root out ∧
        ∀ s x y, (x, s) ∈ extractions w'.events → (y, s) ∈ extractions w'.events →
          ∀ p q, u.ReadsAt p x → u.ReadsAt q y → u.region p ≠ u.region q → x ≠ y := by
  obtain ⟨out, w', hok, xs, d, hd, hadvances, hun⟩ :=
    gives_extract (w := ⟨a, [], .ofOptions options⟩) h rfl
  obtain ⟨hmirrors, -⟩ := ensures_extract_mirrors options h out w' hok
  have hminted : (minted w'.events).Perm (xs.map Reduction.name) := by
    simpa [minted] using hadvances.minted
  have hhygienic := hd.hygienic (fun _ hx => hx) hadvances.nodup hminted
  have honce : ∀ x ∈ minted w'.events, d.toTree.letNames.count x ≤ 1 := fun x hx =>
    (hhygienic.once x hx).le
  have hconfined := hd.confined hhygienic.fresh honce
  refine ⟨out, w', d.toTree, hok, hun, hconfined, hmirrors, fun s x y hx _ p q hp hq => ?_⟩
  refine hconfined.ne honce ?_ hp hq
  rw [minted_eq]
  exact List.mem_map_of_mem hx

/-- A sum that stands in a recipe, which is visited twice, and beside it. -/
def crossing : Arena where
  nodes := #[.index ⟨0⟩, .indexSum [⟨0⟩] ⟨0⟩, .recipe ⟨⟨[⟨1⟩], [], []⟩, ⟨1⟩, none⟩,
    .operator .sum [⟨1⟩, ⟨2⟩, ⟨2⟩]]
  indices := #[⟨"i", 2, .domain, []⟩, ⟨"j", 3, .domain, []⟩]

theorem wellFormed_crossing : ∃ t, crossing.WellFormed ⟨3⟩ t := by
  let sum : Tree := .node (.indexSum [⟨0⟩]) [.node (.index ⟨0⟩) []]
  let recipe : Tree := .node (.recipe ⟨[⟨1⟩], [], []⟩ none) [sum]
  have hsum : crossing.Unfolds ⟨1⟩ sum := ⟨_, rfl, rfl, ⟨_, rfl, rfl, trivial⟩, trivial⟩
  have hrecipe : crossing.Unfolds ⟨2⟩ recipe := ⟨_, rfl, rfl, hsum, trivial⟩
  have hi : crossing.Resolves ⟨0⟩ := .intro rfl (by simp [crossing])
  have hj : crossing.Resolves ⟨1⟩ := .intro rfl (by simp [crossing])
  refine ⟨.node (.operator .sum) [sum, recipe, recipe],
    ⟨_, rfl, rfl, hsum, hrecipe, hrecipe, trivial⟩, ?_⟩
  simp [Tree.indices, Tree.indicesAll, Shape.indices, IndexDeclaration.toList, recipe, sum, hi, hj]

/-- The sum gets one name beside the recipe, and one for each visit of the recipe. -/
theorem confined_extract_crossing :
    ∃ (out : NodeId) (w' : Workspace Memory) (u : Tree),
      (extract ⟨3⟩).start crossing (.ofOptions .default) = .ok out w' ∧ w'.arena.Unfolds out u ∧
        extractions w'.events = [("isum_2", ⟨1⟩), ("isum_1", ⟨1⟩), ("isum_0", ⟨1⟩)] ∧
        Confined ["isum_2", "isum_1", "isum_0"] u := by
  obtain ⟨t, ht⟩ := wellFormed_crossing
  obtain ⟨out, w', u, hok, hun, hconfined, -⟩ := confined_extract .default ht
  have hlogged : extractions w'.events =
      [("isum_2", ⟨1⟩), ("isum_1", ⟨1⟩), ("isum_0", ⟨1⟩)] := by
    have hrun : (match (extract ⟨3⟩).start crossing (.ofOptions .default) with
      | .ok _ w => extractions w.events
      | .error _ _ => []) = [("isum_2", ⟨1⟩), ("isum_1", ⟨1⟩), ("isum_0", ⟨1⟩)] := by
      decide +kernel
    rw [hok] at hrun
    exact hrun
  rw [minted_eq, hlogged] at hconfined
  exact ⟨out, w', u, hok, hun, hlogged, hconfined⟩

end Extraction

end TensorRecipe
