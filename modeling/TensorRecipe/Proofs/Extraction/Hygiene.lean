import TensorRecipe.Proofs.Extraction.Preservation

/-!
# Extraction is hygienic

Every name that extraction mints is bound in one place and read nowhere outside it, and none is among
the names of the tree; what is free in the result is what is free in the tree (`hygienic_extract`).
All this is so for any draft that is scoped and closed, and binds no name twice.
-/

namespace TensorRecipe

namespace Tree

mutual

/-- The names that lets bind in a tree, each as often as it is bound. -/
def letNames : Tree → List String
  | node shape children => shape.given ++ letNamesAll children

/-- The names that lets bind in several trees. -/
def letNamesAll : List Tree → List String
  | [] => []
  | t :: ts => letNames t ++ letNamesAll ts

end

theorem letNamesAll_eq (ts : List Tree) : letNamesAll ts = ts.flatMap letNames := by
  induction ts with
  | nil => rfl
  | cons t ts ih => rw [letNamesAll, ih, List.flatMap_cons]

end Tree

namespace Draft

variable {factors : Index → List Index} {used : List String}

/-- A name that is not in use otherwise is bound by lets as often as sums are bound to it. -/
theorem Scoped.count_letNames {d : Draft} (h : d.Scoped factors used) {x : String} (hx : x ∉ used) :
    d.toTree.letNames.count x = (d.bound.map Reduction.name).count x := by
  have hall : ∀ {ds : List Draft}, (∀ d ∈ ds,
      d.toTree.letNames.count x = (d.bound.map Reduction.name).count x) →
      ((toTrees ds).flatMap Tree.letNames).count x = ((boundAll ds).map Reduction.name).count x := by
    intro ds hds
    rw [toTrees_eq, boundAll_eq, List.flatMap_map, List.map_flatMap, List.count_flatMap,
      List.count_flatMap]
    exact congrArg List.sum (List.map_congr_left hds)
  induction h with
  | @node shape children _ names _ _ _ ih =>
    have hgiven : shape.given.count x = 0 :=
      List.count_eq_zero.2 fun hmem => hx (names x (Shape.names_of_given hmem))
    rw [toTree, Tree.letNames, Tree.letNamesAll_eq, List.count_append, hgiven, hall ih, bound,
      Nat.zero_add]
  | ref _ _ => rfl
  | @temps xs values body _ _ _ _ _ _ _ _ _ ihv ihb =>
    rw [toTree, Tree.letNames, Tree.letNamesAll_eq, List.flatMap_append, List.flatMap_singleton,
      bound, List.map_append, List.map_append]
    simp only [List.count_append, hall ihv, ihb, Shape.given]

/-- What the sum of a free reference mentions, the tree that the draft comes from mentions. -/
theorem Scoped.mem_indices_expand_of_free {d : Draft} (h : d.Scoped factors used) {x : Reduction}
    (hx : Free x d) {i : Index} (hi : i ∈ x.sum.indices) : i ∈ d.expand.indices := by
  induction h generalizing x with
  | node _ _ _ _ _ ih =>
    obtain ⟨d, hd, hx⟩ := free_node_iff.1 hx
    rw [expand, expandAll_eq, Tree.indices, List.mem_append, Tree.mem_indicesAll]
    exact .inr ⟨d.expand, List.mem_map_of_mem hd, ih d hd hx hi⟩
  | ref _ _ =>
    obtain rfl := free_ref_iff.1 hx
    exact hi
  | @temps xs values body length _ _ _ _ sums _ _ needed ihv ihb =>
    obtain ⟨-, ⟨d, hd, hx⟩ | hx⟩ := free_temps_iff.1 hx
    · rw [Draft.expand]
      exact body_of_value (R := (i ∈ ·.indices)) length sums needed
        (fun d hd x hx hi => ihv d hd hx hi) (fun x hx hi => ihb hx hi) hd (ihv d hd hx hi)
    · exact ihb hx hi

theorem Scoped.mem_indices_expand {d : Draft} (h : d.Scoped factors used) {i : Index}
    (hi : i ∈ d.toTree.indices) : i ∈ d.expand.indices := by
  induction h with
  | node _ _ _ _ _ ih =>
    rw [expand, expandAll_eq, Tree.indices, List.mem_append, Tree.mem_indicesAll]
    rw [toTree, toTrees_eq, Tree.indices, List.mem_append, Tree.mem_indicesAll] at hi
    refine hi.imp_right ?_
    rintro ⟨t, ht, hi⟩
    obtain ⟨d, hd, rfl⟩ := List.mem_map.1 ht
    exact ⟨d.expand, List.mem_map_of_mem hd, ih d hd hi⟩
  | ref _ _ => simp [toTree, Tree.indices, Tree.indicesAll, Shape.indices] at hi
  | @temps xs values body length _ _ parts last sums _ _ needed ihv ihb =>
    have hi' : (∃ d ∈ values, i ∈ d.toTree.indices) ∨ i ∈ body.toTree.indices := by
      rw [toTree, toTrees_eq, Tree.indices, List.mem_append, Tree.mem_indicesAll] at hi
      simpa [Shape.indices, or_and_right, exists_or] using hi
    rcases hi' with ⟨d, hd, hi⟩ | hi
    · rw [Draft.expand]
      exact body_of_value (R := (i ∈ ·.indices)) length sums needed
        (fun d hd x hx hi => (parts d hd).mem_indices_expand_of_free hx hi)
        (fun x hx hi => last.mem_indices_expand_of_free hx hi) hd (ihv d hd hi)
    · exact ihb hi

end Draft

namespace Extraction

open Draft PassM

/-- The names have been minted for the tree `u`, which comes from the tree `t`. -/
structure Hygienic (factors : Index → List Index) (names : List String) (t u : Tree) : Prop where
  /-- Every name is bound by one let, once. -/
  once : ∀ x ∈ names, u.letNames.count x = 1
  /-- No name is that of a variable or of a let of the other tree. -/
  fresh : ∀ x ∈ names, x ∉ t.names
  /-- A variable of the name is in a later value or in the body of a let that binds it. -/
  inScope : ∀ x ∈ names, ∀ found ∈ u.leaves factors, found.2 = .name x → x ∈ found.1.names
  /-- The same names are read outside of all lets that bind them. -/
  reads : ∀ x, u.Reads factors .empty (.name x) ↔ t.Reads factors .empty (.name x)

variable {factors : Index → List Index} {used : List String}

theorem Finished.hygienic {t : Tree} {xs : List Reduction} {d : Draft}
    (h : Finished factors used t xs d) (hused : ∀ x ∈ t.names, x ∈ used)
    (hnodup : (xs.map Reduction.name).Nodup) {names : List String}
    (hnames : names.Perm (xs.map Reduction.name)) : Hygienic factors names t d.toTree := by
  have hbound : (d.bound.map Reduction.name).Perm names :=
    (h.bound.map _).trans hnames.symm
  have hunused : ∀ x ∈ names, x ∉ used := by
    intro x hx
    obtain ⟨y, hy, rfl⟩ := List.mem_map.1 (hbound.symm.subset hx)
    exact h.isScoped.fresh_of_mem_bound y hy
  have hfresh : ∀ x ∈ names, x ∉ t.names := fun x hx hmem => hunused x hx (hused x hmem)
  have hreads : ∀ x, d.toTree.Reads factors .empty (.name x) ↔ t.Reads factors .empty (.name x) :=
    fun x => by rw [h.isScoped.reads_toTree_iff h.closed, h.expand]
  refine ⟨fun x hx => ?_, hfresh, fun x hx found hfound hname => ?_, hreads⟩
  · rw [h.isScoped.count_letNames (hunused x hx), hbound.count_eq]
    exact List.count_eq_one_of_mem (hnames.nodup_iff.2 hnodup) hx
  · by_contra hout
    -- else the name would be free in the draft, hence in the tree
    have hread : d.toTree.Reads factors .empty (.name x) :=
      ⟨found, hfound, hname, by simpa [Leaf.IsFree] using hout⟩
    exact hfresh x hx ((hreads x).1 hread).mem_names

/-- Extraction binds each name it mints once, around all that refers to it, and frees nothing. -/
theorem hygienic_extract {root : NodeId} {t : Tree} {a : Arena} (options : Options)
    (h : a.WellFormed root t) :
    ∃ out w' u, (extract root).start a (.ofOptions options) = .ok out w' ∧
      w'.arena.Unfolds out u ∧ Hygienic w'.arena.factors (minted w'.events) t u ∧
        w'.arena.freeIndices out = a.freeIndices root := by
  obtain ⟨out, w', hok, xs, d, hd, hadvances, hun⟩ :=
    gives_extract (w := ⟨a, [], .ofOptions options⟩) h rfl
  have hfactors : w'.arena.factors = a.factors := Arena.factors_congr hadvances.arena.indices
  have hminted : (minted w'.events).Perm (xs.map Reduction.name) := by
    simpa [minted] using hadvances.minted
  have hwf : w'.arena.WellFormed out d.toTree := by
    refine ⟨hun, fun i hi => (h.resolves i ?_).congr hadvances.arena.indices⟩
    rw [← hd.expand]
    exact hd.isScoped.mem_indices_expand hi
  refine ⟨out, w', d.toTree, hok, hun, ?_, ?_⟩
  · rw [hfactors]
    exact hd.hygienic (fun _ hx => hx) hadvances.nodup hminted
  · rw [Arena.freeIndices_eq hwf, Arena.freeIndices_eq h, hfactors]
    refine congrArg _ (Ascending.eq_of_mem_iff ?_ ?_ fun i => ?_)
    · exact Tree.pairwise_free _
    · exact Tree.pairwise_free _
    · have hreads : d.toTree.Reads a.factors .empty (.index i) ↔
          d.expand.Reads a.factors .empty (.index i) := hd.isScoped.reads_toTree_iff hd.closed
      rwa [hd.expand, ← Tree.mem_free_iff_reads, ← Tree.mem_free_iff_reads] at hreads

/-- Both references are to the one name that is minted, and the index of the sum stays bound. -/
theorem hygienic_extract_repeated :
    ∃ out w' u, (extract ⟨2⟩).start repeated (.ofOptions .default) = .ok out w' ∧
      w'.arena.Unfolds out u ∧ minted w'.events = ["isum_0"] ∧ u.letNames.count "isum_0" = 1 ∧
        w'.arena.freeIndices out = .ok [] := by
  obtain ⟨out, w', u, hok, hun, hhygienic, hfree⟩ :=
    hygienic_extract .default wellFormed_repeated
  have hminted : minted w'.events = ["isum_0"] := by
    have hrun : (match (extract ⟨2⟩).start repeated (.ofOptions .default) with
      | .ok _ w => minted w.events
      | .error _ _ => []) = ["isum_0"] := by decide +kernel
    rw [hok] at hrun
    exact hrun
  have honce := hhygienic.once "isum_0" (by simp [hminted])
  refine ⟨out, w', u, hok, hun, hminted, honce, hfree.trans ?_⟩
  decide +kernel

end Extraction

end TensorRecipe
