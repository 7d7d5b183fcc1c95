import TensorRecipe.Proofs.LoopBinding.Compositional
import TensorRecipe.Proofs.Tree.Free

/-!
# What binding leaves free

Binding decides from the loops of a whole body which declared indices need a loop, whereas an index
is free or not leaf by leaf.  `Tree.exposed` lists the leaves that no loop reaches once binding is
done, read off the tree as it was before; the declared indices are bound in the result just when
none of them is among these, which is always so where no node has more than one child
(`declared_bound_iff`), but not where one branch loops over an index that another uses
(`declared_free_of_branches`).
-/

namespace TensorRecipe

namespace Tree

section

variable (factors : Index → List Index)

mutual

/-- The leaves that neither a loop on the way to them binds nor one that binding puts around the
body of a recipe there. -/
def exposed (above bound : List Index) : Tree → List Index
  | node (.index i) _ => if IsBound factors bound i then [] else [i]
  | node (.var _) _ => []
  | node (.recipe g _) children =>
    let missing := g.missing above (loopsAll above children)
    exposedAll above (missing ++ missing.flatMap factors ++ bound) children
  | node shape children =>
    exposedAll (shape.scope ++ above) (shape.binds factors ++ bound) children

/-- The exposed leaves of several trees. -/
def exposedAll (above bound : List Index) : List Tree → List Index
  | [] => []
  | t :: ts => exposed above bound t ++ exposedAll above bound ts

end

end

variable {factors : Index → List Index}

theorem exposed_node {above bound : List Index} {shape : Shape} {children : List Tree}
    (h : shape.IsInner) (h' : ∀ g transpose, shape ≠ .recipe g transpose) :
    (node shape children).exposed factors above bound =
      exposedAll factors (shape.scope ++ above) (shape.binds factors ++ bound) children := by
  cases shape
  case index i => exact absurd rfl (h.1 i)
  case var x => exact absurd rfl (h.2 x)
  case recipe g transpose => exact absurd rfl (h' g transpose)
  all_goals rfl

theorem withLoops_node {above : List Index} {shape : Shape} {children : List Tree}
    (h : ∀ g transpose, shape ≠ .recipe g transpose) :
    (node shape children).withLoops factors above =
      node shape (withLoopsAll factors (shape.scope ++ above) children) := by
  cases shape
  case recipe g transpose => exact absurd rfl (h g transpose)
  all_goals rfl

theorem mem_freeAll_wrap {is bound : List Index} {ts : List Tree} {i : Index} :
    i ∈ freeAll factors bound (wrap is ts) ↔
      i ∈ freeAll factors (is ++ is.flatMap factors ++ bound) ts := by
  rw [wrap]
  split
  · next h =>
    obtain rfl : is = [] := by simpa using h
    rfl
  · rw [freeAll, freeAll, List.append_nil, free_node (by simp [Shape.IsInner]),
      Ascending.mem_ofList]
    rfl

mutual

theorem mem_free_withLoops {i : Index} :
    ∀ {t : Tree} {above bound : List Index},
      i ∈ (t.withLoops factors above).free factors bound ↔ i ∈ t.exposed factors above bound
  | node shape children, above, bound => by
    obtain ⟨g, transpose, rfl⟩ | hr := shape.recipe_or
    · rw [withLoops, free_node (by simp [Shape.IsInner]), Ascending.mem_ofList, mem_freeAll_wrap,
        mem_freeAll_withLoopsAll, exposed]
      rfl
    · rw [withLoops_node hr]
      rcases shape.isInner_or with hs | ⟨j, rfl⟩ | ⟨x, rfl⟩
      · rw [free_node hs, exposed_node hs hr, Ascending.mem_ofList, mem_freeAll_withLoopsAll]
      · rw [free, exposed]
      · rw [free, exposed]

theorem mem_freeAll_withLoopsAll {i : Index} :
    ∀ {ts : List Tree} {above bound : List Index},
      i ∈ freeAll factors bound (withLoopsAll factors above ts) ↔
        i ∈ exposedAll factors above bound ts
  | [], _, _ => by simp [withLoopsAll, freeAll, exposedAll]
  | t :: ts, above, bound => by
    rw [withLoopsAll, freeAll, exposedAll, List.mem_append, List.mem_append, mem_free_withLoops,
      mem_freeAll_withLoopsAll]

end

theorem mem_indicesAll_wrap {is : List Index} {ts : List Tree} {i : Index}
    (h : i ∈ indicesAll (wrap is ts)) : i ∈ is ∨ i ∈ indicesAll ts := by
  rw [wrap] at h
  split at h
  · exact .inr h
  · simpa [indicesAll, indices, Shape.indices] using h

mutual

theorem mem_indices_of_mem_withLoops {i : Index} :
    ∀ {t : Tree} {above : List Index}, i ∈ (t.withLoops factors above).indices → i ∈ t.indices
  | node shape children, above, h => by
    rw [indices, List.mem_append]
    obtain ⟨g, transpose, rfl⟩ | hr := shape.recipe_or
    · rw [withLoops, indices, List.mem_append] at h
      rcases h with h | h
      · exact .inl h
      · rcases mem_indicesAll_wrap h with h | h
        · exact .inl (mem_missing.1 h).1
        · exact .inr (mem_indicesAll_of_mem_withLoopsAll h)
    · rw [withLoops_node hr, indices, List.mem_append] at h
      exact h.imp id mem_indicesAll_of_mem_withLoopsAll

theorem mem_indicesAll_of_mem_withLoopsAll {i : Index} :
    ∀ {ts : List Tree} {above : List Index},
      i ∈ indicesAll (withLoopsAll factors above ts) → i ∈ indicesAll ts
  | t :: ts, above, h => by
    rw [withLoopsAll, indicesAll, List.mem_append] at h
    rw [indicesAll, List.mem_append]
    exact h.imp mem_indices_of_mem_withLoops mem_indicesAll_of_mem_withLoopsAll

end

/-! ### Chains -/

/-- No node has more than one child. -/
def IsChain : Tree → Prop
  | node _ [] => True
  | node _ [t] => IsChain t
  | node _ _ => False

end Tree

theorem IsBound.mono {factors : Index → List Index} {bound bound' : List Index} {i : Index}
    (h : ∀ j ∈ bound, j ∈ bound') (hi : IsBound factors bound i) : IsBound factors bound' i :=
  hi.imp (h i) fun hk k hmem => h k (hk k hmem)

/-- The one leaf of a chain lies below all of its loops. -/
theorem Arena.Unfolds.not_isBound_of_mem_exposed {a : Arena} {factors : Index → List Index}
    {i : Index} {t : Tree} :
    ∀ {id : NodeId} {above bound : List Index}, a.Unfolds id t → t.IsChain →
      i ∈ t.exposed factors above bound →
        ¬ IsBound factors (t.loops above ++ (t.loops above).flatMap factors ++ bound) i := by
  induction t using Tree.induct with
  | node shape children ih =>
    intro id above bound hun hchain hi
    obtain ⟨n, -, rfl, hc⟩ := hun.get
    match children, hchain with
    | [], _ => cases n <;> simp_all [Tree.exposed, Tree.exposedAll, Tree.loops, Tree.loopsAll,
        Node.shape]
    | [t], hchain =>
      obtain ⟨c, -, hct⟩ := exists_of_mem_right hc (List.mem_singleton.2 rfl)
      have key : ∀ above' bound', i ∈ t.exposed factors above' bound' → ¬ IsBound factors
          (t.loops above' ++ (t.loops above').flatMap factors ++ bound') i := fun _ _ h =>
        ih t (by simp) hct hchain h
      intro hb
      cases n with
      | recipe r =>
        refine key above _ (by simpa [Tree.exposed, Tree.exposedAll, Node.shape] using hi) ?_
        refine hb.mono fun j hj => ?_
        simp only [Node.shape, Tree.loops, Tree.loopsAll, List.nil_append, List.flatMap_append,
          List.mem_append] at hj ⊢
        tauto
      | forAll is body =>
        refine key (is ++ above) _
          (by simpa [Tree.exposed, Tree.exposedAll, Node.shape, Shape.scope] using hi) ?_
        refine hb.mono fun j hj => ?_
        simp only [Node.shape, Shape.binds, Shape.scope, Tree.loops, Tree.loopsAll,
          List.nil_append, List.mem_append, List.mem_flatMap, List.mem_reverse] at hj ⊢
        grind
      | indexSum is body =>
        refine key (is ++ above) _
          (by simpa [Tree.exposed, Tree.exposedAll, Node.shape, Shape.scope] using hi) ?_
        refine hb.mono fun j hj => ?_
        simp only [Node.shape, Tree.loops, Tree.loopsAll, List.nil_append,
          List.mem_append] at hj ⊢
        tauto
      | var x => cases hc
      | index j => cases hc
      | constant x => cases hc
      | letIn bindings body =>
        exact key above bound (by simpa [Tree.exposed, Tree.exposedAll, Node.shape, Shape.scope,
          Shape.binds] using hi) hb
      | _ =>
        refine key above bound (by simpa [Tree.exposed, Tree.exposedAll, Node.shape, Shape.scope,
          Shape.binds] using hi) ?_
        simpa [Node.shape, Tree.loops, Tree.loopsAll] using hb

/-- Below a chain's root every declared index is a loop's, or a factor of one. -/
theorem Arena.Unfolds.not_mem_exposed_of_isChain {a : Arena} {factors : Index → List Index}
    {id : NodeId} {g : IndexDeclaration} {transpose : Option (List Nat)} {children : List Tree}
    (h : a.Unfolds id (.node (.recipe g transpose) children))
    (hchain : Tree.IsChain (.node (.recipe g transpose) children)) :
    ∀ i ∈ g.toList, ∀ k ∈ i :: factors i,
      k ∉ Tree.exposed factors [] [] (.node (.recipe g transpose) children) := by
  intro i hi k hk hexposed
  have hloops : i ∈ (Tree.node (.recipe g transpose) children).loops [] := by
    rw [Tree.loops, List.mem_append, Tree.mem_missing]
    by_cases hbelow : i ∈ Tree.loopsAll [] children
    · exact .inr hbelow
    · exact .inl ⟨hi, by simp, hbelow⟩
  refine h.not_isBound_of_mem_exposed hchain hexposed (.inl ?_)
  rcases List.mem_cons.1 hk with rfl | hk
  · simp [hloops]
  · simpa using .inr ⟨i, hloops, hk⟩

namespace LoopBinding

open PassM

theorem decides_bind {root : NodeId} {t : Tree} {w : Workspace Marks}
    (h : w.arena.WellFormed root t) :
    (bind root).Decides Unresolvable w (t.Bindable w.arena.factors []) fun id w' =>
      w.arena.Extends w'.arena ∧ w'.arena.Unfolds id (t.withLoops w.arena.factors []) := by
  refine Decides.bind_gives (decides_transform h) ?_
  rintro ⟨id, nest⟩ w' ⟨hext, hun, -⟩
  exact gives_pure ⟨hext, hun⟩

theorem wellFormed_withLoops {root id : NodeId} {t : Tree} {a b : Arena} (h : a.WellFormed root t)
    (hext : a.Extends b) (hun : b.Unfolds id (t.withLoops a.factors [])) :
    b.WellFormed id (t.withLoops a.factors []) :=
  ⟨hun, fun i hi => (h.resolves i (Tree.mem_indices_of_mem_withLoops hi)).congr hext.indices⟩

theorem freeIndices_bind {root id : NodeId} {t : Tree} {w w' : Workspace Marks}
    (h : w.arena.WellFormed root t) (hok : bind root w = .ok id w') :
    ∃ free, w'.arena.freeIndices id = .ok free ∧
      ∀ i, i ∈ free ↔ i ∈ t.exposed w.arena.factors [] [] := by
  obtain ⟨hext, hun⟩ := (decides_bind h).ok_iff.2 _ _ hok
  refine ⟨_, Arena.freeIndices_eq (wellFormed_withLoops h hext hun), fun i => ?_⟩
  rw [Arena.factors_congr hext.indices, Tree.mem_free_withLoops]

/-- Binding a recipe leaves no declared index and no factor of one free just when none of them is
exposed: every leaf of it lies below a loop over it, or below a recipe that declares it and does not
loop over it anywhere in its body.  Where no node has more than one child none is. -/
theorem declared_bound_iff {root id : NodeId} {g : IndexDeclaration}
    {transpose : Option (List Nat)} {children : List Tree} {w w' : Workspace Marks}
    (h : w.arena.WellFormed root (.node (.recipe g transpose) children))
    (hok : bind root w = .ok id w') :
    ∃ free, w'.arena.freeIndices id = .ok free ∧
      ((∀ i ∈ g.toList, i ∉ free ∧ ∀ k ∈ w.arena.factors i, k ∉ free) ↔
        ∀ i ∈ g.toList, ∀ k ∈ i :: w.arena.factors i,
          k ∉ Tree.exposed w.arena.factors [] [] (.node (.recipe g transpose) children)) ∧
      (Tree.IsChain (.node (.recipe g transpose) children) →
        ∀ i ∈ g.toList, i ∉ free ∧ ∀ k ∈ w.arena.factors i, k ∉ free) := by
  obtain ⟨free, hfree, hmem⟩ := freeIndices_bind h hok
  have hiff : (∀ i ∈ g.toList, i ∉ free ∧ ∀ k ∈ w.arena.factors i, k ∉ free) ↔
      ∀ i ∈ g.toList, ∀ k ∈ i :: w.arena.factors i,
        k ∉ Tree.exposed w.arena.factors [] [] (.node (.recipe g transpose) children) := by
    simp only [List.forall_mem_cons, hmem]
  exact ⟨free, hfree, hiff, fun hchain =>
    hiff.2 (h.unfolds.not_mem_exposed_of_isChain hchain)⟩

/-- The loop that is there and the one put around it bind both declared indices. -/
theorem declared_bound_halfLooped :
    ∃ id w' free, bind ⟨2⟩ ⟨halfLooped, [], .empty⟩ = .ok id w' ∧
      w'.arena.freeIndices id = .ok free ∧
        ∀ i ∈ [(⟨0⟩ : Index), ⟨1⟩], i ∉ free ∧ ∀ k ∈ halfLooped.factors i, k ∉ free := by
  obtain ⟨id, w', hok, -⟩ := (decides_bind (w := ⟨halfLooped, [], .empty⟩)
    wellFormed_halfLooped).1 ⟨by simp [Tree.Bindable, Tree.BindableAll], by decide⟩
  obtain ⟨free, hfree, hiff, -⟩ := declared_bound_iff wellFormed_halfLooped hok
  exact ⟨id, w', free, hok, hfree, hiff.2 (by decide)⟩

/-- A recipe over one index, whose body adds up a loop over the index and the index itself. -/
def branches : Arena where
  nodes := #[.index ⟨0⟩, .forAll [⟨0⟩] ⟨0⟩, .operator .sum [⟨1⟩, ⟨0⟩],
    .recipe ⟨⟨[⟨0⟩], [], []⟩, ⟨2⟩, none⟩]
  indices := #[⟨"i", 2, .domain, []⟩]

theorem wellFormed_branches : branches.WellFormed ⟨3⟩ (.node (.recipe ⟨[⟨0⟩], [], []⟩ none)
    [.node (.operator .sum) [.node (.forAll [⟨0⟩]) [.node (.index ⟨0⟩) []],
      .node (.index ⟨0⟩) []]]) := by
  have hleaf : branches.Unfolds ⟨0⟩ (.node (.index ⟨0⟩) []) := ⟨_, rfl, rfl, trivial⟩
  refine ⟨⟨_, rfl, rfl, ⟨_, rfl, rfl, ⟨_, rfl, rfl, hleaf, trivial⟩, hleaf, trivial⟩, trivial⟩, ?_⟩
  have hi : branches.Resolves ⟨0⟩ := .intro rfl (by simp [branches])
  simp [Tree.indices, Tree.indicesAll, Shape.indices, IndexDeclaration.toList, hi]

/-- The loop in one branch keeps binding from putting a loop around both. -/
theorem declared_free_of_branches :
    ¬ ∀ (w : Workspace Marks) (root : NodeId) (g : IndexDeclaration)
      (transpose : Option (List Nat)) (children : List Tree),
        w.arena.WellFormed root (.node (.recipe g transpose) children) →
        ∀ id w', bind root w = .ok id w' → ∃ free, w'.arena.freeIndices id = .ok free ∧
          ∀ i ∈ g.toList, i ∉ free ∧ ∀ k ∈ w.arena.factors i, k ∉ free := by
  intro h
  obtain ⟨id, w', hok, -⟩ := (decides_bind (w := ⟨branches, [], .empty⟩)
    wellFormed_branches).1 ⟨by simp [Tree.Bindable, Tree.BindableAll], by decide⟩
  obtain ⟨free, hfree, hall⟩ := h ⟨branches, [], .empty⟩ ⟨3⟩ _ _ _ wellFormed_branches id w' hok
  obtain ⟨free', hfree', hmem⟩ := freeIndices_bind wellFormed_branches hok
  obtain rfl : free = free' := by simpa [hfree] using hfree'
  exact (hall ⟨0⟩ (by decide)).1 ((hmem _).2 (by decide))

end LoopBinding

end TensorRecipe
