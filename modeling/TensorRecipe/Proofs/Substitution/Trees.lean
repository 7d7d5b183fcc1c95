import TensorRecipe.Proofs.Pass.Steps
import TensorRecipe.Substitution

/-!
# Substitution on trees

`Tree.substitute` says what substitution makes of a tree, given the trees that replace indices.  On a
well-formed tree `Substitution.apply` succeeds and computes just that (`gives_apply`), provided every
replacement unfolds and every index that another becomes resolves.
-/

namespace TensorRecipe

/-! ### Trees -/

/-- The index that a tree is a leaf of. -/
def Tree.leafIndex? : Tree → Option Index
  | .node (.index i) _ => some i
  | _ => none

section

variable (factors : Index → List Index) (σ : Index → Option Tree)

/-- The index that an index becomes, unless it becomes something else. -/
def newIndex? (i : Index) : Option Index :=
  match σ i with
  | none => some i
  | some t => t.leafIndex?

/-- The index that an index becomes, if it becomes one; else the index itself. -/
def newIndex (i : Index) : Index := (newIndex? σ i).getD i

/-- Declared indices, renamed or left out. -/
def IndexDeclaration.substitute (g : IndexDeclaration) : IndexDeclaration :=
  ⟨g.domain.filterMap (newIndex? σ), g.basis.filterMap (newIndex? σ),
    g.point.filterMap (newIndex? σ)⟩

/-- What becomes of a node that is no index leaf.  A transpose is kept where as many scalar indices
are declared as before. -/
def Shape.substitute : Shape → Shape
  | .recipe g transpose => .recipe (g.substitute σ)
      (if ((g.substitute σ).toList.flatMap factors).length = (g.toList.flatMap factors).length
        then transpose else none)
  | .forAll is => .forAll (is.map (newIndex σ))
  | .indexSum is => .indexSum (is.map (newIndex σ))
  | shape => shape

namespace Tree

mutual

/-- The tree in which indices have their replacements. -/
def substitute : Tree → Tree
  | node (.index i) children => (σ i).getD (node (.index i) children)
  | node shape children => node (shape.substitute factors σ) (substituteAll children)

/-- The trees in which indices have their replacements. -/
def substituteAll : List Tree → List Tree
  | [] => []
  | t :: ts => substitute t :: substituteAll ts

end

end Tree

end

variable {factors : Index → List Index} {σ : Index → Option Tree}

theorem IndexDeclaration.toList_substitute (g : IndexDeclaration) :
    (g.substitute σ).toList = g.toList.filterMap (newIndex? σ) := by
  simp [substitute, toList]

namespace Tree

theorem substitute_node {shape : Shape} {children : List Tree} (h : ∀ i, shape ≠ .index i) :
    (node shape children).substitute factors σ =
      node (shape.substitute factors σ) (substituteAll factors σ children) := by
  cases shape
  case index i => exact absurd rfl (h i)
  all_goals rfl

theorem substituteAll_eq_map :
    ∀ ts : List Tree, substituteAll factors σ ts = ts.map (substitute factors σ)
  | [] => rfl
  | t :: ts => by rw [substituteAll, substituteAll_eq_map ts, List.map_cons]

end Tree

theorem newIndex_eq {i j : Index} (h : newIndex σ i = j) : newIndex? σ i = some j ∨ i = j := by
  rw [newIndex] at h
  cases hi : newIndex? σ i with
  | none => exact .inr (by simpa [hi] using h)
  | some k => exact .inl (by simpa [hi] using h)

theorem Shape.mem_indices_substitute {shape : Shape} {j : Index}
    (h : j ∈ (shape.substitute factors σ).indices) :
    ∃ i ∈ shape.indices, newIndex? σ i = some j ∨ i = j := by
  have hscope : ∀ {is : List Index}, j ∈ is.map (newIndex σ) →
      ∃ i ∈ is, newIndex? σ i = some j ∨ i = j := by
    intro is hj
    obtain ⟨i, hi, hij⟩ := List.mem_map.1 hj
    exact ⟨i, hi, newIndex_eq hij⟩
  cases shape with
  | recipe g transpose =>
    rw [substitute, indices, IndexDeclaration.toList_substitute, List.mem_filterMap] at h
    obtain ⟨i, hi, hij⟩ := h
    exact ⟨i, hi, .inl hij⟩
  | forAll is => exact hscope h
  | indexSum is => exact hscope h
  | _ => exact ⟨j, h, .inr rfl⟩

/-- Every index mentioned after the substitution was mentioned before, or another became it, or a
replacement mentions it. -/
theorem Tree.mem_indices_substitute {j : Index} {t : Tree}
    (h : j ∈ (t.substitute factors σ).indices) :
    (∃ i ∈ t.indices, newIndex? σ i = some j ∨ i = j) ∨ ∃ i u, σ i = some u ∧ j ∈ u.indices := by
  induction t using Tree.induct with
  | node shape children ih =>
    by_cases hleaf : ∃ i, shape = .index i
    · obtain ⟨i, rfl⟩ := hleaf
      rw [substitute] at h
      cases hi : σ i with
      | none =>
        rw [hi] at h
        exact .inl ⟨j, h, .inr rfl⟩
      | some u =>
        rw [hi] at h
        exact .inr ⟨i, u, hi, h⟩
    · push Not at hleaf
      rw [substitute_node hleaf, indices, List.mem_append, substituteAll_eq_map] at h
      rcases h with h | h
      · obtain ⟨i, hi, hij⟩ := Shape.mem_indices_substitute h
        exact .inl ⟨i, List.mem_append_left _ hi, hij⟩
      · obtain ⟨u, hu, hj⟩ := mem_indicesAll.1 h
        obtain ⟨t, ht, rfl⟩ := List.mem_map.1 hu
        rcases ih t ht hj with ⟨i, hi, hij⟩ | hnew
        · exact .inl ⟨i, List.mem_append_right _ (mem_indicesAll.2 ⟨t, ht, hi⟩), hij⟩
        · exact .inr hnew

namespace Substitution

open PassM

/-- Replacements and the trees they unfold to. -/
def Unfolds (s : Substitution) (a : Arena) (σ : Index → Option Tree) : Prop :=
  ∀ i, Option.Rel a.Unfolds (s i) (σ i)

variable {s : Substitution} {a : Arena}

/-! ### Looking up -/

theorem renamed_eq (h : s.Unfolds a σ) (i : Index) : s.renamed a i = .ok (newIndex? σ i) := by
  have hi := h i
  rw [renamed, newIndex?]
  cases hs : s i with
  | none =>
    rw [hs] at hi
    cases hσ : σ i with
    | none => rfl
    | some t => rw [hσ] at hi; cases hi
  | some id =>
    rw [hs] at hi
    cases hσ : σ i with
    | none => rw [hσ] at hi; cases hi
    | some t =>
      rw [hσ] at hi
      obtain ⟨hid⟩ := hi
      obtain ⟨shape, children⟩ := t
      obtain ⟨node, hn, rfl, -⟩ := hid.get
      simp only [hn]
      cases node <;> rfl

theorem renameGroup_eq (h : s.Unfolds a σ) (group : List Index) :
    s.renameGroup group a = .ok (group.filterMap (newIndex? σ)) := by
  rw [renameGroup, mapM_eq_ok fun i _ => renamed_eq h i]
  show Except.ok _ = Except.ok _
  rw [List.filterMap_map]
  rfl

theorem renameGroups_eq (h : s.Unfolds a σ) (g : IndexDeclaration) :
    s.renameGroups g a = .ok (g.substitute σ) := by
  rw [renameGroups, renameGroup_eq h, renameGroup_eq h, renameGroup_eq h]
  rfl

theorem renameScope_eq (h : s.Unfolds a σ) (scope : List Index) :
    s.renameScope scope a = .ok (scope.map (newIndex σ)) := by
  rw [renameScope, mapM_eq_ok fun i _ => renamed_eq h i]
  show Except.ok _ = Except.ok _
  rw [List.zipWith_map_left, List.zipWith_self]
  rfl

theorem keptTranspose_eq {r : Recipe} {g : IndexDeclaration} (hold : ∀ i ∈ r.indices.toList, a.Resolves i)
    (hnew : ∀ i ∈ g.toList, a.Resolves i) : keptTranspose r g a =
      .ok (if (g.toList.flatMap a.factors).length = (r.indices.toList.flatMap a.factors).length
        then r.transpose else none) := by
  unfold keptTranspose
  split
  · next h => simp [h, pure, Except.pure]
  · next transpose h =>
    rw [Arena.flatten_eq hnew, Arena.flatten_eq hold, h]
    rfl

theorem Unfolds.mono (h : s.Unfolds a σ) {b : Arena} (hab : a.Extends b) : s.Unfolds b σ := by
  intro i
  have hi := h i
  generalize s i = x, σ i = y at hi
  cases hi with
  | some hid => exact .some (hid.mono hab)
  | none => exact .none

/-! ### Visits -/

/-- A visit makes of a tree, wherever it is found, another one. -/
def Makes (a : Arena) (visit : Visit Unit Unit) (t t' : Tree) : Prop :=
  ∀ {id : NodeId} {w : Workspace Unit}, a.Extends w.arena → w.arena.WellFormed id t →
    (visit id ()).Gives w fun r w' => w.arena.Extends w'.arena ∧ w'.arena.Unfolds r.1 t'

section

variable {visit : Visit Unit Unit} {f : Tree → Tree}

theorem gives_all : ∀ {ts : List Tree} {ids : List NodeId} {w : Workspace Unit},
    (∀ t ∈ ts, Makes a visit t (f t)) → a.Extends w.arena → List.Forall₂ w.arena.WellFormed ids ts →
      (visit.all ids ()).Gives w fun r w' =>
        w.arena.Extends w'.arena ∧ List.Forall₂ w'.arena.Unfolds r.1 (ts.map f)
  | [], [], w, _, _, .nil => gives_pure ⟨.refl _, .nil⟩
  | t :: ts, id :: ids, w, hv, ha, .cons hid hids => by
    refine (hv t (by simp) ha hid).bind ?_
    rintro ⟨id', _⟩ w₁ ⟨hext, hun⟩
    refine (gives_all (fun u hu => hv u (List.mem_cons_of_mem t hu)) (ha.trans hext)
      (hids.imp fun _ _ h => h.mono hext)).bind ?_
    rintro ⟨ids', _⟩ w₂ ⟨hext', huns⟩
    exact gives_pure ⟨hext.trans hext', .cons (hun.mono hext') huns⟩

theorem gives_rebuild {ts : List Tree} {id : NodeId} {node : Node} {w : Workspace Unit}
    (hv : ∀ t ∈ ts, Makes a visit t (f t)) (ha : a.Extends w.arena)
    (hn : w.arena.get id = .ok node) (hc : List.Forall₂ w.arena.WellFormed node.children ts) :
    (Rule.rebuild visit id node ()).Gives w fun r w' =>
      w.arena.Extends w'.arena ∧ w'.arena.Unfolds r.1 (.node node.shape (ts.map f)) := by
  refine (gives_all hv ha hc).bind ?_
  rintro ⟨new, _⟩ w' ⟨hext, hun⟩
  have hlen : new.length = node.children.length := by
    rw [hun.length_eq, List.length_map, hc.length_eq]
  refine (gives_setChildren (hext.get hn) hlen hun).bind ?_
  rintro id' w'' ⟨hun', hext', -⟩
  exact gives_pure ⟨hext.trans hext', hun'⟩

theorem gives_renameLoop {build : List Index → NodeId → Node} {is : List Index} {body id : NodeId}
    {t : Tree} {w : Workspace Unit}
    (hbuild : ∀ js x, (build js x).children = [x] ∧ (build js x).shape = (build js body).shape)
    (hv : Makes a visit t (f t)) (hs : s.Unfolds a σ) (ha : a.Extends w.arena)
    (hn : w.arena.get id = .ok (build is body)) (hb : w.arena.WellFormed body t) :
    (s.renameLoop build is body visit id).Gives w fun r w' => w.arena.Extends w'.arena ∧
      w'.arena.Unfolds r.1 (.node (build (is.map (newIndex σ)) body).shape [f t]) := by
  refine gives_ask_bind (renameScope_eq (hs.mono ha) is) ?_
  split
  · next hsame =>
    rw [hsame]
    have hall : ∀ u ∈ [t], Makes a visit u (f u) := fun u hu => by
      obtain rfl := List.mem_singleton.1 hu
      exact hv
    have hchildren : List.Forall₂ w.arena.WellFormed (build is body).children [t] := by
      rw [(hbuild is body).1]
      exact .cons hb .nil
    exact gives_rebuild hall ha hn hchildren
  · refine (hv ha hb).bind ?_
    rintro ⟨new, _⟩ w₁ ⟨hext, hun⟩
    refine gives_addNode.bind ?_
    rintro id' w₂ ⟨rfl, rfl⟩
    refine gives_pure ⟨hext.trans (.addNode _ _), ?_⟩
    rw [← (hbuild _ new).2]
    refine Arena.unfolds_addNode ?_
    rw [(hbuild _ new).1]
    exact .cons hun .nil

theorem gives_renameRecipe {r : Recipe} {id : NodeId} {t : Tree} {w : Workspace Unit}
    (hv : Makes a visit t (f t)) (hs : s.Unfolds a σ) (ha : a.Extends w.arena)
    (hn : w.arena.get id = .ok (.recipe r)) (hb : w.arena.WellFormed r.body t)
    (hold : ∀ i ∈ r.indices.toList, a.Resolves i)
    (hnew : ∀ i ∈ (r.indices.substitute σ).toList, a.Resolves i) :
    (s.renameRecipe r visit id).Gives w fun p w' => w.arena.Extends w'.arena ∧
      w'.arena.Unfolds p.1
        (.node ((Shape.recipe r.indices r.transpose).substitute a.factors σ) [f t]) := by
  refine gives_ask_bind (renameGroups_eq (hs.mono ha) r.indices) ?_
  refine (hv ha hb).bind ?_
  rintro ⟨body, _⟩ w₁ ⟨hext, hun⟩
  dsimp only
  split
  · next hsame =>
    obtain ⟨hindices, rfl⟩ := hsame
    refine gives_pure ⟨hext, ?_⟩
    rw [Shape.substitute, hindices, if_pos rfl]
    exact .of_get (hext.get hn) (.cons hun .nil)
  · have hF : w₁.arena.factors = a.factors := Arena.factors_congr (ha.trans hext).indices
    refine gives_ask_bind (keptTranspose_eq (fun i hi => (hold i hi).congr (ha.trans hext).indices)
      fun i hi => (hnew i hi).congr (ha.trans hext).indices) ?_
    refine gives_addNode.bind ?_
    rintro id' w₂ ⟨rfl, rfl⟩
    refine gives_pure ⟨hext.trans (.addNode _ _), ?_⟩
    rw [hF]
    exact Arena.unfolds_addNode (.cons hun .nil)

end

/-! ### The pass -/

theorem makes_transformWithin (hs : s.Unfolds a σ) {t : Tree}
    (hnew : ∀ i ∈ t.indices, ∀ j, newIndex? σ i = some j → a.Resolves j) :
    ∀ {depth : Nat}, t.height ≤ depth →
      Makes a (s.rule.transformWithin depth) t (t.substitute a.factors σ) := by
  induction t using Tree.induct with
  | node shape children ih =>
    intro depth hdepth id w ha hwf
    obtain ⟨depth, rfl, hheight⟩ := Tree.height_le_iff.1 hdepth
    have hv : ∀ u ∈ children,
        Makes a (s.rule.transformWithin depth) u (u.substitute a.factors σ) := fun u hu =>
      ih u hu (fun i hi => hnew i (List.mem_append_right _ (Tree.mem_indicesAll.2 ⟨u, hu, hi⟩)))
        (hheight u hu)
    obtain ⟨n, hn, rfl, hc⟩ := hwf.node
    refine Rule.gives_transformWithin hn ?_
    have hrest : (Rule.rebuild (s.rule.transformWithin depth) id n ()).Gives w fun r w' =>
        w.arena.Extends w'.arena ∧ w'.arena.Unfolds r.1
          (.node n.shape (Tree.substituteAll a.factors σ children)) := by
      rw [Tree.substituteAll_eq_map]
      exact gives_rebuild hv ha hn hc
    cases n with
    | index i =>
      cases hc
      refine gives_pure ⟨.refl _, ?_⟩
      have hi := hs i
      rw [Node.shape, Tree.substitute]
      generalize s i = x, σ i = y at hi
      cases hi with
      | some hid => exact hid.mono ha
      | none => exact .of_get hn .nil
    | recipe r =>
      obtain _ | ⟨hb, _ | _⟩ := hc
      refine gives_renameRecipe (hv _ (by simp)) hs ha hn hb (fun i hi => ?_) fun j hj => ?_
      · exact (hwf.resolves i (List.mem_append_left _ hi)).congr ha.indices.symm
      · rw [IndexDeclaration.toList_substitute, List.mem_filterMap] at hj
        obtain ⟨i, hi, hij⟩ := hj
        exact hnew i (List.mem_append_left _ hi) j hij
    | forAll is body =>
      obtain _ | ⟨hb, _ | _⟩ := hc
      exact gives_renameLoop (fun _ _ => ⟨rfl, rfl⟩) (hv _ (by simp)) hs ha hn hb
    | indexSum is body =>
      obtain _ | ⟨hb, _ | _⟩ := hc
      exact gives_renameLoop (fun _ _ => ⟨rfl, rfl⟩) (hv _ (by simp)) hs ha hn hb
    | _ => exact hrest

/-- On a well-formed tree substitution succeeds, and makes of it what it makes of trees. -/
theorem gives_apply {root : NodeId} {t : Tree} {w : Workspace Unit} (hs : s.Unfolds w.arena σ)
    (h : w.arena.WellFormed root t)
    (hnew : ∀ i ∈ t.indices, ∀ j, newIndex? σ i = some j → w.arena.Resolves j) :
    (s.apply root).Gives w fun out w' =>
      w.arena.Extends w'.arena ∧ w'.arena.Unfolds out (t.substitute w.arena.factors σ) := by
  have hdepth : t.height ≤ Rule.maxDepth w.arena := by
    have := h.unfolds.height_le
    rw [Rule.maxDepth]
    omega
  refine Gives.bind (gives_ask_bind rfl
    (makes_transformWithin hs hnew hdepth (.refl _) h)) fun p w' hp => ?_
  exact gives_pure hp

end Substitution

end TensorRecipe
