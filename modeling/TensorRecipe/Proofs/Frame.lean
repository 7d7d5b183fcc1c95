import TensorRecipe.Proofs.Extraction.Composition
import TensorRecipe.Proofs.Rendering.Marks

/-!
# What the arena held before a pass

An arena that has all of another gives the answers that the other gives: every handle there names
the same node, indices have the same factors, and a tree that is all there reads, renders and is
walked alike.  `Arena.Keeps` lists these answers, and `Arena.Extends.keeps` derives them from the
tables alone.  How deep a lookup may go depends on the size of the arena, so each of them is first
compared at two depths, neither less than the height of the tree.

Main statement: passes leave such an arena, with an answer or at a fault (`passes_keep_arena`).
-/

namespace TensorRecipe

theorem forM_congr {m : Type → Type} [Monad m] {α : Type} {f g : α → m PUnit} :
    ∀ {xs : List α}, (∀ x ∈ xs, f x = g x) → xs.forM f = xs.forM g
  | [], _ => rfl
  | x :: xs, h => by
    have hxs : xs.forM f = xs.forM g := forM_congr fun y hy => h y (List.mem_cons_of_mem x hy)
    simp only [List.forM, h x (by simp), hxs]

namespace Arena

/-- What `a` answers, `b` answers too. -/
structure Keeps (a b : Arena) : Prop where
  tables : a.Extends b
  get : ∀ id, id.pos < a.size → b.get id = a.get id
  flatten : ∀ is, b.flatten is = a.flatten is
  freeIndices : ∀ root t, a.Unfolds root t → b.freeIndices root = a.freeIndices root
  render : ∀ m root t, a.Unfolds root t → b.render m root = a.render m root
  walk : ∀ {σ : Type} (v : Visitor σ) root t, a.Unfolds root t → v.walk b root = v.walk a root

namespace Extends

variable {a b : Arena} (h : a.Extends b)
include h

theorem isBound_eq (bound : List Index) (i : Index) : b.isBound bound i = a.isBound bound i := by
  simp only [isBound, flatten_congr h.indices]

theorem boundBelow_eq (bound : List Index) (node : Node) :
    b.boundBelow bound node = a.boundBelow bound node := by
  simp only [boundBelow, flatten_congr h.indices]

/-- Both arenas know a tree of the smaller one: the depths allowed are no less than its height. -/
theorem of_unfolds {p : Nat → Nat → NodeId → Prop}
    (node : ∀ d e id n, a.get id = .ok n → b.get id = .ok n → (∀ c ∈ n.children, p d e c) →
      p (d + 1) (e + 1) id) {root : NodeId} {t : Tree} (ht : a.Unfolds root t) :
    p (a.size + 1) (b.size + 1) root := by
  have hall : ∀ (t : Tree) d e id, a.Unfolds id t → t.height ≤ d → t.height ≤ e → p d e id := by
    intro t
    induction t using Tree.induct with
    | node shape children ih =>
      intro d e id hid hd he
      obtain ⟨n, hn, -, hc⟩ := hid.get
      obtain ⟨d, rfl, hds⟩ := Tree.height_le_iff.1 hd
      obtain ⟨e, rfl, hes⟩ := Tree.height_le_iff.1 he
      refine node d e id n hn (h.get hn) fun c hmem => ?_
      obtain ⟨u, hu, hcu⟩ := exists_of_mem_left hc hmem
      exact ih u hu d e c hcu (hds u hu) (hes u hu)
  exact hall t _ _ root ht (ht.height_le.trans (Nat.le_succ _))
    ((ht.mono h).height_le.trans (Nat.le_succ _))

theorem freeIndices_eq {root : NodeId} {t : Tree} (ht : a.Unfolds root t) :
    b.freeIndices root = a.freeIndices root := by
  have hfree := h.of_unfolds
    (p := fun d e id => ∀ bound, b.freeWithin e bound id = a.freeWithin d bound id)
    (fun d e id n hn hn' hc bound => ?_) ht
  · exact hfree []
  · have hchildren : ∀ below, n.children.mapM (b.freeWithin e below) =
        n.children.mapM (a.freeWithin d below) :=
      fun below => mapM_congr fun c hmem => hc c hmem below
    simp only [freeWithin, hn, hn', h.isBound_eq, h.boundBelow_eq, bind, Except.bind]
    cases n with
    | index i => rfl
    | _ => simp only [hchildren]

theorem renderIndex_eq (m : Marks) : b.renderIndex m = a.renderIndex m := by
  funext i
  simp only [renderIndex, indexInfo_congr h.indices]

theorem render_eq (m : Marks) {root : NodeId} {t : Tree} (ht : a.Unfolds root t) :
    b.render m root = a.render m root := by
  have hrender := h.of_unfolds
    (p := fun d e id => b.renderWithin m e id = a.renderWithin m d id ∧ b.get id = a.get id)
    (fun d e id n hn hn' hc => ?_) ht
  · exact hrender.1
  · have hnode : b.renderNode m (b.renderWithin m e) n = a.renderNode m (a.renderWithin m d) n :=
      renderNode_eq_of_alike (h.renderIndex_eq m) rfl
        (List.forall₂_same.2 fun c hmem => ⟨(hc c hmem).1, congrArg _ (hc c hmem).2⟩)
    simp only [renderWithin, hn, hn', bind, Except.bind, hnode, and_self]

theorem walk_eq {σ : Type} (v : Visitor σ) {root : NodeId} {t : Tree} (ht : a.Unfolds root t) :
    v.walk b root = v.walk a root := by
  refine h.of_unfolds (p := fun d e id => v.walkWithin b e id = v.walkWithin a d id)
    (fun d e id n hn hn' hc => ?_) ht
  have hindex : v.visitIndex b = v.visitIndex a := by
    funext i
    simp only [Visitor.visitIndex, indexInfo_congr h.indices]
  have hof : (MonadExcept.ofExcept (.ok n) : Walk σ Node) = pure n := rfl
  simp only [Visitor.walkWithin, hn, hn', hof, pure_bind, hindex, forM_congr hc]

/-- Nothing but the tables decides what an arena answers on trees that it holds. -/
theorem keeps : a.Keeps b where
  tables := h
  get _ := h.get_eq
  flatten := flatten_congr h.indices
  freeIndices _ _ := h.freeIndices_eq
  render m _ _ := h.render_eq m
  walk v _ _ := h.walk_eq v

end Extends

end Arena

namespace PassM

/-- With an answer or at a fault, the steps leave an arena that answers what that before did. -/
def KeepsArena {ω α : Type} (steps : PassM ω α) : Prop :=
  ∀ w w', steps.Leaves w w' → w.arena.Keeps w'.arena

theorem Composed.keepsArena {ω α : Type} {steps : PassM ω α} (h : Composed steps) :
    steps.KeepsArena :=
  fun _ _ hleaves => (h.extends_of_leaves hleaves).keeps

end PassM

/-- The rule that changes nothing, the rules that rename variables, substitution, binding,
extraction, its replacement of sums alone, and scheduling, from whatever handle of whatever arena
they begin: whether they give an answer or stop at a fault, the arena they leave has the nodes of
that before in front and the same indices, and it answers what that before did. -/
theorem passes_keep_arena (root : NodeId) :
    (Rule.identity.transform root ()).KeepsArena ∧
      (∀ (τ : Type) (step : String → τ → String × τ) (passed : τ),
        ((Rule.renameVariables step).transform root passed).KeepsArena) ∧
      (∀ s : Substitution, (s.apply root).KeepsArena) ∧
      (LoopBinding.bind root).KeepsArena ∧
      (Extraction.extract root).KeepsArena ∧
      (Extraction.replaceSums root).KeepsArena ∧
      ∀ options, (schedule options root).KeepsArena :=
  ⟨(composed_identity root).keepsArena,
    fun _ step passed => (composed_renameVariables step root passed).keepsArena,
    fun s => (s.composed_substitution root).keepsArena,
    (LoopBinding.composed_bind root).keepsArena,
    (Extraction.composed_extract root).keepsArena,
    (Extraction.composed_replaceSums root).keepsArena,
    fun options => (composed_schedule options root).keepsArena⟩

end TensorRecipe
