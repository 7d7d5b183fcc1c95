import TensorRecipe.Arena.Visitor
import TensorRecipe.Proofs.Tree.Capture

/-!
# Walks over trees

A walk that enters everything visits every node of the tree and nothing but nodes of the tree and
indices that they carry; `Tree.shapes` lists the shapes of all nodes.  What the walk gathers comes
from going through the visits one after another (`gather_walk_of_walkable`).
-/

namespace TensorRecipe

namespace Tree

mutual

/-- The shapes of all nodes of a tree. -/
def shapes : Tree → List Shape
  | node shape children => shape :: shapesAll children

/-- The shapes of all nodes of several trees. -/
def shapesAll : List Tree → List Shape
  | [] => []
  | t :: ts => shapes t ++ shapesAll ts

end

theorem mem_shapesAll {ts : List Tree} {shape : Shape} :
    shape ∈ shapesAll ts ↔ ∃ t ∈ ts, shape ∈ t.shapes := by
  induction ts with
  | nil => simp [shapesAll]
  | cons t ts ih => simp [shapesAll, ih]

/-- What a tree has just when its shape or a child has it is had by one of its shapes. -/
theorem iff_exists_shape {p : Tree → Prop} {q : Shape → Prop}
    (h : ∀ shape children, p (.node shape children) ↔ q shape ∨ ∃ t ∈ children, p t) {t : Tree} :
    p t ↔ ∃ shape ∈ t.shapes, q shape := by
  induction t using Tree.induct with
  | node shape children ih =>
    rw [h, shapes, List.exists_mem_cons_iff]
    refine or_congr_right ?_
    constructor
    · rintro ⟨t, ht, hp⟩
      obtain ⟨s, hs, hq⟩ := (ih t ht).1 hp
      exact ⟨s, mem_shapesAll.2 ⟨t, ht, hs⟩, hq⟩
    · rintro ⟨s, hs, hq⟩
      obtain ⟨t, ht, hs⟩ := mem_shapesAll.1 hs
      exact ⟨t, ht, (ih t ht).2 ⟨s, hs, hq⟩⟩

theorem mem_names_iff {t : Tree} {x : String} :
    x ∈ t.names ↔ ∃ shape ∈ t.shapes, x ∈ shape.names :=
  iff_exists_shape (p := (x ∈ names ·)) fun _ _ => by rw [names, List.mem_append, mem_namesAll]

theorem mem_indices_iff {t : Tree} {i : Index} :
    i ∈ t.indices ↔ ∃ shape ∈ t.shapes, i ∈ shape.indices :=
  iff_exists_shape (p := (i ∈ indices ·)) fun _ _ => by
    rw [indices, List.mem_append, mem_indicesAll]

end Tree

namespace Arena

variable {a : Arena}

theorem Unfolds.children_eq_nil {id : NodeId} {shape : Shape} {children : List Tree}
    (h : a.Unfolds id (.node shape children)) (hs : ¬ shape.IsInner) : children = [] := by
  obtain ⟨n, hn, rfl, hc⟩ := h.get
  cases n
  case var x => cases hc; rfl
  case index i => cases hc; rfl
  all_goals exact absurd (by simp [Shape.IsInner, Node.shape]) hs

theorem Unfolds.mem_shapes_iff {id : NodeId} {t : Tree} {shape : Shape} (h : a.Unfolds id t) :
    shape ∈ t.shapes ↔ ∃ c n, a.Reaches id c ∧ a.get c = .ok n ∧ n.shape = shape := by
  induction t using Tree.induct generalizing id with
  | node top children ih =>
    obtain ⟨n, hn, rfl, hc⟩ := h.get
    rw [Tree.shapes, List.mem_cons, Tree.mem_shapesAll]
    constructor
    · rintro (rfl | ⟨t, ht, hs⟩)
      · exact ⟨id, n, .refl, hn, rfl⟩
      · obtain ⟨c, hcn, hct⟩ := exists_of_mem_right hc ht
        obtain ⟨d, m, hd, hm, hs⟩ := (ih t ht hct).1 hs
        exact ⟨d, m, .head ⟨n, hn, hcn⟩ hd, hm, hs⟩
    · rintro ⟨d, m, hd, hm, rfl⟩
      obtain rfl | ⟨c, hcn, hcd⟩ := (reaches_iff hn).1 hd
      · exact .inl (by rw [Except.ok.inj (hm.symm.trans hn)])
      · obtain ⟨t, ht, hct⟩ := exists_of_mem_left hc hcn
        exact .inr ⟨t, ht, (ih t ht hct).2 ⟨d, m, hcd, hm, rfl⟩⟩

theorem Unfolds.hasVar_iff {factors : Index → List Index} {id : NodeId} {t : Tree} {x : String}
    (h : a.Unfolds id t) : t.HasVar factors x ↔ .var x ∈ t.shapes := by
  induction t using Tree.induct generalizing id with
  | node shape children ih =>
    rw [Tree.shapes, List.mem_cons]
    by_cases hs : shape.IsInner
    · have hne : Shape.var x ≠ shape := fun heq => hs.2 x heq.symm
      simp only [hne, false_or, Tree.mem_shapesAll]
      obtain ⟨n, -, -, hc⟩ := h.get
      have hchild : ∀ t ∈ children, t.HasVar factors x ↔ .var x ∈ t.shapes := fun t ht => by
        obtain ⟨c, -, hct⟩ := exists_of_mem_right hc ht
        exact ih t ht hct
      constructor
      · rintro ⟨found, hmem, hleaf⟩
        obtain ⟨k, t, ht, inside, hin, rfl⟩ := (Tree.mem_leaves_node hs).1 hmem
        have hmem := List.mem_of_getElem? ht
        exact ⟨t, hmem, (hchild t hmem).1 ⟨inside, hin, hleaf⟩⟩
      · rintro ⟨t, ht, hx⟩
        obtain ⟨inside, hin, hleaf⟩ := (hchild t ht).2 hx
        obtain ⟨k, hk⟩ := List.mem_iff_getElem?.1 ht
        exact ⟨_, (Tree.mem_leaves_node hs).2 ⟨k, t, hk, inside, hin, rfl⟩, hleaf⟩
    · obtain rfl := h.children_eq_nil hs
      rcases shape.isInner_or with hs' | ⟨i, rfl⟩ | ⟨y, rfl⟩
      · exact absurd hs' hs
      · simp [Tree.HasVar, Tree.leaves, Tree.shapesAll]
      · simp [Tree.HasVar, Tree.leaves, Tree.shapesAll, eq_comm]

/-- A walk finds everything: the tree unfolds, and what its nodes carry names entries. -/
structure Walkable (a : Arena) (id : NodeId) (t : Tree) : Prop where
  unfolds : a.Unfolds id t
  infos : ∀ c n, a.Reaches id c → a.get c = .ok n → ∀ i ∈ n.attributes, ∃ info,
    a.indexInfo i = .ok info

theorem Walkable.node {id : NodeId} {shape : Shape} {children : List Tree}
    (h : a.Walkable id (.node shape children)) :
    ∃ node, a.get id = .ok node ∧ node.shape = shape ∧
      List.Forall₂ a.Walkable node.children children := by
  refine h.unfolds.get_of_child fun c hc t _ hct => ⟨hct, fun d m hd hm => ?_⟩
  exact h.infos d m (.head hc hd) hm

theorem mem_shape_indices_of_attributes {node : Node} {i : Index} (h : i ∈ node.attributes) :
    i ∈ node.shape.indices := by
  cases node <;> first | exact h | simp [Node.attributes] at h

theorem WellFormed.walkable {id : NodeId} {t : Tree} (h : a.WellFormed id t) : a.Walkable id t := by
  refine ⟨h.unfolds, fun c n hc hn i hi => (h.resolves i ?_).exists_indexInfo⟩
  exact Tree.mem_indices_iff.2 ⟨n.shape, h.unfolds.mem_shapes_iff.2 ⟨c, n, hc, hn, rfl⟩,
    mem_shape_indices_of_attributes hi⟩

end Arena

namespace Visitor

variable {σ : Type} {a : Arena}

/-- What holds after collecting from one after another, if collecting from each adds its part. -/
theorem foldl_iff {α : Type} {collect : σ → α → σ} {p : σ → Prop} {q : α → Prop}
    (h : ∀ s x, p (collect s x) ↔ p s ∨ q x) :
    ∀ (xs : List α) (s : σ), p (xs.foldl collect s) ↔ p s ∨ ∃ x ∈ xs, q x
  | [], s => by simp
  | x :: xs, s => by
    rw [List.foldl_cons, foldl_iff h xs, h, or_assoc, List.exists_mem_cons_iff]

/-- These visits are to the nodes in the tree at a handle, and to indices. -/
def Covers (a : Arena) (id : NodeId) (visits : List Visited) : Prop :=
  ∀ c n, .node c n ∈ visits ↔ a.Reaches id c ∧ a.get c = .ok n

/-- Steps of a walk that gather from visits one after another. -/
def Gathers (collect : Visited → σ → σ) (steps : Walk σ Unit) (visits : List Visited) : Prop :=
  ∀ memory, steps memory = .ok () (visits.foldl (fun memory v => collect v memory) memory)

variable {collect : Visited → σ → σ}

theorem Gathers.bind {steps : Walk σ Unit} {f : Unit → Walk σ Unit} {visits more : List Visited}
    (h : Gathers collect steps visits) (hf : Gathers collect (f ()) more) :
    Gathers collect (steps >>= f) (visits ++ more) := by
  intro memory
  show EStateM.bind steps f memory = _
  simp only [EStateM.bind, h memory, hf _, List.foldl_append]

theorem gathers_visitIndex (collect : Visited → σ → σ) {i : Index}
    (h : ∃ info, a.indexInfo i = .ok info) :
    ∃ info, Gathers collect ((gather collect).visitIndex a i) [.index i info] := by
  obtain ⟨info, entry⟩ := h
  exact ⟨_, fun memory => by
    show EStateM.bind _ _ memory = _
    simp only [EStateM.bind, MonadExcept.ofExcept, entry]
    rfl⟩

/-- The visits to the indices that a node carries are to no node. -/
theorem gathers_attributes (collect : Visited → σ → σ) {is : List Index}
    (h : ∀ i ∈ is, ∃ info, a.indexInfo i = .ok info) :
    ∃ visits, Gathers collect (is.forM ((gather collect).visitIndex a)) visits ∧
      ∀ c n, .node c n ∉ visits := by
  induction is with
  | nil => exact ⟨[], fun _ => rfl, by simp⟩
  | cons i is ih =>
    obtain ⟨info, hi⟩ := gathers_visitIndex collect (h i (by simp))
    obtain ⟨visits, his, hnot⟩ := ih fun j hj => h j (List.mem_cons_of_mem i hj)
    exact ⟨.index i info :: visits, hi.bind his, by simpa using hnot⟩

/-- The visits to several trees are to the nodes that any of the handles reaches. -/
theorem gathers_children {walk : NodeId → Walk σ Unit} {ids : List NodeId}
    (h : ∀ c ∈ ids, ∃ visits, Gathers collect (walk c) visits ∧ Covers a c visits) :
    ∃ visits, Gathers collect (ids.forM walk) visits ∧
      ∀ c n, .node c n ∈ visits ↔ (∃ d ∈ ids, a.Reaches d c) ∧ a.get c = .ok n := by
  induction ids with
  | nil => exact ⟨[], fun _ => rfl, by simp⟩
  | cons d ids ih =>
    obtain ⟨visits, hd, hcovers⟩ := h d (by simp)
    obtain ⟨more, hids, hmore⟩ := ih fun c hc => h c (List.mem_cons_of_mem d hc)
    refine ⟨visits ++ more, hd.bind hids, fun c n => ?_⟩
    rw [List.mem_append, hcovers c n, hmore c n, List.exists_mem_cons_iff, or_and_right]

/-- A walk gathers from the node, then from its indices, then from what is below. -/
theorem Gathers.walkWithin {id : NodeId} {n : Node} {depth : Nat} {indices below : List Visited}
    (hn : a.get id = .ok n)
    (hindices : Gathers collect (n.attributes.forM ((gather collect).visitIndex a)) indices)
    (hbelow : Gathers collect (n.children.forM ((gather collect).walkWithin a depth)) below) :
    Gathers collect ((gather collect).walkWithin a (depth + 1) id)
      (.node id n :: (indices ++ below)) := by
  intro memory
  have hleave : Gathers collect (modify ((gather collect).leave (.node id n))) [] := fun _ => rfl
  have hbody : Gathers collect (do
      n.attributes.forM ((gather collect).visitIndex a)
      n.children.forM ((gather collect).walkWithin a depth)
      modify ((gather collect).leave (.node id n))) (indices ++ (below ++ [])) :=
    hindices.bind (hbelow.bind hleave)
  have hrun := hbody (collect (.node id n) memory)
  rw [List.append_nil] at hrun
  unfold Visitor.walkWithin
  show EStateM.bind _ _ memory = _
  simp only [EStateM.bind, MonadExcept.ofExcept, hn]
  exact hrun

/-- What a walk that gathers gathers, it gathers from its visits. -/
theorem gathers_walkWithin (t : Tree) :
    ∀ {id : NodeId} {depth : Nat}, a.Walkable id t → t.height ≤ depth →
      ∃ visits, Gathers collect ((gather collect).walkWithin a depth id) visits ∧
        Covers a id visits := by
  induction t using Tree.induct with
  | node shape children ih =>
    intro id depth h hdepth
    obtain ⟨depth, rfl, hheight⟩ := Tree.height_le_iff.1 hdepth
    obtain ⟨n, hn, rfl, hc⟩ := h.node
    obtain ⟨indices, hindices, hnot⟩ := gathers_attributes collect (h.infos id n .refl hn)
    have hchild : ∀ c ∈ n.children, ∃ visits,
        Gathers collect ((gather collect).walkWithin a depth c) visits ∧ Covers a c visits := by
      intro c hmem
      obtain ⟨u, hu, hcu⟩ := Arena.exists_of_mem_left hc hmem
      exact ih u hu hcu (hheight u hu)
    obtain ⟨below, hbelow, hcovers⟩ := gathers_children hchild
    refine ⟨_, .walkWithin hn hindices hbelow, fun c m => ?_⟩
    rw [List.mem_cons, List.mem_append, or_iff_right (hnot c m), hcovers, Arena.reaches_iff hn,
      Visited.node.injEq, or_and_right]
    refine or_congr_left ⟨?_, ?_⟩
    · rintro ⟨rfl, rfl⟩
      exact ⟨rfl, hn⟩
    · rintro ⟨rfl, hm⟩
      exact ⟨rfl, Except.ok.inj (hm.symm.trans hn)⟩

/-- A walk that finds everything gathers from the nodes of the tree, and from indices. -/
theorem gather_walk_of_walkable (collect : Visited → σ → σ) {id : NodeId} {t : Tree}
    (h : a.Walkable id t) :
    ∃ visits, Gathers collect ((gather collect).walk a id) visits ∧ Covers a id visits :=
  gathers_walkWithin t h (h.unfolds.height_le.trans (Nat.le_succ _))

/-! ### Walks however they end -/

section

variable {α β : Type}

/-- The memory with which a walk ends, be it that it succeeds or that it stops. -/
def memoryOf : EStateM.Result Fault σ α → σ
  | .ok _ memory => memory
  | .error _ memory => memory

/-- What holds of the answer and the memory if the steps of a walk succeed, and what holds of the
memory if they stop. -/
structure Ends (steps : Walk σ α) (memory : σ) (Q : α → σ → Prop) (E : σ → Prop) : Prop where
  ok : ∀ x m, steps memory = .ok x m → Q x m
  error : ∀ fault m, steps memory = .error fault m → E m

variable {memory : σ} {Q : α → σ → Prop} {R : β → σ → Prop} {E : σ → Prop}

theorem ends_pure {x : α} (h : Q x memory) : Ends (pure x : Walk σ α) memory Q E := by
  refine ⟨fun y m hrun => ?_, fun _ _ hrun => (nomatch hrun)⟩
  cases hrun
  exact h

theorem ends_throw {fault : Fault} (h : E memory) : Ends (throw fault : Walk σ α) memory Q E := by
  refine ⟨fun _ _ hrun => (nomatch hrun), fun _ _ hrun => ?_⟩
  cases hrun
  exact h

theorem Ends.bind {steps : Walk σ α} {f : α → Walk σ β} (h : Ends steps memory Q E)
    (hf : ∀ x m, Q x m → Ends (f x) m R E) : Ends (steps >>= f) memory R E := by
  have hbind : (steps >>= f) memory = EStateM.bind steps f memory := rfl
  cases hrun : steps memory with
  | ok x m =>
    simp only [EStateM.bind, hrun] at hbind
    have hx := hf x m (h.ok x m hrun)
    exact ⟨fun y m' hy => hx.ok y m' (hbind ▸ hy), fun fault m' hy => hx.error fault m' (hbind ▸ hy)⟩
  | error fault m =>
    simp only [EStateM.bind, hrun] at hbind
    refine ⟨fun y m' hy => ?_, fun fault' m' hy => ?_⟩ <;> rw [hbind] at hy <;> cases hy
    exact h.error fault m hrun

theorem Ends.mono {steps : Walk σ α} {Q' : α → σ → Prop} {E' : σ → Prop}
    (h : Ends steps memory Q E) (hQ : ∀ x m, Q x m → Q' x m) (hE : ∀ m, E m → E' m) :
    Ends steps memory Q' E' :=
  ⟨fun x m hrun => hQ x m (h.ok x m hrun), fun fault m hrun => hE m (h.error fault m hrun)⟩

/-- What has been looked up is handed on, or is missing. -/
theorem ends_ofExcept_bind {result : Except Fault α} {f : α → Walk σ β}
    (hf : ∀ x, result = .ok x → Ends (f x) memory R E) (hE : ∀ fault, result = .error fault → E memory) :
    Ends (MonadExcept.ofExcept result >>= f) memory R E := by
  cases hx : result with
  | ok x => exact (ends_pure (Q := fun y m => y = x ∧ m = memory) ⟨rfl, rfl⟩).bind (by
      rintro _ _ ⟨rfl, rfl⟩
      exact hf _ hx)
  | error fault => exact (ends_throw (Q := fun _ _ => False) (hE fault hx)).bind (by simp)

/-- Entering something, and what is done on the answer. -/
theorem ends_enter_bind {v : Visitor σ} {visited : Visited} {f : Bool → Walk σ β}
    (hf : Ends (f (v.enter visited memory).1) (v.enter visited memory).2 R E) :
    Ends (modifyGet (v.enter visited) >>= f) memory R E :=
  Ends.bind (Q := fun x m => (x, m) = v.enter visited memory) ⟨fun x m hrun => by cases hrun; rfl,
    fun _ _ hrun => (nomatch hrun)⟩ (by
      rintro x m hx
      rw [← hx] at hf
      exact hf)

end

/-! ### Walks that succeed -/

theorem ok_of_bind_eq_ok {α β : Type} {steps : Walk σ α} {f : α → Walk σ β} {y : β}
    {memory memory' : σ} (h : (steps >>= f) memory = .ok y memory') :
    ∃ x m, steps memory = .ok x m ∧ f x m = .ok y memory' := by
  change EStateM.bind steps f memory = _ at h
  cases hx : steps memory with
  | ok x m => exact ⟨x, m, rfl, by simpa only [EStateM.bind, hx] using h⟩
  | error fault m => simp [EStateM.bind, hx] at h

theorem ok_of_forM_eq_ok {α : Type} {visit : α → Walk σ Unit} :
    ∀ {xs : List α} {memory memory' : σ}, xs.forM visit memory = .ok () memory' →
      ∀ x ∈ xs, ∃ m m', visit x m = .ok () m'
  | [], _, _, _ => by simp
  | x :: xs, memory, memory', h => by
    obtain ⟨⟨⟩, m, hx, hxs⟩ := ok_of_bind_eq_ok (f := fun _ => xs.forM visit) h
    exact List.forall_mem_cons.2 ⟨⟨_, _, hx⟩, ok_of_forM_eq_ok hxs⟩

theorem ok_of_ofExcept_bind_eq_ok {α β : Type} {result : Except Fault α} {f : α → Walk σ β} {y : β}
    {memory memory' : σ} (h : (MonadExcept.ofExcept result >>= f) memory = .ok y memory') :
    ∃ x, result = .ok x ∧ f x memory = .ok y memory' := by
  cases result with
  | ok x => exact ⟨x, rfl, h⟩
  | error fault => cases h

/-- An index that is visited is there; it is left again if it is entered. -/
theorem of_visitIndex_eq_ok {v : Visitor σ} {i : Index} {memory memory' : σ}
    (h : v.visitIndex a i memory = .ok () memory') :
    ∃ info, a.indexInfo i = .ok info ∧
      ((v.enter (.index i info) memory).1 = false ∧ memory' = (v.enter (.index i info) memory).2 ∨
        (v.enter (.index i info) memory).1 = true ∧
          memory' = v.leave (.index i info) (v.enter (.index i info) memory).2) := by
  obtain ⟨info, hinfo, h⟩ := ok_of_ofExcept_bind_eq_ok h
  refine ⟨info, hinfo, ?_⟩
  change (if (v.enter (.index i info) memory).1 = true then _ else _ : Walk σ Unit) _ = _ at h
  split at h
  · next htrue =>
    cases h
    exact .inr ⟨htrue, rfl⟩
  · next hfalse =>
    cases h
    exact .inl ⟨by simpa using hfalse, rfl⟩

/-- A node that is walked is there; if it is entered then its indices are visited, its children are
walked, and it is left. -/
theorem of_walkWithin_eq_ok {v : Visitor σ} {depth : Nat} {id : NodeId} {memory memory' : σ}
    (h : v.walkWithin a (depth + 1) id memory = .ok () memory') :
    ∃ node, a.get id = .ok node ∧
      ((v.enter (.node id node) memory).1 = false ∧ memory' = (v.enter (.node id node) memory).2 ∨
        (v.enter (.node id node) memory).1 = true ∧ ∃ m₁ m₂,
          node.attributes.forM (v.visitIndex a) (v.enter (.node id node) memory).2 = .ok () m₁ ∧
          node.children.forM (v.walkWithin a depth) m₁ = .ok () m₂ ∧
          memory' = v.leave (.node id node) m₂) := by
  obtain ⟨node, hn, h⟩ := ok_of_ofExcept_bind_eq_ok h
  refine ⟨node, hn, ?_⟩
  change (if (v.enter (.node id node) memory).1 = true then _ else _ : Walk σ Unit) _ = _ at h
  split at h
  · next htrue =>
    obtain ⟨⟨⟩, m₁, hattributes, h⟩ := ok_of_bind_eq_ok h
    obtain ⟨⟨⟩, m₂, hchildren, h⟩ := ok_of_bind_eq_ok h
    cases h
    exact .inr ⟨htrue, m₁, m₂, hattributes, hchildren, rfl⟩
  · next hfalse =>
    cases h
    exact .inl ⟨by simpa using hfalse, rfl⟩

/-- Where a walk that gathers succeeds, it could do so. -/
theorem exists_walkable_of_walkWithin {collect : Visited → σ → σ} :
    ∀ {depth : Nat} {id : NodeId} {memory memory' : σ},
      (gather collect).walkWithin a depth id memory = .ok () memory' → ∃ t, a.Walkable id t
  | 0, _, _, _, h => nomatch h
  | depth + 1, id, memory, memory', h => by
    obtain ⟨n, hn, ⟨⟨⟩, -⟩ | ⟨-, m₁, m₂, hindices, hchildren, -⟩⟩ := of_walkWithin_eq_ok h
    have hwalkable : ∀ c ∈ n.children, ∃ t, a.Walkable c t := fun c hc => by
      obtain ⟨_, _, hc⟩ := ok_of_forM_eq_ok hchildren c hc
      exact exists_walkable_of_walkWithin hc
    obtain ⟨ts, hts⟩ := Arena.exists_forall₂ hwalkable
    refine ⟨.node n.shape ts, .of_get hn (hts.imp fun _ _ h => h.unfolds), fun d n' hd hn' => ?_⟩
    obtain rfl | ⟨c, hc, hcd⟩ := (Arena.reaches_iff hn).1 hd
    · obtain rfl : n = n' := Except.ok.inj (hn.symm.trans hn')
      intro i hi
      obtain ⟨_, _, hi⟩ := ok_of_forM_eq_ok hindices i hi
      obtain ⟨info, hinfo, -⟩ := of_visitIndex_eq_ok hi
      exact ⟨info, hinfo⟩
    · obtain ⟨t, -, ht⟩ := Arena.exists_of_mem_left hts hc
      exact ht.infos d n' hcd hn'

end Visitor

end TensorRecipe
