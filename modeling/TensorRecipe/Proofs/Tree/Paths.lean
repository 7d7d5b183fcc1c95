import TensorRecipe.Proofs.Tree.Free
import TensorRecipe.Proofs.Tree.Walks

/-!
# Free indices by paths

`a.Way above id p above' d` says that the way `p` leads from the handle `id` down to `d`, and that
the loops on it bind the indices `above'` there if `above` are bound at `id`.  An index is free in a
tree just when a way from the root leads to a leaf of it, and the loops on that way do not between
them bind all its scalar factors.  What recipes declare binds nothing and need not even be there
(`freeIndices_iff_way`).
-/

namespace TensorRecipe

namespace Arena

/-- A way down a tree, by the numbers of the children, and the indices that loops bind at its two
ends, the innermost first. -/
inductive Way (a : Arena) : List Index → NodeId → List Nat → List Index → NodeId → Prop
  | here {above : List Index} {id : NodeId} : a.Way above id [] above id
  | down {above above' : List Index} {id c d : NodeId} {node : Node} {k : Nat} {p : List Nat}
      (get : a.get id = .ok node) (child : node.children[k]? = some c)
      (rest : a.Way (node.shape.scope ++ above) c p above' d) : a.Way above id (k :: p) above' d

variable {a : Arena} {above above' bound : List Index} {id d : NodeId} {p : List Nat}

theorem Way.reaches (h : a.Way above id p above' d) : a.Reaches id d := by
  induction h with
  | here => exact .refl
  | down get child _ ih => exact .head ⟨_, get, List.mem_of_getElem? child⟩ ih

theorem way_iff {node : Node} (hn : a.get id = .ok node) :
    a.Way above id p above' d ↔ (p = [] ∧ above' = above ∧ d = id) ∨
      ∃ k q c, p = k :: q ∧ node.children[k]? = some c ∧
        a.Way (node.shape.scope ++ above) c q above' d := by
  constructor
  · rintro (_ | ⟨get, child, rest⟩)
    · exact .inl ⟨rfl, rfl, rfl⟩
    · obtain rfl := Except.ok.inj (get.symm.trans hn)
      exact .inr ⟨_, _, _, rfl, child, rest⟩
  · rintro (⟨rfl, rfl, rfl⟩ | ⟨k, q, c, rfl, child, rest⟩)
    · exact .here
    · exact .down hn child rest

/-- A larger arena has no new ways where no handle that named nothing names one of its new nodes. -/
theorem Way.of_extends {b : Arena} (hab : a.Extends b) (h : b.Way above id p above' d)
    (hold : ∀ c, a.Reaches id c → c.pos < a.size ∨ b.size ≤ c.pos) : a.Way above id p above' d := by
  induction h with
  | here => exact .here
  | @down above above' id c d node k p get child _ ih =>
    have hid : id.pos < a.size := (hold id .refl).resolve_right (pos_lt_of_get get).not_ge
    have hn : a.get id = .ok node := (hab.get_eq hid).symm.trans get
    exact .down hn child (ih fun e he => hold e (.head ⟨node, hn, List.mem_of_getElem? child⟩ he))

/-- A tree that is all there has no new ways in a larger arena. -/
theorem Unfolds.way_of_extends {b : Arena} {t : Tree} (ht : a.Unfolds id t) (hab : a.Extends b)
    (h : b.Way above id p above' d) : a.Way above id p above' d := by
  refine h.of_extends hab fun c hc => .inl ?_
  obtain ⟨⟨_, _⟩, hu, -⟩ := ht.reaches hc
  obtain ⟨n, hn, -⟩ := hu.get
  exact pos_lt_of_get hn

/-- What loops bind on the way through a readable tree resolves. -/
theorem Readable.resolves_way {t : Tree} (h : a.Readable id t) (hway : a.Way above id p above' d)
    (habove : ∀ i ∈ above, a.Resolves i) : ∀ i ∈ above', a.Resolves i := by
  induction hway generalizing t with
  | here => exact habove
  | @down above above' id c d node k p get child rest ih =>
    obtain ⟨shape, children⟩ := t
    obtain ⟨n, hn, rfl, hall⟩ := h.node
    obtain rfl : n = node := Except.ok.inj (hn.symm.trans get)
    obtain ⟨u, -, hu⟩ := exists_of_mem_left hall (List.mem_of_getElem? child)
    refine ih hu fun i hi => ?_
    rcases List.mem_append.1 hi with hi | hi
    · exact h.resolves id n .refl get i (Shape.used_of_scope hi)
    · exact habove i hi

/-! ### Bound by the factors on the way -/

/-- The indices `bound` are those that the loops over `above` bind: all their scalar factors, and
nothing with a factor that is not one of these. -/
structure BoundBy (a : Arena) (above bound : List Index) : Prop where
  factors : above.flatMap a.factors ⊆ bound
  only : ∀ i ∈ bound, a.factors i ⊆ above.flatMap a.factors

theorem BoundBy.nil : a.BoundBy [] [] := ⟨by simp, by simp⟩

/-- Whether an index is bound is decided by its factors alone. -/
theorem BoundBy.isBound_iff (h : a.BoundBy above bound) (i : Index) :
    IsBound a.factors bound i ↔ a.factors i ⊆ above.flatMap a.factors := by
  constructor
  · rintro (hi | hall) k hk
    · exact h.only i hi hk
    · exact h.only k (hall k hk) (by rw [factors_scalar a i k hk]; simp)
  · exact fun hsub => .inr fun k hk => h.factors (hsub hk)

theorem BoundBy.below (h : a.BoundBy above bound) (shape : Shape) :
    a.BoundBy (shape.scope ++ above) (shape.binds a.factors ++ bound) := by
  rw [Shape.binds]
  constructor
  · rw [List.flatMap_append]
    refine List.append_subset.2 ⟨?_, ?_⟩
    · exact List.subset_append_of_subset_left _ (List.subset_append_right _ _)
    · exact List.subset_append_of_subset_right _ h.factors
  · intro i hi
    rw [List.flatMap_append]
    rcases List.mem_append.1 hi with hi | hi
    · refine List.subset_append_of_subset_left _ fun k hk => ?_
      rcases List.mem_append.1 hi with hi | hi
      · exact List.mem_flatMap.2 ⟨i, hi, hk⟩
      · -- a factor is scalar, so it is its own only factor
        obtain ⟨j, -, hij⟩ := List.mem_flatMap.1 hi
        rw [factors_scalar a j i hij, List.mem_singleton] at hk
        exact hk ▸ hi
    · exact List.subset_append_of_subset_right _ (h.only i hi)

/-- An index is free in a tree just when a way leads to a leaf of it that the loops do not bind. -/
theorem mem_free_iff_way {i : Index} (t : Tree) :
    ∀ {id : NodeId} {above bound : List Index}, a.Unfolds id t → a.BoundBy above bound →
      (i ∈ t.free a.factors bound ↔ ∃ p above' d, a.Way above id p above' d ∧
        a.get d = .ok (.index i) ∧ ¬ a.factors i ⊆ above'.flatMap a.factors) := by
  induction t using Tree.induct with
  | node shape children ih =>
    intro id above bound h hbound
    obtain ⟨n, hn, rfl, hc⟩ := h.get
    by_cases hs : n.shape.IsInner
    · have hnot : n ≠ .index i := by
        rintro rfl
        exact hs.1 i rfl
      rw [Tree.free_node hs, Ascending.mem_ofList, Tree.mem_freeAll]
      constructor
      · rintro ⟨t, ht, hi⟩
        obtain ⟨k, hk⟩ := List.mem_iff_getElem?.1 ht
        obtain ⟨c, hkc, hct⟩ := exists_of_getElem?_left (R := flip a.Unfolds) hc.flip hk
        obtain ⟨p, above', d, hway, hleaf⟩ := (ih t ht hct (hbound.below _)).1 hi
        exact ⟨k :: p, above', d, .down hn hkc hway, hleaf⟩
      · rintro ⟨p, above', d, hway, hleaf, hfree⟩
        rcases (way_iff hn).1 hway with ⟨-, -, rfl⟩ | ⟨k, q, c, -, hkc, hrest⟩
        · exact absurd (Except.ok.inj (hn.symm.trans hleaf)) hnot
        · obtain ⟨t, hkt, hct⟩ := exists_of_getElem?_left hc hkc
          have ht := List.mem_of_getElem? hkt
          exact ⟨t, ht, (ih t ht hct (hbound.below _)).2 ⟨q, above', d, hrest, hleaf, hfree⟩⟩
    · -- a leaf has no children, so that ways from it end at once
      obtain rfl := h.children_eq_nil hs
      have hend : (∃ p above' d, a.Way above id p above' d ∧ a.get d = .ok (.index i) ∧
          ¬ a.factors i ⊆ above'.flatMap a.factors) ↔
          n = .index i ∧ ¬ IsBound a.factors bound i := by
        have hnil : n.children = [] := List.forall₂_nil_right_iff.1 hc
        simp only [way_iff hn, hnil, List.getElem?_nil, reduceCtorEq, false_and, and_false,
          exists_false, or_false, hbound.isBound_iff]
        constructor
        · rintro ⟨_, _, _, ⟨rfl, rfl, rfl⟩, hleaf, hfree⟩
          exact ⟨Except.ok.inj (hn.symm.trans hleaf), hfree⟩
        · rintro ⟨rfl, hfree⟩
          exact ⟨[], above, id, ⟨rfl, rfl, rfl⟩, hn, hfree⟩
      rw [hend]
      cases n
      case index j =>
        by_cases hj : i = j
        · subst hj
          by_cases hb : IsBound a.factors bound i <;> simp [Node.shape, Tree.free, hb]
        · simp only [Node.shape, Tree.free, Node.index.injEq, Ne.symm hj, false_and, iff_false]
          split <;> simp [hj]
      case var x => simp [Node.shape, Tree.free]
      all_goals exact absurd (by simp [Shape.IsInner, Node.shape]) hs

/-! ### Where the free indices are found -/

theorem Readable.of_get {node : Node} {children : List Tree} (hn : a.get id = .ok node)
    (hused : ∀ i ∈ node.shape.used, a.Resolves i)
    (hc : List.Forall₂ a.Readable node.children children) :
    a.Readable id (.node node.shape children) := by
  refine ⟨.of_get hn (hc.imp fun _ _ h => h.unfolds), fun c n hcn hget => ?_⟩
  obtain rfl | ⟨e, he, hec⟩ := (reaches_iff hn).1 hcn
  · obtain rfl : n = node := Except.ok.inj (hget.symm.trans hn)
    exact hused
  · obtain ⟨u, -, hu⟩ := exists_of_mem_left hc he
    exact hu.resolves c n hec hget

theorem resolves_of_isBound {i : Index} {b : Bool} (hbound : ∀ j ∈ bound, a.Resolves j)
    (h : a.isBound bound i = .ok b) : a.Resolves i := by
  unfold isBound at h
  split at h
  · next hi => exact hbound i hi
  · obtain ⟨l, hl, -⟩ := exists_of_bind_eq_ok h
    exact (of_flatten_eq_ok hl).1 i (by simp)

/-- Free indices are only found where everything they depend on is there. -/
theorem exists_readable_of_freeWithin :
    ∀ {depth : Nat} {bound l : List Index} {id : NodeId}, (∀ i ∈ bound, a.Resolves i) →
      a.freeWithin depth bound id = .ok l → ∃ t, a.Readable id t
  | 0, _, _, _, _, h => nomatch h
  | depth + 1, bound, l, id, hbound, h => by
    rw [freeWithin] at h
    obtain ⟨n, hn, h⟩ := exists_of_bind_eq_ok h
    have hnode : ∀ {below : List Index} {ls : List (List Index)},
        a.boundBelow bound n = .ok below → n.children.mapM (a.freeWithin depth below) = .ok ls →
          n.shape.used = n.shape.scope → ∃ t, a.Readable id t := by
      intro below ls hbelow hls hscope
      obtain ⟨hresolves, rfl⟩ := boundBelow_eq_ok.1 hbelow
      have hchild : ∀ c ∈ n.children, ∃ t, a.Readable c t := by
        intro c hc
        obtain ⟨l, hl⟩ := of_mapM_eq_ok hls c hc
        refine exists_readable_of_freeWithin (fun i hi => ?_) hl
        rcases List.mem_append.1 hi with hi | hi
        · rcases List.mem_append.1 hi with hi | hi
          · exact hresolves i hi
          · exact Resolves.of_mem_flatMap hresolves hi
        · exact hbound i hi
      obtain ⟨ts, hts⟩ := exists_forall₂ hchild
      exact ⟨_, .of_get hn (hscope ▸ hresolves) hts⟩
    cases n with
    | index i =>
      obtain ⟨b, hb, -⟩ := exists_of_bind_eq_ok h
      have hi := resolves_of_isBound hbound hb
      exact ⟨_, .of_get hn (by simpa [Node.shape, Shape.used, Shape.indices] using hi) .nil⟩
    | _ =>
      obtain ⟨below, hbelow, h⟩ := exists_of_bind_eq_ok h
      obtain ⟨ls, hls, -⟩ := exists_of_bind_eq_ok h
      exact hnode hbelow hls rfl

/-- A tree is readable just when every handle in it names a node whose scoped and read indices
resolve, and none lies below itself. -/
theorem exists_readable_iff {root : NodeId} : (∃ t, a.Readable root t) ↔
    (∀ c, a.Reaches root c → ∃ node, a.get c = .ok node ∧ ∀ i ∈ node.shape.used, a.Resolves i) ∧
      ∀ c, a.Reaches root c → ¬ a.Below c c := by
  constructor
  · rintro ⟨t, ht⟩
    obtain ⟨hthere, hacyclic⟩ := exists_unfolds_iff.1 ⟨t, ht.unfolds⟩
    refine ⟨fun c hc => ?_, hacyclic⟩
    obtain ⟨n, hn⟩ := hthere c hc
    exact ⟨n, hn, ht.resolves c n hc hn⟩
  · rintro ⟨hthere, hacyclic⟩
    obtain ⟨t, ht⟩ := exists_unfolds_iff.2 ⟨fun c hc => (hthere c hc).imp fun _ h => h.1, hacyclic⟩
    refine ⟨t, ht, fun c n hc hn => ?_⟩
    obtain ⟨n', hn', hused⟩ := hthere c hc
    obtain rfl : n = n' := Except.ok.inj (hn.symm.trans hn')
    exact hused

theorem freeIndices_of_readable {root : NodeId} {t : Tree} (h : a.Readable root t) :
    a.freeIndices root = .ok (t.free a.factors []) := by
  have := h.unfolds.height_le
  exact freeWithin_eq t h (by omega)

/-- The free indices of a tree are found just where all its handles name nodes, none below itself,
and the indices that its loops scope and its leaves read resolve.  They are then the indices, in
ascending order, to a leaf of which a way leads from the root such that some scalar factor of the
index is none of what the loops on the way scope. -/
theorem freeIndices_iff_way (a : Arena) (root : NodeId) :
    ((∃ free, a.freeIndices root = .ok free) ↔
      (∀ c, a.Reaches root c →
        ∃ node, a.get c = .ok node ∧ ∀ i ∈ node.shape.used, a.Resolves i) ∧
      ∀ c, a.Reaches root c → ¬ a.Below c c) ∧
    ∀ free, a.freeIndices root = .ok free →
      free.Pairwise (· < ·) ∧
      ∀ i, i ∈ free ↔ ∃ p above d own bound, a.Way [] root p above d ∧
        a.get d = .ok (.index i) ∧ a.flatten [i] = .ok own ∧ a.flatten above = .ok bound ∧
        ¬ own ⊆ bound := by
  refine ⟨⟨?_, fun h => ?_⟩, fun free hfree => ?_⟩
  · rintro ⟨free, hfree⟩
    exact exists_readable_iff.1 (exists_readable_of_freeWithin (by simp) hfree)
  · obtain ⟨t, ht⟩ := exists_readable_iff.2 h
    exact ⟨_, freeIndices_of_readable ht⟩
  · obtain ⟨t, ht⟩ := exists_readable_of_freeWithin (by simp) hfree
    obtain rfl := Except.ok.inj ((freeIndices_of_readable ht).symm.trans hfree)
    refine ⟨Tree.pairwise_free t, fun i => ?_⟩
    rw [mem_free_iff_way t ht.unfolds BoundBy.nil]
    constructor
    · rintro ⟨p, above, d, hway, hleaf, hout⟩
      have hi : a.Resolves i :=
        ht.resolves d _ hway.reaches hleaf i (by simp [Node.shape, Shape.used, Shape.indices])
      refine ⟨p, above, d, _, _, hway, hleaf, flatten_eq (by simpa using hi),
        flatten_eq (ht.resolves_way hway (by simp)), by simpa using hout⟩
    · rintro ⟨p, above, d, own, bound, hway, hleaf, hown, hbound, hout⟩
      obtain ⟨-, rfl⟩ := of_flatten_eq_ok hown
      obtain ⟨-, rfl⟩ := of_flatten_eq_ok hbound
      exact ⟨p, above, d, hway, hleaf, by simpa using hout⟩

end Arena

end TensorRecipe
