import TensorRecipe.Arena.FreeIndices
import TensorRecipe.Proofs.Tree.Indices
import TensorRecipe.Proofs.Tree.Leaves

/-!
# Free indices of trees

`Tree.free` is what `Arena.freeIndices` computes, said of the tree alone (`freeIndices_eq`): an
ascending list (`pairwise_free`).  An index is free just when one of its leaves is not bound
(`mem_free`).
-/

namespace TensorRecipe

/-! ### Ascending lists of indices -/

theorem Index.lt_iff {i j : Index} : i < j ↔ i.pos < j.pos := Iff.rfl

theorem Index.lt_of_not_lt {i j : Index} (hne : i ≠ j) (h : ¬ i < j) : j < i := by
  rw [Index.lt_iff] at h ⊢
  have : i.pos ≠ j.pos := fun heq => hne (by cases i; cases j; exact congrArg Index.mk heq)
  omega

namespace Ascending

theorem pairwise_insert {x : Index} :
    ∀ {ys : List Index}, ys.Pairwise (· < ·) → (insert x ys).Pairwise (· < ·)
  | [], _ => by simp [insert]
  | y :: ys, h => by
    unfold insert
    split
    · exact h
    · next hne =>
      rw [List.pairwise_cons] at h
      split
      · next hlt =>
        refine List.pairwise_cons.2 ⟨fun z hz => ?_, List.pairwise_cons.2 h⟩
        rcases List.mem_cons.1 hz with rfl | hz
        · exact hlt
        · exact Nat.lt_trans hlt (h.1 z hz)
      · next hlt =>
        refine List.pairwise_cons.2 ⟨fun z hz => ?_, pairwise_insert h.2⟩
        rcases mem_insert.1 hz with rfl | hz
        · exact Index.lt_of_not_lt hne hlt
        · exact h.1 z hz

theorem pairwise_ofList (xs : List Index) : (ofList xs).Pairwise (· < ·) := by
  have key : ∀ (xs ys : List Index), ys.Pairwise (· < ·) →
      (xs.foldl (fun ascending x => insert x ascending) ys).Pairwise (· < ·) := by
    intro xs
    induction xs with
    | nil => exact fun _ h => h
    | cons x xs ih => exact fun ys h => ih _ (pairwise_insert h)
  exact key xs [] .nil

theorem eq_of_mem_iff {xs ys : List Index} (hx : xs.Pairwise (· < ·)) (hy : ys.Pairwise (· < ·))
    (h : ∀ i, i ∈ xs ↔ i ∈ ys) : xs = ys := by
  have nodup : ∀ {l : List Index}, l.Pairwise (· < ·) → l.Nodup := fun hl =>
    hl.imp fun hlt heq => by rw [Index.lt_iff, heq] at hlt; exact lt_irrefl _ hlt
  refine ((List.perm_ext_iff_of_nodup (nodup hx) (nodup hy)).2 h).eq_of_pairwise ?_ hx hy
  intro i j _ _ hij hji
  exact absurd (Nat.lt_trans hij hji) (lt_irrefl _)

end Ascending

/-! ### Free indices -/

/-- The indices that a node reads or loops over; those a recipe declares are not among them. -/
def Shape.used : Shape → List Index
  | .recipe _ _ => []
  | shape => shape.indices

namespace Shape

theorem used_of_scope {shape : Shape} {i : Index} (h : i ∈ shape.scope) : i ∈ shape.used := by
  cases shape <;> first | exact h | simp [scope] at h

theorem indices_of_used {shape : Shape} {i : Index} (h : i ∈ shape.used) : i ∈ shape.indices := by
  cases shape <;> first | exact h | simp [used] at h

end Shape

/-- An index is bound where it is or all of its factors are. -/
def IsBound (factors : Index → List Index) (bound : List Index) (i : Index) : Prop :=
  i ∈ bound ∨ ∀ k ∈ factors i, k ∈ bound

instance (factors : Index → List Index) (bound : List Index) (i : Index) :
    Decidable (IsBound factors bound i) := inferInstanceAs (Decidable (_ ∨ _))

namespace Tree

section

variable (factors : Index → List Index)

mutual

/-- The free indices of a tree, where the indices `bound` are bound. -/
def free (bound : List Index) : Tree → List Index
  | node (.index i) _ => if IsBound factors bound i then [] else [i]
  | node (.var _) _ => []
  | node shape children => Ascending.ofList (freeAll (shape.binds factors ++ bound) children)

/-- The free indices of several trees, one after another. -/
def freeAll (bound : List Index) : List Tree → List Index
  | [] => []
  | t :: ts => free bound t ++ freeAll bound ts

end

end

variable {factors : Index → List Index}

theorem free_node {bound : List Index} {shape : Shape} {children : List Tree}
    (h : shape.IsInner) : (node shape children).free factors bound =
      Ascending.ofList (freeAll factors (shape.binds factors ++ bound) children) := by
  cases shape
  case index i => exact absurd rfl (h.1 i)
  case var x => exact absurd rfl (h.2 x)
  all_goals rfl

theorem freeAll_eq {bound : List Index} (ts : List Tree) :
    freeAll factors bound ts = (ts.map (free factors bound)).flatten := by
  induction ts with
  | nil => rfl
  | cons t ts ih => rw [freeAll, ih, List.map_cons, List.flatten_cons]

theorem mem_freeAll {bound : List Index} {i : Index} {ts : List Tree} :
    i ∈ freeAll factors bound ts ↔ ∃ t ∈ ts, i ∈ t.free factors bound := by
  induction ts with
  | nil => simp [freeAll]
  | cons t ts ih => simp [freeAll, ih]

theorem mem_free {bound : List Index} {i : Index} {t : Tree} :
    i ∈ t.free factors bound ↔
      ∃ leaf ∈ t.leaves factors, leaf.2 = .index i ∧
        ¬ IsBound factors (leaf.1.indices ++ bound) i := by
  induction t using Tree.induct generalizing bound with
  | node shape children ih =>
    rcases shape.isInner_or with hs | ⟨j, rfl⟩ | ⟨y, rfl⟩
    · rw [free_node hs, Ascending.mem_ofList, mem_freeAll]
      constructor
      · rintro ⟨t, ht, hi⟩
        obtain ⟨inside, hin, hleaf, hb⟩ := (ih t ht).1 hi
        obtain ⟨k, hk⟩ := List.mem_iff_getElem?.1 ht
        exact ⟨_, (mem_leaves_node hs).2 ⟨k, t, hk, inside, hin, rfl⟩, hleaf, by
          simpa [Shape.binder] using hb⟩
      · rintro ⟨leaf, hmem, hleaf, hb⟩
        obtain ⟨k, t, hk, inside, hin, rfl⟩ := (mem_leaves_node hs).1 hmem
        have ht := List.mem_of_getElem? hk
        exact ⟨t, ht, (ih t ht).2 ⟨inside, hin, hleaf, by simpa [Shape.binder] using hb⟩⟩
    · rw [free, leaves]
      by_cases hj : i = j
      · subst hj
        by_cases hb : IsBound factors bound i <;> simp [hb]
      · split <;> simp [Ne.symm hj, hj]
    · simp [free, leaves]

theorem pairwise_free {bound : List Index} (t : Tree) :
    (t.free factors bound).Pairwise (· < ·) := by
  obtain ⟨shape, children⟩ := t
  rcases shape.isInner_or with hs | ⟨j, rfl⟩ | ⟨x, rfl⟩
  · rw [free_node hs]
    exact Ascending.pairwise_ofList _
  · rw [free]
    split <;> simp
  · simp [free]

theorem mem_indices_of_mem_free {bound : List Index} {t : Tree} {i : Index}
    (h : i ∈ t.free factors bound) : i ∈ t.indices := by
  obtain ⟨leaf, hleaf, heq, -⟩ := mem_free.1 h
  exact (mem_of_mem_leaves hleaf).1 i heq

end Tree

namespace Arena

theorem isBound_eq {a : Arena} {bound : List Index} {i : Index} (h : a.Resolves i) :
    a.isBound bound i = .ok (decide (IsBound a.factors bound i)) := by
  have hflat : a.flatten [i] = .ok (a.factors i) := by
    rw [flatten_eq (by simpa using h)]
    simp
  unfold isBound
  split
  · next hi => simp [IsBound, hi, pure, Except.pure]
  · next hi =>
    rw [hflat]
    simp only [bind, Except.bind, pure, Except.pure, IsBound, hi, false_or, Except.ok.injEq]
    rw [Bool.eq_iff_iff]
    simp

/-- Below a node the indices that it scopes are bound, and their factors, if these are found. -/
theorem boundBelow_eq_ok {a : Arena} {bound below : List Index} {node : Node} :
    a.boundBelow bound node = .ok below ↔
      (∀ i ∈ node.shape.scope, a.Resolves i) ∧ below = node.shape.binds a.factors ++ bound := by
  have hloop : ∀ is, (do let factors ← a.flatten is; return is ++ factors ++ bound :
      Except Fault (List Index)) = .ok below ↔
        (∀ i ∈ is, a.Resolves i) ∧ below = is ++ is.flatMap a.factors ++ bound := by
    intro is
    constructor
    · intro h
      obtain ⟨l, hl, h⟩ := exists_of_bind_eq_ok h
      obtain ⟨hres, rfl⟩ := of_flatten_eq_ok hl
      exact ⟨hres, (Except.ok.inj h).symm⟩
    · rintro ⟨hres, rfl⟩
      rw [flatten_eq hres]
      rfl
  cases node
  case forAll is _ => exact hloop is
  case indexSum is _ => exact hloop is
  all_goals simp [boundBelow, Node.loopIndices, Node.shape, Shape.scope, Shape.binds, pure,
    Except.pure, eq_comm]

/-- Whatever freeness looks at is there: the tree, and the indices that its loops scope and its
leaves read, down to their factors.  Those a recipe declares need not be. -/
structure Readable (a : Arena) (id : NodeId) (t : Tree) : Prop where
  unfolds : a.Unfolds id t
  resolves : ∀ c n, a.Reaches id c → a.get c = .ok n → ∀ i ∈ n.shape.used, a.Resolves i

theorem Readable.node {a : Arena} {id : NodeId} {shape : Shape} {children : List Tree}
    (h : a.Readable id (.node shape children)) :
    ∃ node, a.get id = .ok node ∧ node.shape = shape ∧
      List.Forall₂ a.Readable node.children children := by
  refine h.unfolds.get_of_child fun c hc t _ hct => ⟨hct, fun d m hd hm => ?_⟩
  exact h.resolves d m (.head hc hd) hm

theorem WellFormed.reaches {a : Arena} {root c : NodeId} {t : Tree} (h : a.WellFormed root t)
    (hc : a.Reaches root c) : ∃ u, a.WellFormed c u := by
  induction hc with
  | refl => exact ⟨t, h⟩
  | tail _ hstep ih =>
    obtain ⟨⟨_, _⟩, hu⟩ := ih
    obtain ⟨n, hn, -, hall⟩ := hu.node
    obtain ⟨v, -, hv⟩ := exists_of_mem_left hall ((child_iff hn).1 hstep)
    exact ⟨v, hv⟩

theorem WellFormed.readable {a : Arena} {root : NodeId} {t : Tree} (h : a.WellFormed root t) :
    a.Readable root t := by
  refine ⟨h.unfolds, fun c n hc hn i hi => ?_⟩
  obtain ⟨⟨_, _⟩, hu⟩ := h.reaches hc
  obtain ⟨n', hn', rfl, -⟩ := hu.node
  obtain rfl : n = n' := Except.ok.inj (hn.symm.trans hn')
  exact hu.resolves i (List.mem_append_left _ (Shape.indices_of_used hi))

theorem freeWithin_eq {a : Arena} (t : Tree) :
    ∀ {root : NodeId} {depth : Nat} {bound : List Index}, a.Readable root t →
      t.height ≤ depth → a.freeWithin depth bound root = .ok (t.free a.factors bound) := by
  induction t using Tree.induct with
  | node shape children ih =>
    intro root depth bound h hdepth
    obtain ⟨depth, rfl, hheight⟩ := Tree.height_le_iff.1 hdepth
    obtain ⟨n, hn, rfl, hc⟩ := h.node
    have hscope : ∀ i ∈ n.shape.scope, a.Resolves i := fun i hi =>
      h.resolves root n .refl hn i (Shape.used_of_scope hi)
    have hbelow : a.boundBelow bound n = .ok (n.shape.binds a.factors ++ bound) :=
      boundBelow_eq_ok.2 ⟨hscope, rfl⟩
    have hchildren : ∀ below,
        n.children.mapM (a.freeWithin depth below) = .ok (children.map (Tree.free a.factors below)) :=
      fun below => mapM_eq_ok_of_forall₂ <| List.forall₂_map_right_iff.2 <|
        forall₂_imp_of_mem hc fun _ _ t ht hct => ih t ht hct (hheight t ht)
    cases n
    case index i =>
      have hi : a.Resolves i :=
        h.resolves root _ .refl hn i (by simp [Node.shape, Shape.used, Shape.indices])
      simp only [freeWithin, hn, bind, Except.bind, isBound_eq hi, pure, Except.pure,
        decide_eq_true_eq, Node.shape, Tree.free]
    case var x =>
      obtain rfl : children = [] := by cases hc; rfl
      simp only [freeWithin, hn, bind, Except.bind, hbelow, hchildren, pure, Except.pure]
      rfl
    all_goals
      simp only [freeWithin, hn, bind, Except.bind, hbelow, hchildren, ← Tree.freeAll_eq, pure,
        Except.pure]
      rfl

theorem isBound_of_ok {a : Arena} {bound : List Index} {i : Index} {b : Bool}
    (h : a.isBound bound i = .ok b) : b = decide (IsBound a.factors bound i) := by
  unfold isBound at h
  split at h
  · next hi =>
    obtain rfl : true = b := Except.ok.inj h
    simp [IsBound, hi]
  · next hi =>
    obtain ⟨l, hl, h⟩ := exists_of_bind_eq_ok h
    obtain ⟨-, rfl⟩ := of_flatten_eq_ok hl
    obtain rfl := Except.ok.inj h
    rw [Bool.eq_iff_iff]
    simp [IsBound, hi]

/-- What is found to be free is, whether or not all indices resolve. -/
theorem freeWithin_of_ok {a : Arena} :
    ∀ {depth : Nat} {bound l : List Index} {id : NodeId} {t : Tree}, a.Unfolds id t →
      a.freeWithin depth bound id = .ok l → l = t.free a.factors bound
  | 0, _, _, _, _, _, h => nomatch h
  | depth + 1, bound, l, id, .node shape children, ht, h => by
    obtain ⟨n, hn, rfl, hc⟩ := ht.get
    rw [freeWithin] at h
    obtain ⟨n', hn', h⟩ := exists_of_bind_eq_ok h
    obtain rfl : n = n' := Except.ok.inj (hn.symm.trans hn')
    have hall : ∀ {below : List Index} {ids : List NodeId} {ts : List Tree} {ls : List (List Index)},
        List.Forall₂ a.Unfolds ids ts → List.Forall₂ (a.freeWithin depth below · = .ok ·) ids ls →
          ls.flatten = Tree.freeAll a.factors below ts := by
      intro below ids ts ls hids
      induction hids generalizing ls with
      | nil =>
        rintro ⟨⟩
        rfl
      | cons hid _ ih =>
        rintro (_ | ⟨hl, hls⟩)
        rw [List.flatten_cons, freeWithin_of_ok hid hl, ih hls, Tree.freeAll]
    have hnode : ∀ {below : List Index}, (∃ ls, n.children.mapM (a.freeWithin depth below) = .ok ls ∧
        l = Ascending.ofList ls.flatten) → a.boundBelow bound n = .ok below →
          l = Ascending.ofList (Tree.freeAll a.factors (n.shape.binds a.factors ++ bound) children) := by
      rintro below ⟨ls, hls, rfl⟩ hbelow
      rw [hall hc (forall₂_of_mapM_eq_ok hls), (boundBelow_eq_ok.1 hbelow).2]
    cases n with
    | index i =>
      obtain ⟨b, hb, h⟩ := exists_of_bind_eq_ok h
      obtain rfl := isBound_of_ok hb
      simpa [Node.shape, Tree.free, pure, Except.pure, eq_comm] using h
    | _ =>
      obtain ⟨below, hbelow, h⟩ := exists_of_bind_eq_ok h
      obtain ⟨ls, hls, h⟩ := exists_of_bind_eq_ok h
      have hl := hnode ⟨ls, hls, (Except.ok.inj h).symm⟩ hbelow
      first
        | exact hl
        | cases hc
          exact hl

theorem freeIndices_eq {a : Arena} {root : NodeId} {t : Tree} (h : a.WellFormed root t) :
    a.freeIndices root = .ok (t.free a.factors []) := by
  have := h.unfolds.height_le
  exact freeWithin_eq t h.readable (by omega)

end Arena

end TensorRecipe
