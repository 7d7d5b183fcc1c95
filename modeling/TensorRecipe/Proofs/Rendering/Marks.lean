import TensorRecipe.Proofs.Tree.Unfolding
import TensorRecipe.Render

/-!
# Marks and sharing in rendered text

Two nodes of one shape whose children read alike read alike themselves, whatever arenas they stand
in, if the indices have the same texts there (`renderNode_eq_of_alike`).  Everything else follows
from it.  A marked index might as well have the mark in its name: `a.markNames m` is the arena where
it has.  And what a handle reads as depends on what it unfolds to alone.  Not every handle unfolds
to a tree, so two handles of one arena unfold alike, `a.Alike id id'`, if some relation between
handles holds of them and, with two nodes of one shape, of their children one by one; what names
nothing is alike to itself only.

Main statement: marks relabel indices, and sharing does not show (`render_relabels`).
-/

namespace TensorRecipe

theorem mapM_eq_of_forall₂ {m : Type → Type} [Monad m] [LawfulMonad m] {α β γ : Type}
    {f : α → m γ} {g : β → m γ} {xs : List α} {ys : List β}
    (h : List.Forall₂ (fun x y => f x = g y) xs ys) : xs.mapM f = ys.mapM g := by
  induction h with
  | nil => rfl
  | cons hd _ ih => rw [List.mapM_cons, List.mapM_cons, hd, ih]

theorem forall₂_and {α β : Type} {R S : α → β → Prop} :
    ∀ {xs : List α} {ys : List β}, List.Forall₂ R xs ys → List.Forall₂ S xs ys →
      List.Forall₂ (fun x y => R x y ∧ S x y) xs ys
  | _, _, .nil, .nil => .nil
  | _, _, .cons h hs, .cons h' hs' => .cons ⟨h, h'⟩ (forall₂_and hs hs')

theorem forall₂_of_map_eq {α β γ : Type} {f : α → γ} {g : β → γ} {xs : List α} {ys : List β}
    (h : xs.map f = ys.map g) : List.Forall₂ (fun x y => f x = g y) xs ys := by
  rwa [← List.forall₂_eq_eq_eq, List.forall₂_map_left_iff, List.forall₂_map_right_iff] at h

/-- The children of a let, one by one with those of another. -/
theorem forall₂_append_singleton {α β : Type} {R : α → β → Prop} {xs : List α} {x : α}
    {ys : List β} {y : β} (h : List.Forall₂ R (xs ++ [x]) (ys ++ [y])) :
    List.Forall₂ R xs ys ∧ R x y := by
  obtain ⟨zs, z, heq, hzs, hz⟩ := Arena.exists_append_singleton h
  obtain ⟨rfl, hlast⟩ := List.append_inj' heq rfl
  obtain rfl := List.singleton_inj.1 hlast
  exact ⟨hzs, hz⟩

theorem Node.isSum_iff {x : Node} : x.isSum = true ↔ x.shape = .operator .sum := by
  cases x with
  | operator op ids => cases op <;> simp [isSum, shape]
  | _ => simp [isSum, shape]

theorem Node.isSum_eq_of_shape {x y : Node} (h : x.shape = y.shape) : x.isSum = y.isSum :=
  Bool.eq_iff_iff.2 (by rw [isSum_iff, isSum_iff, h])

namespace Arena

/-! ### Nodes that read alike -/

section Alike

variable {a b : Arena} {m n : Marks} {f g : NodeId → Except Fault String}

/-- The texts of the children of two nodes agree, and so does whether they are sums. -/
def ReadAlike (a b : Arena) (f g : NodeId → Except Fault String) (p q : NodeId) : Prop :=
  f p = g q ∧ (a.get p).map Node.isSum = (b.get q).map Node.isSum

theorem renderIndices_congr (h : a.renderIndex m = b.renderIndex n) :
    a.renderIndices m = b.renderIndices n := by
  funext is
  simp only [renderIndices, h]

theorem renderOperand_eq {op : Operator} {p q : NodeId} (h : ReadAlike a b f g p q) :
    a.renderOperand f op p = b.renderOperand g op q := by
  obtain ⟨htext, hsum⟩ := h
  unfold renderOperand
  rw [htext]
  -- The node is asked for once the text is there, and only whether it is a sum matters.
  cases g q with
  | error e => rfl
  | ok text =>
    cases hp : a.get p <;> cases hq : b.get q <;> simp [hp, hq, Except.map] at hsum
    · simp [bind, Except.bind, hsum]
    · simp [bind, Except.bind, hsum, pure, Except.pure]

theorem renderList_eq {ps qs : List NodeId} (h : List.Forall₂ (ReadAlike a b f g) ps qs) :
    renderList f ps = renderList g qs := by
  rw [renderList, renderList, mapM_eq_of_forall₂ (h.imp fun _ _ hr => hr.1)]

/-- Two nodes of one shape read alike where their children do. -/
theorem renderNode_eq_of_alike (hindex : a.renderIndex m = b.renderIndex n) {x y : Node}
    (hshape : x.shape = y.shape)
    (hchildren : List.Forall₂ (ReadAlike a b f g) x.children y.children) :
    a.renderNode m f x = b.renderNode n g y := by
  have hindices := renderIndices_congr hindex
  cases x <;> cases y <;> try cases hshape
  case recipe r s =>
    obtain ⟨rgroups, rbody, rtranspose⟩ := r
    obtain ⟨sgroups, sbody, stranspose⟩ := s
    obtain ⟨rfl, rfl⟩ := Shape.recipe.inj hshape
    obtain _ | ⟨⟨hbody, -⟩, -⟩ := hchildren
    simp only [renderNode, hindices, hbody]
  case forAll.refl is p q =>
    obtain _ | ⟨⟨hbody, -⟩, -⟩ := hchildren
    simp only [renderNode, hindices, hbody]
  case indexSum.refl is p q =>
    obtain _ | ⟨⟨hbody, -⟩, -⟩ := hchildren
    simp only [renderNode, hindices, hbody]
  case letIn bs p cs q =>
    obtain ⟨hvalues, hbody, -⟩ := forall₂_append_singleton hchildren
    rw [List.forall₂_map_left_iff, List.forall₂_map_right_iff] at hvalues
    have hbindings := forall₂_and (forall₂_of_map_eq (Shape.letIn.inj hshape)) hvalues
    have htexts : bs.mapM (renderBinding f) = cs.mapM (renderBinding g) :=
      mapM_eq_of_forall₂ <| hbindings.imp fun _ _ ⟨hname, hvalue, _⟩ => by
        simp only [renderBinding, hname, hvalue]
    simp only [renderNode, htexts, hbody]
  case var.refl => rfl
  case index.refl i => exact congrFun hindex i
  case constant.refl => rfl
  case operator.refl op ps qs =>
    have htexts : ps.mapM (a.renderOperand f op) = qs.mapM (b.renderOperand g op) :=
      mapM_eq_of_forall₂ (hchildren.imp fun _ _ => renderOperand_eq)
    simp only [renderNode, htexts]
  case unary.refl op p q =>
    obtain _ | ⟨⟨htext, -⟩, -⟩ := hchildren
    simp only [renderNode, htext]
  case apply.refl how p ps q qs =>
    obtain _ | ⟨⟨hhead, -⟩, hargs⟩ := hchildren
    cases how <;> simp only [renderNode, hhead, renderList_eq hargs]
  case delta.refl p p' q q' =>
    have htexts : renderList f [p, p'] = renderList g [q, q'] := renderList_eq hchildren
    simp only [renderNode, htexts]

end Alike

/-! ### Marks -/

/-- The arena where the mark of an index is part of its name. -/
def markNames (a : Arena) (m : Marks) : Arena :=
  { a with indices := a.indices.mapIdx fun pos info =>
      if m.isMarked (.index ⟨pos⟩) then { info with name := "!" ++ info.name ++ "!" } else info }

theorem renderIndex_markNames (a : Arena) (m : Marks) :
    (a.markNames m).renderIndex .empty = a.renderIndex m := by
  funext i
  simp only [renderIndex, indexInfo, markNames, Array.getElem?_mapIdx]
  cases a.indices[i.pos]? with
  | none => rfl
  | some info =>
    have hempty : Marks.empty.isMarked (.index i) = false := rfl
    by_cases hi : m.isMarked (.index i) <;> simp [hi, hempty, bind, Except.bind]

/-- Only marks of indices show. -/
theorem renderIndex_congr (a : Arena) {m n : Marks}
    (h : ∀ i, m.isMarked (.index i) = n.isMarked (.index i)) :
    a.renderIndex m = a.renderIndex n := by
  funext i
  simp only [renderIndex, h]

/-- Arenas with the same nodes where indices have the same texts. -/
theorem renderWithin_congr {a b : Arena} {m n : Marks} (hnodes : a.nodes = b.nodes)
    (hindex : a.renderIndex m = b.renderIndex n) :
    ∀ depth, a.renderWithin m depth = b.renderWithin n depth
  | 0 => rfl
  | depth + 1 => by
    have hget : a.get = b.get := by
      funext id
      simp only [get, hnodes]
    funext id
    simp only [renderWithin, hget, renderWithin_congr hnodes hindex depth]
    cases b.get id with
    | error e => rfl
    | ok x =>
      exact renderNode_eq_of_alike hindex rfl
        (List.forall₂_same.2 fun c _ => ⟨rfl, congrArg _ (congrFun hget c)⟩)

/-! ### Unfolding alike -/

/-- Where `R` holds of two handles, they are one, or they name two nodes of one shape and `R` holds
of their children one by one. -/
def IsBisimulation (a : Arena) (R : NodeId → NodeId → Prop) : Prop :=
  ∀ p q, R p q → p = q ∨ ∃ x y, a.get p = .ok x ∧ a.get q = .ok y ∧ x.shape = y.shape ∧
    List.Forall₂ R x.children y.children

/-- What is below two handles is the same, as far down as there is anything. -/
def Alike (a : Arena) (id id' : NodeId) : Prop := ∃ R, a.IsBisimulation R ∧ R id id'

theorem Alike.of_unfolds {a : Arena} {id id' : NodeId} {t : Tree} (h : a.Unfolds id t)
    (h' : a.Unfolds id' t) : a.Alike id id' := by
  refine ⟨fun p q => ∃ t, a.Unfolds p t ∧ a.Unfolds q t, fun p q ⟨t, hp, hq⟩ => ?_, t, h, h'⟩
  obtain ⟨shape, ts⟩ := t
  obtain ⟨x, hx, hxs, hxc⟩ := hp.get
  obtain ⟨y, hy, hys, hyc⟩ := hq.get
  refine .inr ⟨x, y, hx, hy, hxs.trans hys.symm, List.forall₂_iff_get.2
    ⟨hxc.length_eq.trans hyc.length_eq.symm, fun k hk hk' => ?_⟩⟩
  have hkt : k < ts.length := hxc.length_eq ▸ hk
  exact ⟨ts[k], hxc.get hk hkt, hyc.get hk' hkt⟩

theorem IsBisimulation.renderWithin_eq {a : Arena} {R : NodeId → NodeId → Prop}
    (h : a.IsBisimulation R) (m : Marks) :
    ∀ depth p q, R p q → a.renderWithin m depth p = a.renderWithin m depth q
  | 0, _, _, _ => rfl
  | depth + 1, p, q, hpq => by
    obtain rfl | ⟨x, y, hx, hy, hshape, hc⟩ := h p q hpq
    · rfl
    · simp only [renderWithin, hx, hy]
      refine renderNode_eq_of_alike rfl hshape (hc.imp fun c d hcd => ?_)
      refine ⟨h.renderWithin_eq m depth c d hcd, ?_⟩
      obtain rfl | ⟨u, v, hu, hv, hs, -⟩ := h c d hcd
      · rfl
      · rw [hu, hv, Except.map, Except.map, Node.isSum_eq_of_shape hs]

/-- With marks, a tree reads as it does without them where the marked indices have the marks in
their names, and stops at the same fault if at any.  Marks of nodes do not show, and handles that
unfold alike read alike. -/
theorem render_relabels (a : Arena) (m : Marks) :
    (∀ root, a.render m root = (a.markNames m).render .empty root) ∧
      (∀ n : Marks, (∀ i, n.isMarked (.index i) = m.isMarked (.index i)) →
        ∀ root, a.render n root = a.render m root) ∧
      ∀ root root', a.Alike root root' → a.render m root = a.render m root' := by
  refine ⟨fun root => ?_, fun n hn root => ?_, fun root root' ⟨R, hR, hroot⟩ => ?_⟩
  · have hnodes : a.nodes = (a.markNames m).nodes := rfl
    exact congrFun (renderWithin_congr hnodes (renderIndex_markNames a m).symm (a.size + 1)) root
  · exact congrFun (renderWithin_congr rfl (renderIndex_congr a hn) (a.size + 1)) root
  · exact hR.renderWithin_eq m _ root root' hroot

/-- A sum of an index with itself, over one leaf and over two. -/
def doubled : Arena where
  nodes := #[.index ⟨0⟩, .operator .sum [⟨0⟩, ⟨0⟩], .index ⟨0⟩, .operator .sum [⟨0⟩, ⟨2⟩]]
  indices := #[{ name := "i", extent := 3, role := .point, factors := [] }]

theorem alike_doubled : doubled.Alike ⟨1⟩ ⟨3⟩ :=
  .of_unfolds (t := .node (.operator .sum) [.node (.index ⟨0⟩) [], .node (.index ⟨0⟩) []])
    ⟨_, rfl, rfl, ⟨_, rfl, rfl, trivial⟩, ⟨_, rfl, rfl, trivial⟩, trivial⟩
    ⟨_, rfl, rfl, ⟨_, rfl, rfl, trivial⟩, ⟨_, rfl, rfl, trivial⟩, trivial⟩

/-- The index is marked, and a node is. -/
theorem render_relabels_doubled :
    (doubled.markNames (Marks.empty.mark (.index ⟨0⟩))).render .empty ⟨1⟩ = .ok "!i! + !i!" ∧
      doubled.render ((Marks.empty.mark (.index ⟨0⟩)).mark (.node ⟨2⟩)) ⟨3⟩ =
        .ok "!i! + !i!" := by
  obtain ⟨hnames, hmarks, halike⟩ := render_relabels doubled (Marks.empty.mark (.index ⟨0⟩))
  have hnode : ∀ i, ((Marks.empty.mark (.index ⟨0⟩)).mark (.node ⟨2⟩)).isMarked (.index i) =
      (Marks.empty.mark (.index ⟨0⟩)).isMarked (.index i) :=
    fun i => Bool.eq_iff_iff.2 (by simp [Marks.isMarked_mark])
  have hmarked : doubled.render (Marks.empty.mark (.index ⟨0⟩)) ⟨1⟩ = .ok "!i! + !i!" := by cbv
  rw [hmarks _ hnode, ← halike _ _ alike_doubled, ← hnames]
  exact ⟨hmarked, hmarked⟩

end Arena

end TensorRecipe
