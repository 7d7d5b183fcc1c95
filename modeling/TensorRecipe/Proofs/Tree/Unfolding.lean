import TensorRecipe.Arena.Basic
import TensorRecipe.Proofs.Tree.Basic

/-!
# Unfolding handles

`a.Unfolds id t` says that the nodes below the handle `id` of the arena `a`, with no node shared any
more, are the tree `t`.  A handle has at most one unfolding (`Unfolds.unique`), and it has one just
when every handle below it names a node and none lies below itself (`exists_unfolds_iff`).  Adding
nodes to an arena changes no unfolding (`Unfolds.mono`), and no unfolding is higher than the arena
has nodes (`Unfolds.height_le`).
-/

namespace TensorRecipe

namespace Arena

/-! ### Growing arenas -/

/-- `b` has all of `a`, and perhaps more nodes behind. -/
structure Extends (a b : Arena) : Prop where
  nodes : a.nodes.toList <+: b.nodes.toList
  indices : b.indices = a.indices

namespace Extends

theorem refl (a : Arena) : a.Extends a := ⟨List.prefix_rfl, rfl⟩

theorem trans {a b c : Arena} (h : a.Extends b) (h' : b.Extends c) : a.Extends c :=
  ⟨h.nodes.trans h'.nodes, h'.indices.trans h.indices⟩

theorem addNode (a : Arena) (node : Node) : a.Extends (a.addNode node) :=
  ⟨by simp [Arena.addNode], rfl⟩

end Extends

theorem get_eq_ok {a : Arena} {id : NodeId} {node : Node} :
    a.get id = .ok node ↔ a.nodes[id.pos]? = some node := by
  unfold get
  cases a.nodes[id.pos]? <;> simp

theorem pos_lt_of_get {a : Arena} {id : NodeId} {node : Node} (h : a.get id = .ok node) :
    id.pos < a.size := by
  obtain ⟨hlt, -⟩ := Array.getElem?_eq_some_iff.1 (get_eq_ok.1 h)
  exact hlt

/-- What has been found at a position stays there when more is put behind it. -/
theorem getElem?_of_isPrefix {α : Type} {xs ys : Array α} (h : xs.toList <+: ys.toList) {k : Nat}
    {x : α} (hx : xs[k]? = some x) : ys[k]? = some x := by
  rw [← Array.getElem?_toList] at hx ⊢
  obtain ⟨hlt, rfl⟩ := List.getElem?_eq_some_iff.1 hx
  exact List.prefix_iff_getElem?.1 h k hlt

theorem Extends.get {a b : Arena} (h : a.Extends b) {id : NodeId} {node : Node}
    (hn : a.get id = .ok node) : b.get id = .ok node :=
  get_eq_ok.2 (getElem?_of_isPrefix h.nodes (get_eq_ok.1 hn))

/-- A handle of the smaller arena names the same node in the larger one. -/
theorem Extends.get_eq {a b : Arena} (h : a.Extends b) {id : NodeId} (hid : id.pos < a.size) :
    b.get id = a.get id := by
  have hn : a.get id = .ok a.nodes[id.pos] := get_eq_ok.2 (Array.getElem?_eq_getElem hid)
  rw [hn, h.get hn]

/-! ### Unfoldings -/

mutual

/-- The tree that the nodes below a handle make. -/
def Unfolds (a : Arena) : NodeId → Tree → Prop
  | id, .node shape children =>
    ∃ node, a.get id = .ok node ∧ node.shape = shape ∧ a.UnfoldsAll node.children children

/-- The trees of several handles. -/
def UnfoldsAll (a : Arena) : List NodeId → List Tree → Prop
  | [], [] => True
  | id :: ids, t :: ts => a.Unfolds id t ∧ a.UnfoldsAll ids ts
  | _, _ => False

end

theorem unfoldsAll_iff {a : Arena} {ids : List NodeId} {ts : List Tree} :
    a.UnfoldsAll ids ts ↔ List.Forall₂ a.Unfolds ids ts := by
  induction ids generalizing ts with
  | nil => cases ts <;> simp [UnfoldsAll]
  | cons id ids ih => cases ts <;> simp [UnfoldsAll, ih]

theorem unfolds_node {a : Arena} {id : NodeId} {shape : Shape} {children : List Tree} :
    a.Unfolds id (.node shape children) ↔
      ∃ node, a.get id = .ok node ∧ node.shape = shape ∧
        List.Forall₂ a.Unfolds node.children children := by
  rw [Unfolds]
  simp only [unfoldsAll_iff]

namespace Unfolds

variable {a b : Arena} {id : NodeId} {t u : Tree}

theorem of_get {node : Node} (h : a.get id = .ok node) {children : List Tree}
    (hc : List.Forall₂ a.Unfolds node.children children) :
    a.Unfolds id (.node node.shape children) :=
  unfolds_node.2 ⟨node, h, rfl, hc⟩

theorem get {shape : Shape} {children : List Tree} (h : a.Unfolds id (.node shape children)) :
    ∃ node, a.get id = .ok node ∧ node.shape = shape ∧
      List.Forall₂ a.Unfolds node.children children :=
  unfolds_node.1 h

end Unfolds

mutual

theorem Unfolds.unique {a : Arena} {id : NodeId} :
    ∀ {t u : Tree}, a.Unfolds id t → a.Unfolds id u → t = u
  | .node shape children, .node shape' children', ⟨n, hn, hs, hc⟩, ⟨n', hn', hs', hc'⟩ => by
    obtain rfl : n = n' := by simpa [hn] using hn'
    rw [← hs, ← hs', UnfoldsAll.unique hc hc']

theorem UnfoldsAll.unique {a : Arena} :
    ∀ {ids : List NodeId} {ts us : List Tree}, a.UnfoldsAll ids ts → a.UnfoldsAll ids us → ts = us
  | [], [], [], _, _ => rfl
  | _ :: _, _ :: _, _ :: _, ⟨h, hs⟩, ⟨h', hs'⟩ => by rw [h.unique h', hs.unique hs']

end

mutual

theorem Unfolds.mono {a b : Arena} (hab : a.Extends b) :
    ∀ {id : NodeId} {t : Tree}, a.Unfolds id t → b.Unfolds id t
  | _, .node _ _, ⟨n, hn, hs, hc⟩ => ⟨n, hab.get hn, hs, UnfoldsAll.mono hab hc⟩

theorem UnfoldsAll.mono {a b : Arena} (hab : a.Extends b) :
    ∀ {ids : List NodeId} {ts : List Tree}, a.UnfoldsAll ids ts → b.UnfoldsAll ids ts
  | [], [], _ => trivial
  | _ :: _, _ :: _, ⟨h, hs⟩ => ⟨h.mono hab, hs.mono hab⟩

end

theorem unfolds_addNode {a : Arena} {node : Node} {children : List Tree}
    (hc : List.Forall₂ a.Unfolds node.children children) :
    (a.addNode node).Unfolds a.nextId (.node node.shape children) :=
  .of_get (get_nextId_addNode a node) (hc.imp fun _ _ h => h.mono (.addNode a node))

/-! ### Existence -/

/-- `c` is a child of the node that `id` names. -/
def Child (a : Arena) (id c : NodeId) : Prop := ∃ node, a.get id = .ok node ∧ c ∈ node.children

/-- `c` is `id` or below it. -/
def Reaches (a : Arena) : NodeId → NodeId → Prop := Relation.ReflTransGen a.Child

/-- `c` is properly below `id`. -/
def Below (a : Arena) : NodeId → NodeId → Prop := Relation.TransGen a.Child

theorem child_iff {a : Arena} {id c : NodeId} {node : Node} (hn : a.get id = .ok node) :
    a.Child id c ↔ c ∈ node.children := by
  constructor
  · rintro ⟨n, hn', hc⟩
    obtain rfl : n = node := Except.ok.inj (hn'.symm.trans hn)
    exact hc
  · exact fun hc => ⟨node, hn, hc⟩

theorem reaches_iff {a : Arena} {id c : NodeId} {node : Node} (hn : a.get id = .ok node) :
    a.Reaches id c ↔ id = c ∨ ∃ d ∈ node.children, a.Reaches d c := by
  rw [Reaches, Relation.ReflTransGen.cases_head_iff]
  simp only [child_iff hn]

theorem exists_forall₂ {α β : Type} {R : α → β → Prop} :
    ∀ {xs : List α}, (∀ x ∈ xs, ∃ y, R x y) → ∃ ys, List.Forall₂ R xs ys
  | [], _ => ⟨[], .nil⟩
  | x :: xs, h => by
    obtain ⟨y, hy⟩ := h x (by simp)
    obtain ⟨ys, hys⟩ := exists_forall₂ fun z hz => h z (List.mem_cons_of_mem x hz)
    exact ⟨y :: ys, .cons hy hys⟩

theorem exists_of_mem_left {α β : Type} {R : α → β → Prop} {xs : List α} {ys : List β}
    (h : List.Forall₂ R xs ys) {x : α} (hx : x ∈ xs) : ∃ y ∈ ys, R x y := by
  induction h with
  | nil => simp at hx
  | cons hd _ ih =>
    rcases List.mem_cons.1 hx with rfl | hx
    · exact ⟨_, by simp, hd⟩
    · obtain ⟨y, hy, hr⟩ := ih hx
      exact ⟨y, List.mem_cons_of_mem _ hy, hr⟩

theorem exists_of_mem_right {α β : Type} {R : α → β → Prop} {xs : List α} {ys : List β}
    (h : List.Forall₂ R xs ys) {y : β} (hy : y ∈ ys) : ∃ x ∈ xs, R x y :=
  exists_of_mem_left (R := flip R) h.flip hy

theorem forall₂_imp_of_mem {α β : Type} {R S : α → β → Prop} {xs : List α} {ys : List β}
    (h : List.Forall₂ R xs ys) (himp : ∀ x ∈ xs, ∀ y ∈ ys, R x y → S x y) : List.Forall₂ S xs ys :=
  List.forall₂_iff_zip.2 ⟨h.length_eq, fun hmem =>
    himp _ (List.of_mem_zip hmem).1 _ (List.of_mem_zip hmem).2 (List.forall₂_zip h hmem)⟩

theorem exists_of_getElem?_left {α β : Type} {R : α → β → Prop} {xs : List α} {ys : List β}
    (h : List.Forall₂ R xs ys) {k : Nat} {x : α} (hx : xs[k]? = some x) :
    ∃ y, ys[k]? = some y ∧ R x y := by
  obtain ⟨hlt, rfl⟩ := List.getElem?_eq_some_iff.1 hx
  have hlt' : k < ys.length := h.length_eq ▸ hlt
  exact ⟨_, List.getElem?_eq_getElem hlt', h.get hlt hlt'⟩

theorem exists_append_singleton {α β : Type} {R : α → β → Prop} {xs : List α} {x : α}
    {ys : List β} (h : List.Forall₂ R (xs ++ [x]) ys) :
    ∃ zs z, ys = zs ++ [z] ∧ List.Forall₂ R xs zs ∧ R x z := by
  induction xs generalizing ys with
  | nil =>
    obtain _ | ⟨hx, _ | _⟩ := h
    exact ⟨[], _, rfl, .nil, hx⟩
  | cons _ xs ih =>
    obtain _ | ⟨hd, h⟩ := h
    obtain ⟨zs, z, rfl, hzs, hz⟩ := ih h
    exact ⟨_ :: zs, z, rfl, .cons hd hzs, hz⟩

/-- What each child has of its own unfolding the children have of those of the tree. -/
theorem Unfolds.get_of_child {a : Arena} {R : NodeId → Tree → Prop} {id : NodeId} {shape : Shape}
    {children : List Tree} (h : a.Unfolds id (.node shape children))
    (hR : ∀ c, a.Child id c → ∀ t ∈ children, a.Unfolds c t → R c t) :
    ∃ node, a.get id = .ok node ∧ node.shape = shape ∧ List.Forall₂ R node.children children := by
  obtain ⟨n, hn, hs, hc⟩ := h.get
  exact ⟨n, hn, hs, forall₂_imp_of_mem hc fun c hmem t ht => hR c ⟨n, hn, hmem⟩ t ht⟩

/-- What is below a handle has a lower unfolding. -/
theorem Unfolds.child {a : Arena} {id c : NodeId} {t : Tree} (h : a.Unfolds id t)
    (hc : a.Child id c) : ∃ u, a.Unfolds c u ∧ u.height < t.height := by
  obtain ⟨shape, children⟩ := t
  obtain ⟨n, hn, -, hall⟩ := h.get
  obtain ⟨u, hu, hcu⟩ := exists_of_mem_left hall ((child_iff hn).1 hc)
  exact ⟨u, hcu, Tree.height_lt_of_mem hu⟩

theorem Unfolds.reaches {a : Arena} {id c : NodeId} {t : Tree} (h : a.Unfolds id t)
    (hc : a.Reaches id c) : ∃ u, a.Unfolds c u ∧ u.height ≤ t.height := by
  induction hc with
  | refl => exact ⟨t, h, le_rfl⟩
  | tail _ hstep ih =>
    obtain ⟨u, hu, hle⟩ := ih
    obtain ⟨v, hv, hlt⟩ := hu.child hstep
    exact ⟨v, hv, by omega⟩

theorem Unfolds.below {a : Arena} {id c : NodeId} {t : Tree} (h : a.Unfolds id t)
    (hc : a.Below id c) : ∃ u, a.Unfolds c u ∧ u.height < t.height := by
  obtain ⟨d, hstep, hrest⟩ := Relation.TransGen.head'_iff.1 hc
  obtain ⟨u, hu, hlt⟩ := h.child hstep
  obtain ⟨v, hv, hle⟩ := hu.reaches hrest
  exact ⟨v, hv, by omega⟩

/-- A handle has an unfolding just when every handle below it names a node and none is below
itself. -/
theorem exists_unfolds_iff {a : Arena} {root : NodeId} :
    (∃ t, a.Unfolds root t) ↔
      (∀ c, a.Reaches root c → ∃ node, a.get c = .ok node) ∧
        ∀ c, a.Reaches root c → ¬ a.Below c c := by
  constructor
  · rintro ⟨t, ht⟩
    constructor
    · intro c hc
      obtain ⟨⟨_, _⟩, hu, -⟩ := ht.reaches hc
      obtain ⟨n, hn, -⟩ := hu.get
      exact ⟨n, hn⟩
    · intro c hc hcc
      obtain ⟨u, hu, -⟩ := ht.reaches hc
      obtain ⟨v, hv, hlt⟩ := hu.below hcc
      rw [hu.unique hv] at hlt
      exact lt_irrefl _ hlt
  · rintro ⟨hres, hacyc⟩
    let R := {c // a.Reaches root c}
    have hfin : Finite R := by
      refine Finite.of_injective (β := Fin a.size)
        (fun c => ⟨c.1.pos, pos_lt_of_get (hres c.1 c.2).choose_spec⟩) ?_
      rintro ⟨⟨p⟩, _⟩ ⟨⟨q⟩, _⟩ h
      obtain rfl : p = q := by simpa using h
      rfl
    let under : R → R → Prop := fun c d => a.Below d.1 c.1
    have : IsTrans R under := ⟨fun _ _ _ h h' => h'.trans h⟩
    have : Std.Irrefl under := ⟨fun c h => hacyc c.1 c.2 h⟩
    have hwf : WellFounded under := Finite.wellFounded_of_trans_of_irrefl under
    have key : ∀ c : R, ∃ t, a.Unfolds c.1 t := by
      intro c
      induction c using hwf.induction with
      | _ c ih =>
        obtain ⟨n, hn⟩ := hres c.1 c.2
        have hchild : ∀ d ∈ n.children, ∃ t, a.Unfolds d t := fun d hd =>
          have hcd : a.Child c.1 d := ⟨n, hn, hd⟩
          ih ⟨d, c.2.tail hcd⟩ (.single hcd)
        obtain ⟨ts, hts⟩ := exists_forall₂ hchild
        exact ⟨_, .of_get hn hts⟩
    exact key ⟨root, .refl⟩

/-! ### Heights -/

/-- A number whose smaller numbers are attained at different places has that many places. -/
theorem le_of_attained {m n : Nat} {R : Nat → Nat → Prop} (hlt : ∀ {k p}, R k p → p < n)
    (hfun : ∀ {k k' p}, R k p → R k' p → k = k') (hatt : ∀ k < m, ∃ p, R k p) : m ≤ n := by
  choose f hf using hatt
  have hinj : Function.Injective fun k : Fin m => (⟨f k k.2, hlt (hf k k.2)⟩ : Fin n) := by
    intro k k' h
    have hp : f k k.2 = f k' k'.2 := by simpa using h
    exact Fin.ext (hfun (hf k k.2) (hp ▸ hf k' k'.2))
  simpa using Fintype.card_le_of_injective _ hinj

/-- All heights up to that of an unfolding are those of unfoldings. -/
theorem Unfolds.attained {a : Arena} {id : NodeId} {t : Tree} (h : a.Unfolds id t) :
    ∀ k < t.height, ∃ c u, a.Unfolds c u ∧ u.height = k + 1 := by
  induction t using Tree.induct generalizing id with
  | node shape children ih =>
    intro k hk
    obtain ⟨n, hn, -, hall⟩ := h.get
    rcases Nat.lt_or_ge k (Tree.heightAll children) with hlt | hge
    · obtain ⟨u, hu, hku⟩ : ∃ u ∈ children, k < u.height := by
        by_contra hno
        push Not at hno
        exact absurd (Tree.heightAll_le_iff.2 hno) (by omega)
      obtain ⟨c, -, hcu⟩ := exists_of_mem_right hall hu
      exact ih u hu hcu k hku
    · refine ⟨id, _, h, ?_⟩
      simp only [Tree.height] at hk ⊢
      omega

/-- No unfolding is higher than there are nodes. -/
theorem Unfolds.height_le {a : Arena} {id : NodeId} {t : Tree} (h : a.Unfolds id t) :
    t.height ≤ a.size := by
  refine le_of_attained (R := fun k p => ∃ u, a.Unfolds ⟨p⟩ u ∧ u.height = k + 1) ?_ ?_ ?_
  · rintro k p ⟨⟨_, _⟩, hu, -⟩
    obtain ⟨n, hn, -⟩ := hu.get
    exact pos_lt_of_get hn
  · rintro k k' p ⟨u, hu, hk⟩ ⟨u', hu', hk'⟩
    rw [hu.unique hu'] at hk
    omega
  · intro k hk
    obtain ⟨c, u, hu, hku⟩ := h.attained k hk
    exact ⟨c.pos, u, hu, hku⟩

end Arena

end TensorRecipe
