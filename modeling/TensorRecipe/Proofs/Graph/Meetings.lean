import TensorRecipe.Graph
import TensorRecipe.Proofs.Tree.Indices

/-!
# What a walk meets

`a.meetings parent id` lists what lies in the tree at a handle, each with the node that it hangs
from: first the node, then the indices it carries, then what lies below its children.  What is
shared is listed each time it is met.  The list exists just where the tree unfolds and the indices
carried are there (`meetings_of_within`), it lists what is reachable and nothing else
(`mem_of_meetingsWithin`), and it stays what it is while entries are appended to the arena
(`Grows.meetings`).
-/

namespace TensorRecipe

namespace Node

/-- The keys of what hangs from a node: the indices that it carries, then its children. -/
def parts (node : Node) : List Key :=
  node.attributes.map Key.index ++ node.children.map Key.node

end Node

/-- Something met on the way through a tree, and the node that it hangs from. -/
structure Meeting where
  parent : Option NodeId
  visited : Visited

/-- The vertex of what is met. -/
def Meeting.vertex (m : Meeting) : Vertex := m.visited.vertex

namespace Arena

/-- An index that a node carries is met there. -/
def meetIndex (a : Arena) (id : NodeId) (i : Index) : Except Fault Meeting := do
  let info ← a.indexInfo i
  return ⟨some id, .index i info⟩

/-- What is met in the tree at a handle, looking at most so deep. -/
def meetingsWithin (a : Arena) : Nat → Option NodeId → NodeId → Except Fault (List Meeting)
  | 0, _, _ => .error .cyclic
  | depth + 1, parent, id => do
    let node ← a.get id
    let indices ← node.attributes.mapM (a.meetIndex id)
    let below ← node.children.mapM (meetingsWithin a depth (some id))
    return ⟨parent, .node id node⟩ :: (indices ++ below.flatten)

/-- What is met in the tree at a handle, which hangs from another node or from none. -/
def meetings (a : Arena) (parent : Option NodeId) (id : NodeId) : Except Fault (List Meeting) :=
  a.meetingsWithin (a.size + 1) parent id

/-- The arena has what is visited under its key. -/
def Has (a : Arena) : Visited → Prop
  | .node id node => a.get id = .ok node
  | .index i info => a.indexInfo i = .ok info

/-- The arena has something under the key. -/
def HasKey (a : Arena) (key : Key) : Prop := ∃ visited, a.Has visited ∧ visited.key = key

/-- `b` has all of `a`, and perhaps more nodes and indices behind. -/
structure Grows (a b : Arena) : Prop where
  nodes : a.nodes.toList <+: b.nodes.toList
  indices : a.indices.toList <+: b.indices.toList

variable {a b : Arena} {depth : Nat} {parent : Option NodeId} {id : NodeId} {met : List Meeting}
  {visited visited' : Visited}

theorem Has.eq_of_key (h : a.Has visited) (h' : a.Has visited')
    (hkey : visited.key = visited'.key) : visited = visited' := by
  cases visited <;> cases visited' <;> cases hkey
  · rw [Except.ok.inj (h.symm.trans h')]
  · rw [Except.ok.inj (h.symm.trans h')]

theorem hasKey_node_iff : a.HasKey (.node id) ↔ ∃ node, a.get id = .ok node := by
  constructor
  · rintro ⟨visited, hv, hkey⟩
    cases visited with
    | node c node =>
      cases hkey
      exact ⟨node, hv⟩
    | index i info => cases hkey
  · rintro ⟨node, hn⟩
    exact ⟨.node id node, hn, rfl⟩

/-! ### One node -/

/-- What is met at a node: itself, what it carries, and what is met at its children. -/
theorem meetingsWithin_succ : a.meetingsWithin (depth + 1) parent id = .ok met ↔
    ∃ node indices below, a.get id = .ok node ∧
      List.Forall₂ (a.meetIndex id · = .ok ·) node.attributes indices ∧
      List.Forall₂ (a.meetingsWithin depth (some id) · = .ok ·) node.children below ∧
      met = ⟨parent, .node id node⟩ :: (indices ++ below.flatten) := by
  constructor
  · intro h
    obtain ⟨node, hn, h⟩ := exists_of_bind_eq_ok h
    obtain ⟨indices, hindices, h⟩ := exists_of_bind_eq_ok h
    obtain ⟨below, hbelow, h⟩ := exists_of_bind_eq_ok h
    exact ⟨node, indices, below, hn, forall₂_of_mapM_eq_ok hindices, forall₂_of_mapM_eq_ok hbelow,
      (Except.ok.inj h).symm⟩
  · rintro ⟨node, indices, below, hn, hindices, hbelow, rfl⟩
    simp only [meetingsWithin, hn, mapM_eq_ok_of_forall₂ hindices, mapM_eq_ok_of_forall₂ hbelow,
      bind, Except.bind, pure, Except.pure]

theorem meetIndex_eq_ok {i : Index} {m : Meeting} : a.meetIndex id i = .ok m ↔
    ∃ info, a.indexInfo i = .ok info ∧ m = ⟨some id, .index i info⟩ := by
  constructor
  · intro h
    obtain ⟨info, hinfo, h⟩ := exists_of_bind_eq_ok h
    exact ⟨info, hinfo, (Except.ok.inj h).symm⟩
  · rintro ⟨info, hinfo, rfl⟩
    simp only [meetIndex, hinfo, bind, Except.bind, pure, Except.pure]

/-! ### Depths -/

theorem exists_unfolds_of_meetings :
    ∀ {depth : Nat} {parent : Option NodeId} {id : NodeId} {met : List Meeting},
      a.meetingsWithin depth parent id = .ok met → ∃ t, a.Unfolds id t
  | 0, _, _, _, h => nomatch h
  | depth + 1, _, id, _, h => by
    obtain ⟨node, indices, below, hn, -, hbelow, -⟩ := meetingsWithin_succ.1 h
    have hchild : ∀ c ∈ node.children, ∃ t, a.Unfolds c t := fun c hc => by
      obtain ⟨es, -, hes⟩ := exists_of_mem_left hbelow hc
      exact exists_unfolds_of_meetings hes
    obtain ⟨ts, hts⟩ := exists_forall₂ hchild
    exact ⟨_, .of_get hn hts⟩

/-- As deep as the tree is high one meets all there is. -/
theorem meetingsWithin_of_height (t : Tree) :
    ∀ {d e : Nat} {parent : Option NodeId} {id : NodeId} {met : List Meeting}, a.Unfolds id t →
      a.meetingsWithin d parent id = .ok met → t.height ≤ e →
        a.meetingsWithin e parent id = .ok met := by
  induction t using Tree.induct with
  | node shape children ih =>
    intro d e parent id met ht h he
    obtain ⟨e, rfl, hheight⟩ := Tree.height_le_iff.1 he
    obtain ⟨d, rfl⟩ : ∃ d', d = d' + 1 := Nat.exists_eq_succ_of_ne_zero (by
      rintro rfl
      cases h)
    obtain ⟨node, indices, below, hn, hindices, hbelow, rfl⟩ := meetingsWithin_succ.1 h
    obtain ⟨n, hn', -, hc⟩ := ht.get
    obtain rfl : n = node := Except.ok.inj (hn'.symm.trans hn)
    refine meetingsWithin_succ.2 ⟨n, indices, below, hn, hindices, ?_, rfl⟩
    refine forall₂_imp_of_mem hbelow fun c hmem es _ hes => ?_
    obtain ⟨u, hu, hcu⟩ := exists_of_mem_left hc hmem
    exact ih u hu hcu hes (hheight u hu)

/-- Nothing that is met lies deeper than there are nodes. -/
theorem meetings_of_within (h : a.meetingsWithin depth parent id = .ok met) :
    a.meetings parent id = .ok met := by
  obtain ⟨t, ht⟩ := exists_unfolds_of_meetings h
  exact meetingsWithin_of_height t ht h (ht.height_le.trans (Nat.le_succ _))

/-! ### What is met -/

/-- What is met is there, and all that is reachable is met with each node that it hangs from. -/
theorem mem_of_meetingsWithin :
    ∀ {depth : Nat} {parent : Option NodeId} {id : NodeId} {met : List Meeting},
      a.meetingsWithin depth parent id = .ok met → ∃ node, a.get id = .ok node ∧ ∀ m, m ∈ met ↔
        m = ⟨parent, .node id node⟩ ∨ ∃ c n, a.Reaches id c ∧ a.get c = .ok n ∧
          m.parent = some c ∧ a.Has m.visited ∧ m.visited.key ∈ n.parts
  | 0, _, _, _, h => nomatch h
  | depth + 1, parent, id, met, h => by
    obtain ⟨node, indices, below, hn, hindices, hbelow, rfl⟩ := meetingsWithin_succ.1 h
    refine ⟨node, hn, fun m => ?_⟩
    rw [List.mem_cons, List.mem_append, List.mem_flatten]
    refine or_congr_right ⟨?_, ?_⟩
    · rintro (hm | ⟨es, hes, hm⟩)
      · obtain ⟨i, hi, hmi⟩ := exists_of_mem_right hindices hm
        obtain ⟨info, hinfo, rfl⟩ := meetIndex_eq_ok.1 hmi
        exact ⟨id, node, .refl, hn, rfl, hinfo, by simp [Node.parts, Visited.key, hi]⟩
      · obtain ⟨c, hc, hces⟩ := exists_of_mem_right hbelow hes
        obtain ⟨n, hcn, hmem⟩ := mem_of_meetingsWithin hces
        obtain rfl | ⟨d, n', hd, hdn, hm⟩ := (hmem m).1 hm
        · exact ⟨id, node, .refl, hn, rfl, hcn, by simp [Node.parts, Visited.key, hc]⟩
        · exact ⟨d, n', .head ⟨node, hn, hc⟩ hd, hdn, hm⟩
    · rintro ⟨d, n, hd, hdn, hparent, hhas, hkey⟩
      obtain rfl | ⟨c, hc, hcd⟩ := (reaches_iff hn).1 hd
      · obtain rfl : n = node := Except.ok.inj (hdn.symm.trans hn)
        obtain ⟨parent', visited⟩ := m
        obtain rfl : parent' = some id := hparent
        change a.Has visited at hhas
        rcases List.mem_append.1 hkey with hkey | hkey
        · obtain ⟨i, hi, hik⟩ := List.mem_map.1 hkey
          obtain ⟨m, hm, hmi⟩ := exists_of_mem_left hindices hi
          obtain ⟨info, hinfo, rfl⟩ := meetIndex_eq_ok.1 hmi
          have hindex : a.Has (.index i info) := hinfo
          obtain rfl := hhas.eq_of_key hindex hik.symm
          exact .inl hm
        · obtain ⟨c, hc, hck⟩ := List.mem_map.1 hkey
          obtain ⟨es, hes, hces⟩ := exists_of_mem_left hbelow hc
          obtain ⟨nc, hcn, hmem⟩ := mem_of_meetingsWithin hces
          have hnode : a.Has (.node c nc) := hcn
          obtain rfl := hhas.eq_of_key hnode hck.symm
          exact .inr ⟨es, hes, (hmem _).2 (.inl rfl)⟩
      · obtain ⟨es, hes, hces⟩ := exists_of_mem_left hbelow hc
        obtain ⟨_, -, hmem⟩ := mem_of_meetingsWithin hces
        exact .inr ⟨es, hes, (hmem m).2 (.inr ⟨d, n, hcd, hdn, hparent, hhas, hkey⟩)⟩

/-- The first that is met is the node itself, and what is met after it does not depend on what it
hangs from. -/
theorem exists_below_of_meetings (h : a.meetings parent id = .ok met) : ∃ node below,
    a.get id = .ok node ∧ met = ⟨parent, .node id node⟩ :: below ∧
      ∀ parent', a.meetings parent' id = .ok (⟨parent', .node id node⟩ :: below) := by
  obtain ⟨node, indices, below, hn, hindices, hbelow, rfl⟩ := meetingsWithin_succ.1 h
  exact ⟨node, _, hn, rfl, fun parent' =>
    meetingsWithin_succ.2 ⟨node, indices, below, hn, hindices, hbelow, rfl⟩⟩

theorem exists_meetings_of_reaches {c : NodeId} (h : a.meetings parent id = .ok met)
    (hc : a.Reaches id c) : ∃ parent' met', a.meetings parent' c = .ok met' := by
  induction hc with
  | refl => exact ⟨parent, met, h⟩
  | tail _ hstep ih =>
    obtain ⟨parent', met', hmet'⟩ := ih
    obtain ⟨node, indices, below, hn, -, hbelow, -⟩ := meetingsWithin_succ.1 hmet'
    obtain ⟨es, -, hes⟩ := exists_of_mem_left hbelow ((child_iff hn).1 hstep)
    exact ⟨_, es, meetings_of_within hes⟩

theorem exists_has_of_meetings {node : Node} {key : Key} (h : a.meetings parent id = .ok met)
    (hn : a.get id = .ok node) (hkey : key ∈ node.parts) :
    ∃ visited, a.Has visited ∧ visited.key = key := by
  obtain ⟨n, indices, below, hn', hindices, hbelow, -⟩ := meetingsWithin_succ.1 h
  obtain rfl : n = node := Except.ok.inj (hn'.symm.trans hn)
  rcases List.mem_append.1 hkey with hkey | hkey
  · obtain ⟨i, hi, rfl⟩ := List.mem_map.1 hkey
    obtain ⟨m, -, hmi⟩ := exists_of_mem_left hindices hi
    obtain ⟨info, hinfo, -⟩ := meetIndex_eq_ok.1 hmi
    exact ⟨.index i info, hinfo, rfl⟩
  · obtain ⟨c, hc, rfl⟩ := List.mem_map.1 hkey
    obtain ⟨es, -, hes⟩ := exists_of_mem_left hbelow hc
    obtain ⟨nc, hcn, -⟩ := mem_of_meetingsWithin hes
    exact ⟨.node c nc, hcn, rfl⟩

section

variable {roots : List NodeId} {mets : List (List Meeting)} {key : Key}
  (h : List.Forall₂ (a.meetings none · = .ok ·) roots mets)
include h

/-- From some roots one meets as hanging from a node what hangs from it, if it is reachable. -/
theorem exists_hanging_iff :
    (∃ m ∈ mets.flatten, m.parent = some id ∧ m.visited.key = key) ↔
      ∃ root ∈ roots, ∃ node, a.Reaches root id ∧ a.get id = .ok node ∧ key ∈ node.parts := by
  constructor
  · rintro ⟨m, hm, hparent, rfl⟩
    obtain ⟨es, hes, hm⟩ := List.mem_flatten.1 hm
    obtain ⟨root, hroot, hmeet⟩ := exists_of_mem_right h hes
    obtain ⟨n, -, hmem⟩ := mem_of_meetingsWithin hmeet
    obtain rfl | ⟨c, node, hc, hn, hparent', -, hkey⟩ := (hmem m).1 hm
    · cases hparent
    · obtain rfl : c = id := Option.some.inj (hparent'.symm.trans hparent)
      exact ⟨root, hroot, node, hc, hn, hkey⟩
  · rintro ⟨root, hroot, node, hreach, hn, hkey⟩
    obtain ⟨es, hes, hmeet⟩ := exists_of_mem_left h hroot
    obtain ⟨_, _, hmeet'⟩ := exists_meetings_of_reaches hmeet hreach
    obtain ⟨visited, hhas, rfl⟩ := exists_has_of_meetings hmeet' hn hkey
    obtain ⟨n, -, hmem⟩ := mem_of_meetingsWithin hmeet
    exact ⟨⟨some id, visited⟩, List.mem_flatten.2 ⟨es, hes,
      (hmem _).2 (.inr ⟨id, node, hreach, hn, rfl, hhas, hkey⟩)⟩, rfl, rfl⟩

/-- From some roots one meets the nodes that are reachable and the indices that these carry. -/
theorem exists_met_iff : (∃ m ∈ mets.flatten, m.visited.key = key) ↔
    ∃ root ∈ roots, ∃ id node, a.Reaches root id ∧ a.get id = .ok node ∧
      (key = .node id ∨ ∃ i ∈ node.attributes, key = .index i) := by
  constructor
  · rintro ⟨m, hm, rfl⟩
    obtain ⟨es, hes, hmes⟩ := List.mem_flatten.1 hm
    obtain ⟨root, hroot, hmeet⟩ := exists_of_mem_right h hes
    obtain ⟨n, hn, hmem⟩ := mem_of_meetingsWithin hmeet
    obtain rfl | ⟨c, node, hc, hcn, -, hhas, hkey⟩ := (hmem m).1 hmes
    · exact ⟨root, hroot, root, n, .refl, hn, .inl rfl⟩
    · rcases List.mem_append.1 hkey with hkey | hkey
      · obtain ⟨i, hi, hik⟩ := List.mem_map.1 hkey
        exact ⟨root, hroot, c, node, hc, hcn, .inr ⟨i, hi, hik.symm⟩⟩
      · obtain ⟨d, hd, hdk⟩ := List.mem_map.1 hkey
        obtain ⟨parent, visited⟩ := m
        cases visited with
        | index i info => cases hdk
        | node e n' =>
          cases hdk
          exact ⟨root, hroot, d, n', hc.tail ⟨node, hcn, hd⟩, hhas, .inl rfl⟩
  · rintro ⟨root, hroot, id, node, hreach, hn, hkey⟩
    have hpart : ∀ c n, a.Reaches root c → a.get c = .ok n → key ∈ n.parts →
        ∃ m ∈ mets.flatten, m.visited.key = key := by
      intro c n hc hcn hkey
      obtain ⟨m, hm, -, hmk⟩ := (exists_hanging_iff h).2 ⟨root, hroot, n, hc, hcn, hkey⟩
      exact ⟨m, hm, hmk⟩
    obtain rfl | ⟨i, hi, rfl⟩ := hkey
    · rcases Relation.ReflTransGen.cases_tail hreach with rfl | ⟨c, hc, n, hcn, hmem⟩
      · obtain ⟨es, hes, hmeet⟩ := exists_of_mem_left h hroot
        obtain ⟨n, -, hmem⟩ := mem_of_meetingsWithin hmeet
        exact ⟨_, List.mem_flatten.2 ⟨es, hes, (hmem _).2 (.inl rfl)⟩, rfl⟩
      · exact hpart c n hc hcn (by simp [Node.parts, hmem])
    · exact hpart id node hreach hn (by simp [Node.parts, hi])

end

/-! ### Growing arenas -/

namespace Grows

theorem get (h : a.Grows b) {id : NodeId} {node : Node} (hn : a.get id = .ok node) :
    b.get id = .ok node := by
  rw [get_eq_ok, ← Array.getElem?_toList] at hn ⊢
  obtain ⟨hlt, rfl⟩ := List.getElem?_eq_some_iff.1 hn
  exact List.prefix_iff_getElem?.1 h.nodes id.pos hlt

theorem indexInfo (h : a.Grows b) {i : Index} {info : IndexInfo} (hi : a.indexInfo i = .ok info) :
    b.indexInfo i = .ok info := by
  unfold Arena.indexInfo at hi ⊢
  split at hi
  · next found hfound => simpa [getElem?_of_isPrefix h.indices hfound] using hi
  · cases hi

theorem has (h : a.Grows b) (hv : a.Has visited) : b.Has visited := by
  cases visited with
  | node id node => exact h.get hv
  | index i info => exact h.indexInfo hv

theorem meetingsWithin (h : a.Grows b) :
    ∀ {depth : Nat} {parent : Option NodeId} {id : NodeId} {met : List Meeting},
      a.meetingsWithin depth parent id = .ok met → b.meetingsWithin depth parent id = .ok met
  | 0, _, _, _, hmet => nomatch hmet
  | depth + 1, parent, id, met, hmet => by
    obtain ⟨node, indices, below, hn, hindices, hbelow, rfl⟩ := meetingsWithin_succ.1 hmet
    refine meetingsWithin_succ.2 ⟨node, indices, below, h.get hn, hindices.imp fun i m hi => ?_,
      hbelow.imp fun c es hc => h.meetingsWithin hc, rfl⟩
    obtain ⟨info, hinfo, rfl⟩ := meetIndex_eq_ok.1 hi
    exact meetIndex_eq_ok.2 ⟨info, h.indexInfo hinfo, rfl⟩

theorem meetings (h : a.Grows b) (hmet : a.meetings parent id = .ok met) :
    b.meetings parent id = .ok met :=
  meetings_of_within (h.meetingsWithin hmet)

end Grows

end Arena

end TensorRecipe
