import TensorRecipe.Proofs.Graph.Recording

/-!
# Recorded graphs of walks that stop

A walk that stops at an unknown handle leaves the nodes that it is in on the path of the graph, and
the next walk begins there: it joins its root to the end of that path (`Graph.Stray`), and it goes
below none of the nodes left, since all of them are known.  Besides that, whatever becomes of walks,
edges lead from nodes to what hangs from them, and a node that is known and not on the path is joined
to all that hangs from it (`Graph.Tidy`).  Trees need not be acyclic here.

Main statement: just when every edge leads from a node to a part of it, and just when a walk that
succeeds leaves all that it can reach in the graph (`Graph.structural_afterWalks_iff`).
-/

namespace TensorRecipe

namespace Arena

/-- The node is there, and something with the key hangs from it. -/
def Part (a : Arena) (id : NodeId) (key : Key) : Prop :=
  ∃ node, a.get id = .ok node ∧ key ∈ node.parts

variable {a b : Arena} {id c : NodeId} {key : Key}

theorem part_node_iff : a.Part id (.node c) ↔ a.Child id c := by
  simp [Part, Child, Node.parts]

theorem Grows.hasKey (h : a.Grows b) (hkey : a.HasKey key) : b.HasKey key := by
  obtain ⟨visited, hv, hkey⟩ := hkey
  exact ⟨visited, h.has hv, hkey⟩

theorem Grows.part (h : a.Grows b) (hpart : a.Part id key) : b.Part id key := by
  obtain ⟨node, hn, hkey⟩ := hpart
  exact ⟨node, h.get hn, hkey⟩

theorem Grows.part_iff (h : a.Grows b) (hid : a.HasKey (.node id)) :
    b.Part id key ↔ a.Part id key := by
  obtain ⟨node, hn⟩ := hasKey_node_iff.1 hid
  refine ⟨fun ⟨node', hn', hkey⟩ => ?_, h.part⟩
  obtain rfl := Except.ok.inj ((h.get hn).symm.trans hn')
  exact ⟨node, hn, hkey⟩

end Arena

namespace Graph

variable {a b : Arena} {stray stray' : NodeId → Key → Prop} {g g' g'' : Graph} {id root : NodeId}
  {key key' : Key} {keys keys' : List Key} {i j : Nat} {visited : Visited}

theorem position?_inj (h : g.position? key = some i) (h' : g.position? key' = some i) :
    key = key' := by
  obtain ⟨hlt, hkey, -⟩ := List.findIdx?_eq_some_iff_getElem.1 h
  obtain ⟨_, hkey', -⟩ := List.findIdx?_eq_some_iff_getElem.1 h'
  exact (beq_iff_eq.1 hkey).symm.trans (beq_iff_eq.1 hkey')

/-! ### Meeting something -/

/-- There is an edge from the position to the vertex of the key. -/
def Joins (g : Graph) (i : Nat) (key : Key) : Prop := ∃ j, g.position? key = some j ∧ (i, j) ∈ g.edges

/-- `g'` is `g` after something was met under the key, and was found or put at position `j`. -/
structure Meets (key : Key) (j : Nat) (g g' : Graph) : Prop where
  keeps : g.Keeps g'
  new : ∀ k i, g'.position? k = some i → k = key ∨ g.position? k = some i
  position : g'.position? key = some j
  edges : ∀ edge, edge ∈ g'.edges ↔ edge ∈ g.edges ∨ ∃ i, g.path.head? = some i ∧ edge = (i, j)

theorem exists_meets_enter (visited : Visited) (g : Graph) :
    ∃ j, Meets visited.key j g (enter visited g).2 ∧
      ((enter visited g).1 = false ∧ g.position? visited.key = some j ∧
          (enter visited g).2.path = g.path ∨
        (enter visited g).1 = true ∧ (enter visited g).2.path = j :: g.path) := by
  unfold enter
  split
  · next j hj =>
    have hpos : ∀ k, (g.link j).position? k = g.position? k := position?_congr (vertices_link g j)
    refine ⟨j, ⟨fun k i hi => (hpos k).trans hi, fun k i hi => .inr ((hpos k).symm.trans hi),
      (hpos _).trans hj, fun edge => mem_edges_link⟩, .inl ⟨rfl, hj, path_link g j⟩⟩
  · next hnone =>
    let added : Graph := { g with vertices := g.vertices ++ [visited.vertex] }
    have hvertices : (added.link g.vertices.length).vertices = g.vertices ++ [visited.vertex] :=
      vertices_link added _
    obtain ⟨hkeeps, hposition, hnew⟩ := position?_add hvertices hnone
    exact ⟨g.vertices.length, ⟨hkeeps, hnew, hposition, fun edge => mem_edges_link (g := added)⟩,
      .inr ⟨rfl, congrArg (g.vertices.length :: ·) (path_link added _)⟩⟩

/-! ### What walks keep, however they end -/

/-- What is known is there; the path leads through nodes; edges lead from nodes to their parts, but
for stray ones; and what is known and not on the path is joined to all its parts. -/
structure Tidy (a : Arena) (stray : NodeId → Key → Prop) (g : Graph) : Prop where
  there : ∀ key i, g.position? key = some i → a.HasKey key
  path : ∀ i ∈ g.path, ∃ id, g.position? (.node id) = some i
  edges : ∀ i j, (i, j) ∈ g.edges → ∃ id key, g.position? (.node id) = some i ∧
    g.position? key = some j ∧ (a.Part id key ∨ stray id key)
  closed : ∀ id i, g.position? (.node id) = some i → i ∉ g.path → ∀ key, a.Part id key → g.Joins i key

/-- An edge from the end of the path to the vertex of the key would be one of a tidy graph. -/
def Leads (a : Arena) (stray : NodeId → Key → Prop) (g : Graph) (key : Key) : Prop :=
  ∀ i, g.path.head? = some i → ∃ id, g.position? (.node id) = some i ∧ (a.Part id key ∨ stray id key)

/-- What has the key has a vertex by now, and one that is joined to what was the end of the path. -/
def Under (g g' : Graph) (key : Key) : Prop :=
  ∃ j, g'.position? key = some j ∧ ∀ i, g.path.head? = some i → (i, j) ∈ g'.edges

theorem Meets.joins (h : Meets key' j g g') (hjoins : g.Joins i key) : g'.Joins i key := by
  obtain ⟨k, hk, hedge⟩ := hjoins
  exact ⟨k, h.keeps _ _ hk, (h.edges _).2 (.inl hedge)⟩

theorem Meets.under (h : Meets key j g g') : Under g g' key :=
  ⟨j, h.position, fun i hi => (h.edges _).2 (.inr ⟨i, hi, rfl⟩)⟩

namespace Tidy

theorem empty (a : Arena) : Tidy a stray .empty where
  there := fun _ _ h => nomatch h
  path := fun _ h => nomatch h
  edges := fun _ _ h => nomatch h
  closed := fun _ _ h => nomatch h

theorem mono (h : Tidy a stray g) (hstray : ∀ id key, stray id key → stray' id key) :
    Tidy a stray' g where
  there := h.there
  path := h.path
  edges := by
    intro i j hedge
    obtain ⟨id, key, hid, hkey, hpart⟩ := h.edges i j hedge
    exact ⟨id, key, hid, hkey, hpart.imp_right (hstray id key)⟩
  closed := h.closed

theorem grow (h : Tidy a stray g) (hab : a.Grows b) : Tidy b stray g where
  there := fun key i hi => hab.hasKey (h.there key i hi)
  path := h.path
  edges := by
    intro i j hedge
    obtain ⟨id, key, hid, hkey, hpart⟩ := h.edges i j hedge
    exact ⟨id, key, hid, hkey, hpart.imp_left hab.part⟩
  closed := fun id i hid hpath key hpart =>
    h.closed id i hid hpath key ((hab.part_iff (h.there _ i hid)).1 hpart)

theorem meets (h : Tidy a stray g) (hm : Meets key j g g') (hkey : a.HasKey key)
    (hleads : Leads a stray g key)
    (hpath : g'.path = g.path ∧ (g.position? key = some j ∨ ∃ i, key = .index i) ∨
      g'.path = j :: g.path ∧ ∃ id, key = .node id) : Tidy a stray g' where
  there := by
    intro k i hi
    obtain rfl | hi := hm.new k i hi
    · exact hkey
    · exact h.there k i hi
  path := by
    intro i hi
    have hold : i ∈ g.path → ∃ id, g'.position? (.node id) = some i := fun hi => by
      obtain ⟨id, hid⟩ := h.path i hi
      exact ⟨id, hm.keeps _ _ hid⟩
    obtain ⟨hpath, -⟩ | ⟨hpath, id, rfl⟩ := hpath
    · exact hold (hpath ▸ hi)
    · rw [hpath] at hi
      rcases List.mem_cons.1 hi with rfl | hi
      · exact ⟨id, hm.position⟩
      · exact hold hi
  edges := by
    intro i k hedge
    rcases (hm.edges _).1 hedge with hedge | ⟨i', hi', heq⟩
    · obtain ⟨id, key, hid, hkey, hpart⟩ := h.edges i k hedge
      exact ⟨id, key, hm.keeps _ _ hid, hm.keeps _ _ hkey, hpart⟩
    · obtain ⟨rfl, rfl⟩ := Prod.mk.inj heq
      obtain ⟨id, hid, hpart⟩ := hleads _ hi'
      exact ⟨id, key, hm.keeps _ _ hid, hm.position, hpart⟩
  closed := by
    intro id i hid hi k hpart
    have hold : g.position? (.node id) = some i → i ∉ g.path → g'.Joins i k := fun hid hi =>
      hm.joins (h.closed id i hid hi k hpart)
    obtain ⟨hpath, hknown⟩ | ⟨hpath, -⟩ := hpath
    · refine hold ?_ (hpath ▸ hi)
      obtain rfl | hid' := hm.new _ i hid
      · obtain hknown | ⟨_, hindex⟩ := hknown
        · exact hknown.trans (hm.position.symm.trans hid)
        · cases hindex
      · exact hid'
    · rw [hpath, List.mem_cons, not_or] at hi
      obtain rfl | hid' := hm.new _ i hid
      · exact absurd (Option.some.inj (hid.symm.trans hm.position)) hi.1
      · exact hold hid' hi.2

theorem leave {path : List Nat} (h : Tidy a stray g) (hpath : g.path = i :: path)
    (hid : g.position? (.node id) = some i) (hjoins : ∀ key, a.Part id key → g.Joins i key) :
    Tidy a stray g.leave where
  there := h.there
  path := fun k hk => h.path k (List.mem_of_mem_tail hk)
  edges := h.edges
  closed := by
    intro id' k hid' hk key hpart
    by_cases hki : k = i
    · subst hki
      cases position?_inj hid hid'
      exact hjoins key hpart
    · refine h.closed id' k hid' (fun hmem => ?_) key hpart
      rw [hpath, List.mem_cons] at hmem
      exact hk (by simpa [Graph.leave, hpath] using hmem.resolve_left hki)

end Tidy

/-- The graph is tidy, and nothing it had is lost. -/
structure Advances (a : Arena) (stray : NodeId → Key → Prop) (g g' : Graph) : Prop where
  tidy : Tidy a stray g'
  keeps : g.Keeps g'
  edges : g.edges ⊆ g'.edges

/-- Besides, the path is as it was, and all that has one of the keys hangs from its end. -/
structure Attains (a : Arena) (stray : NodeId → Key → Prop) (keys : List Key) (g g' : Graph) : Prop
    extends Advances a stray g g' where
  path : g'.path = g.path
  under : ∀ key ∈ keys, Under g g' key

namespace Advances

theorem refl (h : Tidy a stray g) : Advances a stray g g := ⟨h, fun _ _ hi => hi, fun _ he => he⟩

theorem trans (h : Advances a stray g g') (h' : Advances a stray g' g'') : Advances a stray g g'' :=
  ⟨h'.tidy, h.keeps.trans h'.keeps, fun _ he => h'.edges (h.edges he)⟩

theorem joins (h : Advances a stray g g') (hjoins : g.Joins i key) : g'.Joins i key := by
  obtain ⟨j, hj, hedge⟩ := hjoins
  exact ⟨j, h.keeps _ _ hj, h.edges hedge⟩

theorem under (h : Advances a stray g' g'') (hunder : Under g g' key) : Under g g'' key := by
  obtain ⟨j, hj, hedges⟩ := hunder
  exact ⟨j, h.keeps _ _ hj, fun i hi => h.edges (hedges i hi)⟩

theorem leads (h : Advances a stray g g') (hpath : g'.path = g.path) (hleads : Leads a stray g key) :
    Leads a stray g' key := by
  intro i hi
  obtain ⟨id, hid, hpart⟩ := hleads i (hpath ▸ hi)
  exact ⟨id, h.keeps _ _ hid, hpart⟩

end Advances

theorem Attains.append (h : Attains a stray keys g g') (h' : Attains a stray keys' g' g'') :
    Attains a stray (keys ++ keys') g g'' where
  toAdvances := h.toAdvances.trans h'.toAdvances
  path := h'.path.trans h.path
  under := by
    intro key hkey
    rcases List.mem_append.1 hkey with hkey | hkey
    · exact h'.toAdvances.under (h.under key hkey)
    · obtain ⟨j, hj, hedges⟩ := h'.under key hkey
      exact ⟨j, hj, fun i hi => hedges i (h.path.symm ▸ hi)⟩

/-! ### Steps of a walk -/

open Visitor (Ends ends_pure ends_throw ends_ofExcept_bind ends_enter_bind)

theorem ends_leave {v : Visited} {Q : Unit → Graph → Prop} {E : Graph → Prop} (h : Q () g.leave) :
    Ends (modify (recorder.leave v)) g Q E := by
  refine ⟨fun x m hrun => ?_, fun _ _ hrun => (nomatch hrun)⟩
  cases hrun
  exact h

theorem ends_visitIndex {i : Index} (h : Tidy a stray g) (hleads : Leads a stray g (.index i)) :
    Ends (recorder.visitIndex a i) g (fun _ => Attains a stray [.index i] g)
      (Advances a stray g) := by
  refine ends_ofExcept_bind (fun info hinfo => ends_enter_bind ?_) fun _ _ => .refl h
  have hkey : a.HasKey (.index i) := ⟨.index i info, hinfo, rfl⟩
  obtain ⟨j, hm, hcase⟩ := exists_meets_enter (.index i info) g
  have hattains : ∀ g', Meets (.index i) j g g' → g'.path = g.path →
      Attains a stray [.index i] g g' := fun g' hm hpath =>
    ⟨⟨h.meets hm hkey hleads (.inl ⟨hpath, .inr ⟨i, rfl⟩⟩), hm.keeps,
      fun edge he => (hm.edges edge).2 (.inl he)⟩, hpath,
      fun key hkey => List.mem_singleton.1 hkey ▸ hm.under⟩
  obtain ⟨hfalse, -, hpath⟩ | ⟨htrue, hpath⟩ := hcase
  · change Ends (if (enter (.index i info) g).1 = true then _ else _) _ _ _
    rw [if_neg (by simp [hfalse])]
    exact ends_pure (hattains _ hm hpath)
  · change Ends (if (enter (.index i info) g).1 = true then _ else _) _ _ _
    rw [if_pos htrue]
    exact ends_leave (hattains _ ⟨hm.keeps, hm.new, hm.position, hm.edges⟩ (congrArg List.tail hpath))

theorem ends_forM {α : Type} {visit : α → Walk Graph Unit} {keyOf : α → Key} :
    ∀ {xs : List α} {g : Graph},
      (∀ x ∈ xs, ∀ g, Tidy a stray g → Leads a stray g (keyOf x) →
        Ends (visit x) g (fun _ => Attains a stray [keyOf x] g) (Advances a stray g)) →
      Tidy a stray g → (∀ x ∈ xs, Leads a stray g (keyOf x)) →
        Ends (xs.forM visit) g (fun _ => Attains a stray (xs.map keyOf) g) (Advances a stray g)
  | [], g, _, h, _ => ends_pure ⟨.refl h, rfl, by simp⟩
  | x :: xs, g, hvisit, h, hleads => by
    refine Ends.bind (f := fun _ => xs.forM visit) (hvisit x (by simp) g h (hleads x (by simp))) ?_
    intro _ g₁ hx
    refine (ends_forM (fun y hy => hvisit y (List.mem_cons_of_mem x hy)) hx.tidy
      fun y hy => hx.leads hx.path (hleads y (List.mem_cons_of_mem x hy))).mono ?_ ?_
    · exact fun _ g₂ hxs => hx.append hxs
    · exact fun g₂ hxs => hx.toAdvances.trans hxs

/-- What is below a node that has just been put on the path; then the node is left. -/
theorem ends_below {walk : NodeId → Walk Graph Unit} {node : Node} {path : List Nat}
    (hwalk : ∀ c g, Tidy a stray g → Leads a stray g (.node c) →
      Ends (walk c) g (fun _ => Attains a stray [.node c] g) (Advances a stray g))
    (hn : a.get id = .ok node) (h : Tidy a stray g) (hpath : g.path = i :: path)
    (hid : g.position? (.node id) = some i) :
    Ends (do
      node.attributes.forM (recorder.visitIndex a)
      node.children.forM walk
      modify (recorder.leave (.node id node))) g
        (fun _ g' => Advances a stray g g' ∧ g'.path = path) (Advances a stray g) := by
  have hleads : ∀ key ∈ node.parts, Leads a stray g key := by
    intro key hkey k hk
    rw [hpath] at hk
    cases hk
    exact ⟨id, hid, .inl ⟨node, hn, hkey⟩⟩
  refine Ends.bind (ends_forM (fun _ _ _ => ends_visitIndex) h fun k hk =>
    hleads _ (List.mem_append_left _ (List.mem_map_of_mem hk))) ?_
  intro _ g₁ hindices
  have hchildren := ends_forM (fun c (_ : c ∈ node.children) => hwalk c) hindices.tidy fun c hc =>
    hindices.leads hindices.path (hleads _ (List.mem_append_right _ (List.mem_map_of_mem hc)))
  refine Ends.bind (hchildren.mono (fun _ _ h => h) fun _ => hindices.toAdvances.trans) ?_
  intro _ g₂ hchildren
  have hparts : Attains a stray node.parts g g₂ := hindices.append hchildren
  have hpath₂ : g₂.path = i :: path := hparts.path.trans hpath
  have hjoins : ∀ key, a.Part id key → g₂.Joins i key := by
    rintro key ⟨node', hn', hkey⟩
    obtain rfl := Except.ok.inj (hn.symm.trans hn')
    obtain ⟨k, hk, hedges⟩ := hparts.under key hkey
    exact ⟨k, hk, hedges i (by rw [hpath]; rfl)⟩
  exact ends_leave ⟨⟨hparts.tidy.leave hpath₂ (hparts.keeps _ _ hid) hjoins, hparts.keeps,
    hparts.edges⟩, congrArg List.tail hpath₂⟩

/-- A walk of the tree at a node, whether or not the node was met before. -/
theorem ends_walkWithin (a : Arena) (stray : NodeId → Key → Prop) :
    ∀ (depth : Nat) {id : NodeId} {g : Graph}, Tidy a stray g → Leads a stray g (.node id) →
      Ends (recorder.walkWithin a depth id) g (fun _ => Attains a stray [.node id] g)
        fun g' => Advances a stray g g' ∧ (0 < depth → a.HasKey (.node id) → Under g g' (.node id))
  | 0, _, _, h, _ => ends_throw ⟨.refl h, fun h0 => absurd h0 (by simp)⟩
  | depth + 1, id, g, h, hleads => by
    refine ends_ofExcept_bind (fun node hn => ends_enter_bind ?_) fun fault hfault =>
      ⟨.refl h, fun _ hid => ?_⟩
    · have hkey : a.HasKey (.node id) := Arena.hasKey_node_iff.2 ⟨node, hn⟩
      obtain ⟨j, hm, hcase⟩ := exists_meets_enter (.node id node) g
      change Ends (if (enter (.node id node) g).1 = true then _ else _)
        (enter (.node id node) g).2 _ _
      generalize (enter (.node id node) g).2 = g₁ at hm hcase
      have hsub : g.edges ⊆ g₁.edges := fun edge he => (hm.edges edge).2 (.inl he)
      have hunder : ∀ g', Advances a stray g₁ g' → ∀ key ∈ [Key.node id], Under g g' key :=
        fun g' hg' key hkey => List.mem_singleton.1 hkey ▸ hg'.under hm.under
      obtain ⟨hfalse, hknown, hpath⟩ | ⟨htrue, hpath⟩ := hcase
      · have htidy := h.meets hm hkey hleads (.inl ⟨hpath, .inl hknown⟩)
        rw [if_neg (by simp [hfalse])]
        exact ends_pure ⟨⟨htidy, hm.keeps, hsub⟩, hpath, hunder g₁ (.refl htidy)⟩
      · have hfirst : Advances a stray g g₁ :=
          ⟨h.meets hm hkey hleads (.inr ⟨hpath, id, rfl⟩), hm.keeps, hsub⟩
        rw [if_pos htrue]
        refine (ends_below (fun c g h hleads => (ends_walkWithin a stray depth h hleads).mono
          (fun _ _ h => h) fun _ h => h.1) hn hfirst.tidy hpath hm.position).mono ?_ ?_
        · exact fun _ g' ⟨hbelow, hpath⟩ => ⟨hfirst.trans hbelow, hpath, hunder g' hbelow⟩
        · exact fun g' hbelow => ⟨hfirst.trans hbelow, fun _ _ => hunder g' hbelow _ (by simp)⟩
    · obtain ⟨node, hn⟩ := Arena.hasKey_node_iff.1 hid
      rw [hn] at hfault
      cases hfault

/-! ### Several walks -/

/-- The graph after walks, each of a tree in an arena, whether they succeed or stop. -/
def afterWalks (walks : List (Arena × NodeId)) : Graph :=
  walks.foldl (fun g (a, root) => Visitor.memoryOf ((record a root).run g)) .empty

/-- These walks may have been made, one after another, through an arena that has grown to what it is
now. -/
inductive Attempts : Arena → List (Arena × NodeId) → Prop
  | start (a : Arena) : Attempts a []
  | grow {a b : Arena} {walks : List (Arena × NodeId)} (before : Attempts a walks)
      (grows : a.Grows b) : Attempts b walks
  | walk {a : Arena} {walks : List (Arena × NodeId)} (before : Attempts a walks) (root : NodeId) :
      Attempts a (walks ++ [(a, root)])

/-- One of the walks found its root when the path led to the node, where an earlier walk had
stopped. -/
def Stray (walks : List (Arena × NodeId)) (id root : NodeId) : Prop :=
  ∃ k a node, walks[k]? = some (a, root) ∧ a.get root = .ok node ∧
    (afterWalks (walks.take k)).Hangs (some id)

/-- Every edge leads from a node to something that hangs from it. -/
def Structural (a : Arena) (g : Graph) : Prop :=
  ∀ i j, (i, j) ∈ g.edges → ∃ id key, g.position? (.node id) = some i ∧
    g.position? key = some j ∧ a.Part id key

/-- If the node is there, it is in the graph, with an edge to each thing there that hangs from it. -/
def Covers (a : Arena) (g : Graph) (id : NodeId) : Prop :=
  ∀ node, a.get id = .ok node → ∃ i, g.position? (.node id) = some i ∧
    ∀ key ∈ node.parts, a.HasKey key → g.Joins i key

/-- The node was entered by a walk that stopped before the node was left. -/
def Abandoned (g : Graph) (id : NodeId) : Prop := ∃ i ∈ g.path, g.position? (.node id) = some i

variable {walks : List (Arena × NodeId)}

theorem afterWalks_concat (walks : List (Arena × NodeId)) (a : Arena) (root : NodeId) :
    afterWalks (walks ++ [(a, root)]) =
      Visitor.memoryOf ((record a root).run (afterWalks walks)) := by
  simp [afterWalks]

theorem not_stray_nil : ¬ Stray [] id root := by
  rintro ⟨k, a, node, hk, -⟩
  simp at hk

theorem stray_concat {c : NodeId} : Stray (walks ++ [(a, root)]) id c ↔
    Stray walks id c ∨ c = root ∧ a.HasKey (.node root) ∧ (afterWalks walks).Hangs (some id) := by
  rw [Arena.hasKey_node_iff]
  constructor
  · rintro ⟨k, b, node, hk, hn, hangs⟩
    rcases Nat.lt_or_ge k walks.length with hlt | hge
    · rw [List.getElem?_append_left hlt] at hk
      rw [List.take_append_of_le_length hlt.le] at hangs
      exact .inl ⟨k, b, node, hk, hn, hangs⟩
    · obtain rfl : k = walks.length := by
        have := (List.getElem?_eq_some_iff.1 hk).1
        simp at this
        omega
      simp only [List.getElem?_concat_length, Option.some.injEq, Prod.mk.injEq] at hk
      obtain ⟨rfl, rfl⟩ := hk
      rw [List.take_left] at hangs
      exact .inr ⟨rfl, ⟨node, hn⟩, hangs⟩
  · rintro (⟨k, b, node, hk, hn, hangs⟩ | ⟨rfl, ⟨node, hn⟩, hangs⟩)
    · have hlt := (List.getElem?_eq_some_iff.1 hk).1
      refine ⟨k, b, node, ?_, hn, ?_⟩
      · rw [List.getElem?_append_left hlt, hk]
      · rwa [List.take_append_of_le_length hlt.le]
    · refine ⟨walks.length, a, node, List.getElem?_concat_length, hn, ?_⟩
      rwa [List.take_left]

/-- A walk whose root is not there does nothing. -/
theorem memoryOf_record_of_missing (h : ¬ a.HasKey (.node root)) (g : Graph) :
    Visitor.memoryOf ((record a root).run g) = g := by
  cases hn : a.get root with
  | ok node => exact absurd (Arena.hasKey_node_iff.2 ⟨node, hn⟩) h
  | error fault =>
    change Visitor.memoryOf (EStateM.bind (MonadExcept.ofExcept (a.get root)) _ g) = g
    rw [hn]
    rfl

/-- A walk whose root is there puts it below the end of the path. -/
theorem advances_record (h : Tidy a stray g) (hroot : a.HasKey (.node root))
    (hleads : Leads a stray g (.node root)) :
    Advances a stray g (Visitor.memoryOf ((record a root).run g)) ∧
      Under g (Visitor.memoryOf ((record a root).run g)) (.node root) := by
  have hends := ends_walkWithin a stray (a.size + 1) h hleads
  change Ends (record a root) g _ _ at hends
  cases hrun : (record a root).run g with
  | ok x g' =>
    have hattains := hends.ok x g' hrun
    exact ⟨hattains.toAdvances, hattains.under _ (by simp)⟩
  | error fault g' =>
    obtain ⟨hadvances, hunder⟩ := hends.error fault g' hrun
    exact ⟨hadvances, hunder (by simp) hroot⟩

/-- The edges that walks may add between a node and the root of a later walk. -/
def strayEdge (walks : List (Arena × NodeId)) (id : NodeId) (key : Key) : Prop :=
  ∃ root, key = .node root ∧ Stray walks id root

theorem strayEdge_concat (a : Arena) (root id : NodeId) (key : Key)
    (h : strayEdge walks id key) : strayEdge (walks ++ [(a, root)]) id key :=
  have ⟨c, hkey, hc⟩ := h
  ⟨c, hkey, stray_concat.2 (.inl hc)⟩

/-- The walk that comes next may begin at the end of the path. -/
theorem Tidy.leads (h : Tidy a stray (afterWalks walks)) (hroot : a.HasKey (.node root)) :
    Leads a (strayEdge (walks ++ [(a, root)])) (afterWalks walks) (.node root) := by
  intro i hi
  obtain ⟨id, hid⟩ := h.path i (List.mem_of_mem_head? hi)
  exact ⟨id, hid, .inr ⟨root, rfl, stray_concat.2 (.inr ⟨rfl, hroot, i, hi, hid⟩)⟩⟩

theorem Attempts.tidy (h : Attempts a walks) :
    Tidy a (strayEdge walks) (afterWalks walks) ∧ ∀ id root, Stray walks id root →
      ∃ i, (afterWalks walks).position? (.node id) = some i ∧
        (afterWalks walks).Joins i (.node root) := by
  induction h with
  | start a => exact ⟨.empty a, fun _ _ h => absurd h not_stray_nil⟩
  | grow _ grows ih => exact ⟨ih.1.grow grows, ih.2⟩
  | @walk a walks before root ih =>
    obtain ⟨htidy, hstray⟩ := ih
    have htidy := htidy.mono (strayEdge_concat a root)
    rw [afterWalks_concat]
    by_cases hroot : a.HasKey (.node root)
    · obtain ⟨hadvances, j, hj, hedges⟩ := advances_record htidy hroot (htidy.leads hroot)
      refine ⟨hadvances.tidy, fun id c hc => ?_⟩
      rcases stray_concat.1 hc with hc | ⟨rfl, -, i, hi, hid⟩
      · obtain ⟨i, hi, hjoins⟩ := hstray id c hc
        exact ⟨i, hadvances.keeps _ _ hi, hadvances.joins hjoins⟩
      · exact ⟨i, hadvances.keeps _ _ hid, j, hj, hedges i hi⟩
    · rw [memoryOf_record_of_missing hroot]
      refine ⟨htidy, fun id c hc => hstray id c ?_⟩
      exact (stray_concat.1 hc).resolve_right fun h => hroot h.2.1

/-- After a walk from the root, what is reachable is in the graph if what was abandoned is. -/
theorem Attains.covers (htidy : Tidy a stray g) (h : Attains a stray [.node root] g g')
    (habandoned : ∀ c, a.Reaches root c → Abandoned g c → Covers a g' c) {c : NodeId}
    (hc : a.Reaches root c) : Covers a g' c := by
  have hcovers : ∀ c i, a.Reaches root c → g'.position? (.node c) = some i → Covers a g' c := by
    intro c i hc hi
    by_cases hpath : i ∈ g.path
    · obtain ⟨id, hid⟩ := htidy.path i hpath
      cases position?_inj (h.keeps _ _ hid) hi
      exact habandoned c hc ⟨i, hpath, hid⟩
    · exact fun node hn => ⟨i, hi, fun key hkey _ =>
        h.tidy.closed c i hi (h.path.symm ▸ hpath) key ⟨node, hn, hkey⟩⟩
  suffices hknown : a.HasKey (.node c) → ∃ i, g'.position? (.node c) = some i by
    intro node hn
    obtain ⟨i, hi⟩ := hknown (Arena.hasKey_node_iff.2 ⟨node, hn⟩)
    exact hcovers c i hc hi node hn
  -- along the way from the root, each node that is there is joined to the next
  induction hc with
  | refl =>
    obtain ⟨j, hj, -⟩ := h.under (.node root) (by simp)
    exact fun _ => ⟨j, hj⟩
  | @tail b c hb hbc ih =>
    intro hkey
    obtain ⟨node, hn, hmem⟩ := Arena.part_node_iff.2 hbc
    obtain ⟨i, hi⟩ := ih (Arena.hasKey_node_iff.2 ⟨node, hn⟩)
    obtain ⟨_, -, hjoins⟩ := hcovers b i hb hi node hn
    obtain ⟨j, hj, -⟩ := hjoins _ hmem hkey
    exact ⟨j, hj⟩

theorem hasKey_of_record {x : Unit} (hrun : (record a root).run g = .ok x g') :
    a.HasKey (.node root) := by
  obtain ⟨node, hn, -⟩ := Visitor.of_walkWithin_eq_ok hrun
  exact Arena.hasKey_node_iff.2 ⟨node, hn⟩

/-- After any walks, some of which may have stopped, every edge leads from a node to something that
hangs from it just when the roots found while the path led to a node were children of that node.
And whenever a walk succeeds, the graph has all nodes that it can reach, with an edge to each thing
that hangs from one, just when it has those that an earlier walk abandoned; in particular if it
reaches none of these. -/
theorem structural_afterWalks_iff (h : Attempts a walks) :
    (Structural a (afterWalks walks) ↔ ∀ id root, Stray walks id root → a.Child id root) ∧
    ∀ root g, (record a root).run (afterWalks walks) = .ok () g →
      ((∀ c, a.Reaches root c → Covers a g c) ↔
        ∀ c, a.Reaches root c → Abandoned (afterWalks walks) c → Covers a g c) := by
  obtain ⟨htidy, hstray⟩ := h.tidy
  refine ⟨⟨fun hstructural id root hc => ?_, fun hchild i j hedge => ?_⟩, fun root g hrun =>
    ⟨fun hcovers c hc _ => hcovers c hc, fun habandoned c hc => ?_⟩⟩
  · obtain ⟨i, hi, j, hj, hedge⟩ := hstray id root hc
    obtain ⟨id', key, hi', hj', hpart⟩ := hstructural i j hedge
    cases position?_inj hi hi'
    cases position?_inj hj hj'
    exact Arena.part_node_iff.1 hpart
  · obtain ⟨id, key, hi, hj, hpart | ⟨root, rfl, hc⟩⟩ := htidy.edges i j hedge
    · exact ⟨id, key, hi, hj, hpart⟩
    · exact ⟨id, _, hi, hj, Arena.part_node_iff.2 (hchild id root hc)⟩
  · have htidy := htidy.mono (strayEdge_concat a root)
    have hends := ends_walkWithin a _ (a.size + 1) htidy (htidy.leads (hasKey_of_record hrun))
    exact (hends.ok () g hrun).covers htidy habandoned hc

/-- A product whose first factor is unknown, beside a variable of its own. -/
def brokenProduct : Arena where
  nodes := #[.var "u", .operator .product [⟨9⟩, ⟨0⟩], .var "v"]
  indices := #[]

/-- The graph after a walk from the product, which stops, and one from another root. -/
def brokenGraph : Graph where
  vertices := [⟨.node ⟨1⟩, "Product"⟩, ⟨.node ⟨2⟩, "v"⟩]
  edges := [(0, 1)]
  path := [0]

/-- The variable is joined to the product, though the product has no such factor; and a second walk
from the product succeeds, with no vertex for its known factor. -/
theorem exists_edge_of_no_part : Attempts brokenProduct [(brokenProduct, ⟨1⟩), (brokenProduct, ⟨2⟩)] ∧
    afterWalks [(brokenProduct, ⟨1⟩), (brokenProduct, ⟨2⟩)] = brokenGraph ∧
    ¬ Structural brokenProduct brokenGraph ∧
    ∃ g, (record brokenProduct ⟨1⟩).run brokenGraph = .ok () g ∧ ¬ Covers brokenProduct g ⟨1⟩ := by
  refine ⟨.walk (.walk (.start _) ⟨1⟩) ⟨2⟩, rfl, fun hstructural => ?_, brokenGraph.link 0, rfl,
    fun hcovers => ?_⟩
  · obtain ⟨id, key, hi, hj, node, hn, hkey⟩ := hstructural 0 1 (by decide)
    cases position?_inj (show brokenGraph.position? (.node ⟨1⟩) = some 0 by decide) hi
    cases position?_inj (show brokenGraph.position? (.node ⟨2⟩) = some 1 by decide) hj
    cases hn
    exact absurd hkey (by decide)
  · obtain ⟨i, -, hjoins⟩ := hcovers _ rfl
    obtain ⟨j, hj, -⟩ := hjoins (.node ⟨0⟩) (by decide) ⟨.node ⟨0⟩ (.var "u"), rfl, rfl⟩
    cases (show (brokenGraph.link 0).position? (.node ⟨0⟩) = none by decide).symm.trans hj

/-- The graph after a walk from the product, which stops, and one from its known factor. -/
def mendedGraph : Graph where
  vertices := [⟨.node ⟨1⟩, "Product"⟩, ⟨.node ⟨0⟩, "u"⟩]
  edges := [(0, 1)]
  path := [0]

/-- A walk from the known factor after one from the product joins the two as they belong, and all
that the factor can reach is in the graph. -/
theorem structural_afterWalks_brokenProduct :
    Attempts brokenProduct [(brokenProduct, ⟨1⟩), (brokenProduct, ⟨0⟩)] ∧
      afterWalks [(brokenProduct, ⟨1⟩), (brokenProduct, ⟨0⟩)] = mendedGraph ∧
      Stray [(brokenProduct, ⟨1⟩), (brokenProduct, ⟨0⟩)] ⟨1⟩ ⟨0⟩ ∧
      Structural brokenProduct mendedGraph ∧
      (record brokenProduct ⟨0⟩).run mendedGraph = .ok () mendedGraph ∧
      ∀ c, brokenProduct.Reaches ⟨0⟩ c → Covers brokenProduct mendedGraph c := by
  have hattempts : Attempts brokenProduct [(brokenProduct, ⟨1⟩), (brokenProduct, ⟨0⟩)] :=
    .walk (.walk (.start _) ⟨1⟩) ⟨0⟩
  obtain ⟨hstructural, hcovers⟩ := structural_afterWalks_iff hattempts
  refine ⟨hattempts, rfl, ⟨1, brokenProduct, .var "u", rfl, rfl, 0, rfl, by decide⟩,
    hstructural.2 ?_, rfl, (hcovers ⟨0⟩ mendedGraph rfl).2 ?_⟩
  · rintro id root ⟨k, a, node, hk, -, i, hi, hid⟩
    match k, hk with
    | 0, _ => cases hi
    | 1, hk =>
      cases hk
      cases hi
      cases position?_inj (show (afterWalks [(brokenProduct, ⟨1⟩)]).position? (.node ⟨1⟩) = some 0 by
        decide) hid
      exact ⟨_, rfl, by decide⟩
  · rintro c hc ⟨i, hi, hid⟩
    obtain rfl := List.mem_singleton.1 hi
    cases position?_inj (show mendedGraph.position? (.node ⟨1⟩) = some 0 by decide) hid
    rcases Relation.ReflTransGen.cases_head hc with heq | ⟨d, ⟨node, hn, hd⟩, -⟩
    · cases heq
    · cases hn
      cases hd

end Graph

end TensorRecipe
