import TensorRecipe.Proofs.Graph.Meetings
import TensorRecipe.Proofs.Tree.Walks

/-!
# Recorded graphs

A graph that records walks shows what they met (`Graph.Shows`): one vertex for each key, in the
order of first meetings, and one edge for each pair of a node and what hangs from it.  The recorder
goes below a node only when it meets it first.  It misses nothing by that, since all that lies below
a node it knows is known as well, unless the node lies on the path to where it is (`Graph.Closed`);
and in an acyclic tree a node is not met again on the way below it.

Main statement: what a graph records of several walks through a growing arena
(`Graph.recorded_reachable`).
-/

namespace TensorRecipe

/-! ### Lists without repetitions -/

theorem eraseDups_append_of_subset {α : Type} [DecidableEq α] {xs ys : List α} (h : ys ⊆ xs) :
    (xs ++ ys).eraseDups = xs.eraseDups := by
  have hnone : ys.removeAll xs = [] := by
    refine List.filter_eq_nil_iff.2 fun y hy => ?_
    simpa using h hy
  rw [List.eraseDups_append, hnone, List.eraseDups_nil, List.append_nil]

theorem eraseDups_append_of_not_mem {α : Type} [DecidableEq α] {xs : List α} {y : α} (h : y ∉ xs) :
    (xs ++ [y]).eraseDups = xs.eraseDups ++ [y] := by
  have hall : [y].removeAll xs = [y] := by
    simpa [List.removeAll] using h
  rw [List.eraseDups_append, hall, List.eraseDups_cons]
  simp

namespace Graph

variable {a b : Arena} {met new : List Meeting} {g g' g'' : Graph} {parent : Option NodeId}
  {id : NodeId} {visited : Visited} {key : Key} {above : List NodeId}

/-! ### Positions -/

/-- What has a vertex keeps its position. -/
def Keeps (g g' : Graph) : Prop :=
  ∀ key i, g.position? key = some i → g'.position? key = some i

theorem Keeps.trans (h : g.Keeps g') (h' : g'.Keeps g'') : g.Keeps g'' :=
  fun key i hi => h' key i (h key i hi)

theorem position?_congr (h : g'.vertices = g.vertices) (key : Key) :
    g'.position? key = g.position? key := by
  rw [position?, h, position?]

theorem exists_position?_iff : (∃ i, g.position? key = some i) ↔ ∃ v ∈ g.vertices, v.key = key := by
  rw [← Option.isSome_iff_exists, position?, List.findIdx?_isSome]
  simp

theorem position?_append {v : Vertex} (h : g'.vertices = g.vertices ++ [v]) (key : Key) :
    g'.position? key =
      (g.position? key).or (if v.key = key then some g.vertices.length else none) := by
  rw [position?, h, List.findIdx?_append, position?]
  by_cases hv : v.key = key <;> simp [hv]

/-- A vertex that is added behind, with an unknown key, is the only one with a new position. -/
theorem position?_add {v : Vertex} (h : g'.vertices = g.vertices ++ [v])
    (hnone : g.position? v.key = none) : g.Keeps g' ∧ g'.position? v.key = some g.vertices.length ∧
      ∀ key i, g'.position? key = some i → key = v.key ∨ g.position? key = some i := by
  have hposition := position?_append h
  refine ⟨fun key i hi => by rw [hposition, hi, Option.some_or], ?_, fun key i hi => ?_⟩
  · rw [hposition, hnone, if_pos rfl, Option.none_or]
  · rw [hposition] at hi
    by_cases hkey : v.key = key
    · exact .inl hkey.symm
    · exact .inr (by simpa [hkey] using hi)

/-! ### Joining -/

theorem vertices_link (g : Graph) (j : Nat) : (g.link j).vertices = g.vertices := by
  unfold link
  split
  · rfl
  · split <;> rfl

theorem path_link (g : Graph) (j : Nat) : (g.link j).path = g.path := by
  unfold link
  split
  · rfl
  · split <;> rfl

theorem mem_edges_link {j : Nat} {edge : Nat × Nat} : edge ∈ (g.link j).edges ↔
    edge ∈ g.edges ∨ ∃ i, g.path.head? = some i ∧ edge = (i, j) := by
  unfold link
  split
  · next hpath => simp [hpath]
  · next i rest hpath =>
    split
    · next hmem =>
      simp only [hpath, List.head?_cons, Option.some.injEq, exists_eq_left']
      exact ⟨.inl, fun h => h.elim (fun h => h) fun h => h ▸ hmem⟩
    · simp [hpath]

theorem nodup_edges_link (h : g.edges.Nodup) (j : Nat) : (g.link j).edges.Nodup := by
  unfold link
  split
  · exact h
  · split
    · exact h
    · next hnot =>
      refine List.nodup_append.2 ⟨h, by simp, fun edge hmem other hother heq => hnot ?_⟩
      rwa [← List.mem_singleton.1 hother, ← heq]

/-! ### What a graph shows -/

/-- The graph shows what was met in the arena, and nothing else. -/
structure Shows (a : Arena) (met : List Meeting) (g : Graph) : Prop where
  there : ∀ m ∈ met, a.Has m.visited
  parents : ∀ m ∈ met, ∀ id, m.parent = some id → ∃ m' ∈ met, m'.visited.key = .node id
  vertices : g.vertices = (met.map Meeting.vertex).eraseDups
  keys : (g.vertices.map Vertex.key).Nodup
  nodup : g.edges.Nodup
  edges : ∀ i j, (i, j) ∈ g.edges ↔ ∃ m ∈ met, ∃ id, m.parent = some id ∧
    g.position? (.node id) = some i ∧ g.position? m.visited.key = some j

/-- The path leads to the vertex of the node from which things hang, or to none. -/
def Hangs (g : Graph) : Option NodeId → Prop
  | none => g.path = []
  | some id => ∃ i, g.path.head? = some i ∧ g.position? (.node id) = some i

theorem Hangs.keeps (h : g.Hangs parent) (hkeeps : g.Keeps g') (hpath : g'.path = g.path) :
    g'.Hangs parent := by
  cases parent with
  | none => exact hpath.trans h
  | some id =>
    obtain ⟨i, hi, hid⟩ := h
    exact ⟨i, hpath ▸ hi, hkeeps _ _ hid⟩

namespace Shows

theorem empty (a : Arena) : Shows a [] .empty where
  there := by simp
  parents := by simp
  vertices := rfl
  keys := .nil
  nodup := .nil
  edges := by simp [Graph.empty]

theorem grow (h : Shows a met g) (hab : a.Grows b) : Shows b met g :=
  { h with there := fun m hm => hab.has (h.there m hm) }

theorem congr (h : Shows a met g) (hvertices : g'.vertices = g.vertices)
    (hedges : g'.edges = g.edges) : Shows a met g' where
  there := h.there
  parents := h.parents
  vertices := hvertices.trans h.vertices
  keys := by rw [hvertices]; exact h.keys
  nodup := by rw [hedges]; exact h.nodup
  edges := by
    intro i j
    rw [hedges, h.edges]
    simp only [position?_congr hvertices]

theorem mem_vertices (h : Shows a met g) {v : Vertex} :
    v ∈ g.vertices ↔ ∃ m ∈ met, m.vertex = v := by
  rw [h.vertices, List.mem_eraseDups, List.mem_map]

theorem exists_position? (h : Shows a met g) :
    (∃ i, g.position? key = some i) ↔ ∃ m ∈ met, m.visited.key = key := by
  rw [exists_position?_iff]
  constructor
  · rintro ⟨v, hv, hkey⟩
    obtain ⟨m, hm, rfl⟩ := h.mem_vertices.1 hv
    exact ⟨m, hm, hkey⟩
  · rintro ⟨m, hm, hkey⟩
    exact ⟨_, h.mem_vertices.2 ⟨m, hm, rfl⟩, hkey⟩

theorem absorb (h : Shows a met g) (hnew : new ⊆ met) : Shows a (met ++ new) g := by
  have hmem : ∀ m, m ∈ met ++ new ↔ m ∈ met := fun m => by
    rw [List.mem_append]
    exact ⟨fun hm => hm.elim (fun hm => hm) fun hm => hnew hm, .inl⟩
  refine ⟨fun m hm => h.there m ((hmem m).1 hm), fun m hm id hid => ?_, ?_, h.keys, h.nodup,
    fun i j => ?_⟩
  · obtain ⟨m', hm', hkey⟩ := h.parents m ((hmem m).1 hm) id hid
    exact ⟨m', (hmem m').2 hm', hkey⟩
  · rw [h.vertices, List.map_append, eraseDups_append_of_subset (List.map_subset _ hnew)]
  · simp only [h.edges, hmem]

/-- Joining what has a vertex by now to the path shows the meeting. -/
theorem link (h : Shows a met g) (hv : a.Has visited) (hang : g.Hangs parent) {j : Nat}
    (hvertices : g'.vertices = ((met ++ [Meeting.mk parent visited]).map Meeting.vertex).eraseDups)
    (hkeys : (g'.vertices.map Vertex.key).Nodup) (hedges : g'.edges = g.edges)
    (hpath : g'.path = g.path) (hkeeps : g.Keeps g') (hj : g'.position? visited.key = some j) :
    Shows a (met ++ [⟨parent, visited⟩]) (g'.link j) := by
  have hsame : ∀ m ∈ met, ∀ k i, m.visited.key = k →
      (g'.position? k = some i ↔ g.position? k = some i) := by
    intro m hm k i hk
    obtain ⟨i', hi'⟩ := h.exists_position?.2 ⟨m, hm, hk⟩
    rw [hkeeps k i' hi', hi']
  have hpos : ∀ k, (g'.link j).position? k = g'.position? k := position?_congr (vertices_link g' j)
  refine ⟨?_, ?_, by rw [vertices_link, hvertices], by rwa [vertices_link],
    nodup_edges_link (hedges ▸ h.nodup) j, fun i k => ?_⟩
  · intro m hm
    rcases List.mem_append.1 hm with hm | hm
    · exact h.there m hm
    · rw [List.mem_singleton.1 hm]
      exact hv
  · intro m hm id hid
    suffices hknown : ∃ m' ∈ met, m'.visited.key = .node id by
      obtain ⟨m', hm', hkey⟩ := hknown
      exact ⟨m', List.mem_append_left _ hm', hkey⟩
    rcases List.mem_append.1 hm with hm | hm
    · exact h.parents m hm id hid
    · obtain rfl := List.mem_singleton.1 hm
      obtain rfl : parent = some id := hid
      obtain ⟨i, -, hi⟩ := hang
      exact h.exists_position?.1 ⟨i, hi⟩
  · rw [mem_edges_link, hedges, hpath, h.edges]
    simp only [hpos, List.mem_append, List.mem_singleton, or_and_right, exists_or]
    refine or_congr ⟨?_, ?_⟩ ?_
    · rintro ⟨m, hm, id, hid, hi, hk⟩
      exact ⟨m, hm, id, hid, hkeeps _ _ hi, hkeeps _ _ hk⟩
    · rintro ⟨m, hm, id, hid, hi, hk⟩
      obtain ⟨m', hm', hkey⟩ := h.parents m hm id hid
      exact ⟨m, hm, id, hid, (hsame m' hm' _ _ hkey).1 hi, (hsame m hm _ _ rfl).1 hk⟩
    · simp only [exists_eq_left, hj, Option.some.injEq, Prod.mk.injEq]
      cases parent with
      | none => simp [show g.path = [] from hang]
      | some id =>
        obtain ⟨i', hi', hid⟩ := hang
        simp only [hi', Option.some.injEq, exists_eq_left', hkeeps _ _ hid]
        exact ⟨fun ⟨hi, hk⟩ => ⟨hi.symm, hk.symm⟩, fun ⟨hi, hk⟩ => ⟨hi.symm, hk.symm⟩⟩

/-- Entering shows the meeting; what was not met before is now at the end of the path. -/
theorem enter (h : Shows a met g) (hang : g.Hangs parent) (hv : a.Has visited) :
    Shows a (met ++ [⟨parent, visited⟩]) (Graph.enter visited g).2 ∧
      g.Keeps (Graph.enter visited g).2 ∧
      ((Graph.enter visited g).1 = false ∧ (∃ m ∈ met, m.visited.key = visited.key) ∧
          (Graph.enter visited g).2.path = g.path ∨
        (Graph.enter visited g).1 = true ∧ ∃ i, (Graph.enter visited g).2.path = i :: g.path ∧
          (Graph.enter visited g).2.position? visited.key = some i) := by
  unfold Graph.enter
  split
  · next j hj =>
    obtain ⟨m, hm, hkey⟩ := h.exists_position?.1 ⟨j, hj⟩
    obtain rfl := (h.there m hm).eq_of_key hv hkey
    refine ⟨h.link hv hang ?_ h.keys rfl rfl (fun _ _ hi => hi) hj, ?_,
      .inl ⟨rfl, ⟨m, hm, rfl⟩, path_link g j⟩⟩
    · rw [List.map_append, eraseDups_append_of_subset, h.vertices]
      simpa using ⟨m, hm, rfl⟩
    · exact fun k i hi => (position?_congr (vertices_link g j) k).trans hi
  · next hnone =>
    have hunknown : ∀ v ∈ g.vertices, v.key ≠ visited.key := fun v hv' hkey => by
      obtain ⟨i, hi⟩ := exists_position?_iff.2 ⟨v, hv', hkey⟩
      simp [hnone] at hi
    let added : Graph := { g with vertices := g.vertices ++ [visited.vertex] }
    have hvertices : added.vertices = g.vertices ++ [visited.vertex] := rfl
    obtain ⟨hkeeps, hj, -⟩ := position?_add hvertices hnone
    have hlink : Shows a (met ++ [⟨parent, visited⟩]) (added.link g.vertices.length) := by
      refine h.link hv hang ?_ ?_ rfl rfl hkeeps hj
      · rw [List.map_append, List.map_singleton, eraseDups_append_of_not_mem, ← h.vertices]
        · rfl
        intro hmem
        obtain ⟨m, hm, hvertex⟩ := List.mem_map.1 hmem
        exact hunknown _ (h.mem_vertices.2 ⟨m, hm, rfl⟩) (congrArg Vertex.key hvertex)
      · rw [List.map_append, List.nodup_append]
        refine ⟨h.keys, by simp, ?_⟩
        simp only [List.mem_map, List.map_singleton, List.mem_singleton]
        rintro _ ⟨v, hv', rfl⟩ _ rfl
        exact hunknown v hv'
    refine ⟨hlink.congr rfl rfl, ?_, .inr ⟨rfl, g.vertices.length, ?_, ?_⟩⟩
    · exact fun k i hi => (position?_congr (vertices_link added _) k).trans (hkeeps k i hi)
    · exact congrArg (g.vertices.length :: ·) (path_link added _)
    · exact (position?_congr (vertices_link added _) _).trans hj

end Shows

/-! ### Walks -/

/-- From one graph to the next, more was met, and the path is as it was. -/
structure Records (a : Arena) (met new : List Meeting) (g g' : Graph) : Prop where
  shows : Shows a (met ++ new) g'
  path : g'.path = g.path
  keeps : g.Keeps g'

/-- All that lies below a node that was met was met as well, but for the nodes `above`, which are
entered and not yet left. -/
def Closed (a : Arena) (met : List Meeting) (above : List NodeId) : Prop :=
  ∀ m ∈ met, ∀ id node, m.visited = .node id node → id ∉ above →
    ∃ below, a.meetings none id = .ok (⟨none, .node id node⟩ :: below) ∧ below ⊆ met

theorem Closed.append (h : Closed a met above)
    (hnew : ∀ m ∈ new, ∀ id node, m.visited = .node id node → id ∉ above →
      ∃ m' ∈ met, m'.visited = .node id node) : Closed a (met ++ new) above := by
  intro m hm id node hvisited hid
  obtain ⟨m', hm', hvisited'⟩ : ∃ m' ∈ met, m'.visited = .node id node := by
    rcases List.mem_append.1 hm with hm | hm
    · exact ⟨m, hm, hvisited⟩
    · exact hnew m hm id node hvisited hid
  obtain ⟨below, hbelow, hsub⟩ := h m' hm' id node hvisited' hid
  exact ⟨below, hbelow, List.subset_append_of_subset_left _ hsub⟩

theorem records_visitIndex {i : Index} (h : Shows a met g) (hang : g.Hangs (some id))
    (hok : recorder.visitIndex a i g = .ok () g') :
    ∃ m, a.meetIndex id i = .ok m ∧ Records a met [m] g g' := by
  obtain ⟨info, hinfo, hcase⟩ := Visitor.of_visitIndex_eq_ok hok
  have hindex : a.Has (.index i info) := hinfo
  obtain ⟨hshows, hkeeps, henter⟩ := h.enter hang hindex
  refine ⟨_, Arena.meetIndex_eq_ok.2 ⟨info, hinfo, rfl⟩, ?_⟩
  obtain ⟨hfalse, -, hpath⟩ | ⟨htrue, j, hpath, -⟩ := henter
  · obtain ⟨-, rfl⟩ := hcase.resolve_right fun hentered => by cases hfalse.symm.trans hentered.1
    exact ⟨hshows, hpath, hkeeps⟩
  · obtain ⟨-, rfl⟩ := hcase.resolve_left fun hdeclined => by cases htrue.symm.trans hdeclined.1
    exact ⟨hshows.congr rfl rfl, congrArg List.tail hpath, hkeeps⟩

theorem records_attributes :
    ∀ {is : List Index} {met : List Meeting} {g g' : Graph}, Shows a met g → g.Hangs (some id) →
      is.forM (recorder.visitIndex a) g = .ok () g' →
        ∃ new, List.Forall₂ (a.meetIndex id · = .ok ·) is new ∧ Records a met new g g'
  | [], met, g, g', h, _, hok => by
    cases hok
    exact ⟨[], .nil, by rwa [List.append_nil], rfl, fun _ _ hi => hi⟩
  | i :: is, met, g, g', h, hang, hok => by
    obtain ⟨⟨⟩, g₁, hi, hok⟩ := Visitor.ok_of_bind_eq_ok (f := fun _ => is.forM _) hok
    obtain ⟨m, hm, hfirst⟩ := records_visitIndex h hang hi
    obtain ⟨new, hnew, hrest⟩ := records_attributes hfirst.shows
      (hang.keeps hfirst.keeps hfirst.path) hok
    refine ⟨m :: new, .cons hm hnew, ?_, hrest.path.trans hfirst.path,
      hfirst.keeps.trans hrest.keeps⟩
    simpa using hrest.shows

/-- A walk of an acyclic tree that hangs from the end of the path records what it meets there. -/
def Recording (a : Arena) (walk : NodeId → Walk Graph Unit) : Prop :=
  ∀ {parent : Option NodeId} {id : NodeId} {met : List Meeting} {above : List NodeId}
    {g g' : Graph}, Shows a met g → g.Hangs parent → Closed a met above →
      (∀ c ∈ above, a.Below c id) → (∀ c, a.Reaches id c → ¬ a.Below c c) → walk id g = .ok () g' →
        ∃ new, a.meetings parent id = .ok new ∧ Records a met new g g' ∧ Closed a (met ++ new) above

theorem records_children {walk : NodeId → Walk Graph Unit} (hwalk : Recording a walk) :
    ∀ {cs : List NodeId} {met : List Meeting} {g g' : Graph}, Shows a met g → g.Hangs (some id) →
      Closed a met above → (∀ c ∈ cs, ∀ d ∈ above, a.Below d c) →
      (∀ c ∈ cs, ∀ d, a.Reaches c d → ¬ a.Below d d) → cs.forM walk g = .ok () g' →
        ∃ new, List.Forall₂ (a.meetings (some id) · = .ok ·) cs new ∧
          Records a met new.flatten g g' ∧ Closed a (met ++ new.flatten) above
  | [], met, g, g', h, _, hclosed, _, _, hok => by
    cases hok
    refine ⟨[], .nil, ⟨?_, rfl, fun _ _ hi => hi⟩, ?_⟩ <;> rwa [List.flatten_nil, List.append_nil]
  | c :: cs, met, g, g', h, hang, hclosed, habove, hacyclic, hok => by
    obtain ⟨⟨⟩, g₁, hc, hok⟩ := Visitor.ok_of_bind_eq_ok (f := fun _ => cs.forM walk) hok
    obtain ⟨new, hnew, hfirst, hclosed'⟩ := hwalk h hang hclosed (habove c (by simp))
      (hacyclic c (by simp)) hc
    obtain ⟨news, hnews, hrest, hclosed''⟩ := records_children hwalk hfirst.shows
      (hang.keeps hfirst.keeps hfirst.path) hclosed'
      (fun d hd => habove d (List.mem_cons_of_mem c hd))
      (fun d hd => hacyclic d (List.mem_cons_of_mem c hd)) hok
    rw [List.append_assoc, ← List.flatten_cons] at hclosed''
    refine ⟨new :: news, .cons hnew hnews, ⟨?_, hrest.path.trans hfirst.path,
      hfirst.keeps.trans hrest.keeps⟩, hclosed''⟩
    rw [List.flatten_cons, ← List.append_assoc]
    exact hrest.shows

/-- Where a node is met again nothing below it needs to be met again. -/
theorem Shows.meet_again {id : NodeId} {node : Node} {above : List NodeId}
    (hclosed : Closed a met above) (hid : id ∉ above) (hn : a.get id = .ok node)
    (hshows : Shows a (met ++ [⟨parent, .node id node⟩]) g)
    (hthere : ∀ m ∈ met, a.Has m.visited) (hmet : ∃ m ∈ met, m.visited.key = .node id) :
    ∃ new, a.meetings parent id = .ok new ∧ Shows a (met ++ new) g ∧
      Closed a (met ++ new) above := by
  obtain ⟨m, hm, hkey⟩ := hmet
  have hnode : a.Has (.node id node) := hn
  have hvisited : m.visited = .node id node := (hthere m hm).eq_of_key hnode hkey
  obtain ⟨below, hbelow, hsub⟩ := hclosed m hm id node hvisited hid
  obtain ⟨n, below', hn', heq, hmeet⟩ := Arena.exists_below_of_meetings hbelow
  obtain ⟨-, rfl⟩ := List.cons.inj heq
  obtain rfl : n = node := Except.ok.inj (hn'.symm.trans hn)
  refine ⟨_, hmeet parent, ?_, hclosed.append fun m' hm' c n hc _ => ?_⟩
  · have hassoc : met ++ [Meeting.mk parent (.node id n)] ++ below =
        met ++ Meeting.mk parent (.node id n) :: below := by simp
    exact hassoc ▸ hshows.absorb (List.subset_append_of_subset_left _ hsub)
  · rcases List.mem_cons.1 hm' with rfl | hm'
    · exact ⟨m, hm, hvisited.trans hc⟩
    · exact ⟨m', hsub hm', hc⟩

/-- A node that is entered is open, and the indices it carries have nothing below them. -/
theorem Closed.enter {id : NodeId} {node : Node} {is : List Index} {indices : List Meeting}
    {above : List NodeId} (h : Closed a met above)
    (hindices : List.Forall₂ (a.meetIndex id · = .ok ·) is indices) :
    Closed a (met ++ [⟨parent, .node id node⟩] ++ indices) (id :: above) := by
  rw [List.append_assoc]
  refine Closed.append (fun m hm c n hc hnot => h m hm c n hc fun hmem =>
    hnot (List.mem_cons_of_mem id hmem)) fun m hm c n hc hnot => ?_
  rcases List.mem_append.1 hm with hm | hm
  · obtain rfl := List.mem_singleton.1 hm
    cases hc
    exact absurd List.mem_cons_self hnot
  · obtain ⟨i, -, hi⟩ := Arena.exists_of_mem_right hindices hm
    obtain ⟨info, -, rfl⟩ := Arena.meetIndex_eq_ok.1 hi
    cases hc

/-- A node that is left is closed again if all that lies below it was met. -/
theorem Closed.leave {id : NodeId} {node : Node} {above : List NodeId} {below : List Meeting}
    (h : Closed a met (id :: above)) (hn : a.get id = .ok node)
    (hthere : ∀ m ∈ met, a.Has m.visited)
    (hmeet : a.meetings none id = .ok (⟨none, .node id node⟩ :: below)) (hsub : below ⊆ met) :
    Closed a met above := by
  intro m hm c n hc hnot
  by_cases hid : c = id
  · subst hid
    have hvisited := hthere m hm
    rw [hc] at hvisited
    obtain rfl : node = n := Except.ok.inj (hn.symm.trans hvisited)
    exact ⟨below, hmeet, hsub⟩
  · exact h m hm c n hc (by simp [hid, hnot])

theorem recording_walkWithin (a : Arena) : ∀ depth, Recording a (recorder.walkWithin a depth)
  | 0, _, _, _, _, _, _, _, _, _, _, _, hok => nomatch hok
  | depth + 1, parent, id, met, above, g, g', h, hang, hclosed, habove, hacyclic, hok => by
    obtain ⟨node, hn, hcase⟩ := Visitor.of_walkWithin_eq_ok hok
    have hnode : a.Has (.node id node) := hn
    obtain ⟨hshows, hkeeps, henter⟩ := h.enter hang hnode
    obtain ⟨hfalse, hmet, hpath⟩ | ⟨htrue, j, hpath, hj⟩ := henter
    · -- the node is known, and so is all below it: it is not above itself
      obtain ⟨-, rfl⟩ := hcase.resolve_right fun hentered => by cases hfalse.symm.trans hentered.1
      obtain ⟨new, hnew, hshows', hclosed'⟩ := hshows.meet_again hclosed
        (fun hid => hacyclic id .refl (habove id hid)) hn h.there hmet
      exact ⟨new, hnew, ⟨hshows', hpath, hkeeps⟩, hclosed'⟩
    · obtain ⟨-, g₁, g₂, hattributes, hchildren, rfl⟩ :=
        hcase.resolve_left fun hdeclined => by cases htrue.symm.trans hdeclined.1
      have hang₁ : (enter (.node id node) g).2.Hangs (some id) := ⟨j, by rw [hpath]; rfl, hj⟩
      obtain ⟨indices, hindices, hfirst⟩ := records_attributes hshows hang₁ hattributes
      have hbelow : ∀ c ∈ node.children, ∀ d ∈ id :: above, a.Below d c := by
        intro c hc d hd
        have hstep : a.Child id c := ⟨node, hn, hc⟩
        rcases List.mem_cons.1 hd with rfl | hd
        · exact .single hstep
        · exact (habove d hd).tail hstep
      obtain ⟨below, hmeet, hrest, hclosed'⟩ := records_children (recording_walkWithin a depth)
        hfirst.shows (hang₁.keeps hfirst.keeps hfirst.path) (hclosed.enter hindices) hbelow
        (fun c hc d hd => hacyclic d (.head ⟨node, hn, hc⟩ hd)) hchildren
      have hmeets : ∀ parent', a.meetings parent' id =
          .ok (⟨parent', .node id node⟩ :: (indices ++ below.flatten)) := fun parent' =>
        Arena.meetings_of_within
          (Arena.meetingsWithin_succ.2 ⟨node, indices, below, hn, hindices, hmeet, rfl⟩)
      have hassoc : met ++ [⟨parent, .node id node⟩] ++ indices ++ below.flatten =
          met ++ ⟨parent, .node id node⟩ :: (indices ++ below.flatten) := by simp
      have hshows' := hassoc ▸ hrest.shows
      refine ⟨_, hmeets parent, ⟨hshows'.congr rfl rfl, ?_, ?_⟩,
        (hassoc ▸ hclosed').leave hn hshows'.there (hmeets none) ?_⟩
      · show g₂.path.tail = g.path
        rw [hrest.path, hfirst.path, hpath, List.tail_cons]
      · exact hkeeps.trans (hfirst.keeps.trans fun k i hi => hrest.keeps k i hi)
      · exact fun m hm => List.mem_append_right _ (List.mem_cons_of_mem _ hm)

/-! ### Several walks -/

/-- What a graph may be after walks from these roots through a growing arena: before each of them
the arena may grow, and what they walk is acyclic. -/
inductive Recorded : Arena → List NodeId → Graph → Prop
  | start (a : Arena) : Recorded a [] .empty
  | grow {a b : Arena} {roots : List NodeId} {g : Graph} (before : Recorded a roots g)
      (grows : a.Grows b) : Recorded b roots g
  | walk {a : Arena} {roots : List NodeId} {g g' : Graph} {root : NodeId}
      (before : Recorded a roots g) (acyclic : ∀ c, a.Reaches root c → ¬ a.Below c c)
      (run : (record a root).run g = .ok () g') : Recorded a (roots ++ [root]) g'

theorem Recorded.shows {roots : List NodeId} (h : Recorded a roots g) :
    g.path = [] ∧ ∃ met, List.Forall₂ (a.meetings none · = .ok ·) roots met ∧
      Shows a met.flatten g ∧ Closed a met.flatten [] := by
  induction h with
  | start a => exact ⟨rfl, [], .nil, Shows.empty a, by simp [Closed]⟩
  | grow _ grows ih =>
    obtain ⟨hpath, met, hmet, hshows, hclosed⟩ := ih
    refine ⟨hpath, met, hmet.imp fun _ _ h => grows.meetings h, hshows.grow grows, ?_⟩
    intro m hm id node hvisited hid
    obtain ⟨below, hbelow, hsub⟩ := hclosed m hm id node hvisited hid
    exact ⟨below, grows.meetings hbelow, hsub⟩
  | walk _ acyclic run ih =>
    obtain ⟨hpath, met, hmet, hshows, hclosed⟩ := ih
    have hang : Graph.Hangs _ none := hpath
    obtain ⟨new, hnew, hrecords, hclosed'⟩ := recording_walkWithin _ _ hshows hang hclosed (by simp)
      acyclic run
    refine ⟨hrecords.path.trans hpath, met ++ [new], List.rel_append hmet (.cons hnew .nil), ?_, ?_⟩
    · simpa using hrecords.shows
    · simpa using hclosed'

/-- After walks of acyclic trees through a growing arena, the path is empty; the vertices are those
of what the walks met, the nodes and the indices they carry, each once and in the order of first
meetings; a node or an index has one just when it is reachable from a root or carried by a node that
is; and there is one edge, and no other, for each pair of a reachable node and something that hangs
from it. -/
theorem recorded_reachable {roots : List NodeId} (h : Recorded a roots g) :
    g.path = [] ∧
    (∃ met, roots.mapM (a.meetings none) = .ok met ∧
      g.vertices = (met.flatten.map Meeting.vertex).eraseDups) ∧
    (g.vertices.map Vertex.key).Nodup ∧
    (∀ key, key ∈ g.vertices.map Vertex.key ↔ ∃ root ∈ roots, ∃ id node, a.Reaches root id ∧
      a.get id = .ok node ∧ (key = .node id ∨ ∃ i ∈ node.attributes, key = .index i)) ∧
    g.edges.Nodup ∧
    ∀ i j, (i, j) ∈ g.edges ↔ ∃ root ∈ roots, ∃ id node, a.Reaches root id ∧
      a.get id = .ok node ∧ g.position? (.node id) = some i ∧
        ∃ key ∈ node.parts, g.position? key = some j := by
  obtain ⟨hpath, met, hmet, hshows, -⟩ := h.shows
  refine ⟨hpath, ⟨met, mapM_eq_ok_of_forall₂ hmet, hshows.vertices⟩, hshows.keys, fun key => ?_,
    hshows.nodup, fun i j => ?_⟩
  · rw [← Arena.exists_met_iff hmet, ← hshows.exists_position?, exists_position?_iff, List.mem_map]
  · rw [hshows.edges]
    constructor
    · rintro ⟨m, hm, id, hparent, hi, hj⟩
      obtain ⟨root, hroot, node, hreach, hn, hkey⟩ :=
        (Arena.exists_hanging_iff hmet).1 ⟨m, hm, hparent, rfl⟩
      exact ⟨root, hroot, id, node, hreach, hn, hi, _, hkey, hj⟩
    · rintro ⟨root, hroot, id, node, hreach, hn, hi, key, hkey, hj⟩
      obtain ⟨m, hm, hparent, rfl⟩ :=
        (Arena.exists_hanging_iff hmet).2 ⟨root, hroot, node, hreach, hn, hkey⟩
      exact ⟨m, hm, id, hparent, hi, hj⟩

/-- A sum of the same reduction twice. -/
def sumTwice : Arena where
  nodes := #[.index ⟨0⟩, .indexSum [⟨0⟩] ⟨0⟩, .operator .sum [⟨1⟩, ⟨1⟩]]
  indices := #[⟨"k", 2, .free, []⟩]

/-- The reduction also lies below a loop over an index of its own, both of them added later. -/
def sumTwiceLooped : Arena :=
  (sumTwice.addIndex ⟨"l", 3, .free, []⟩).addNode (.forAll [⟨1⟩] ⟨1⟩)

/-- The graph of the sum, and then of the loop. -/
def sumTwiceGraph : Graph where
  vertices := [⟨.node ⟨2⟩, "Sum"⟩, ⟨.node ⟨1⟩, "IndexSum"⟩, ⟨.index ⟨0⟩, "k"⟩, ⟨.node ⟨0⟩, "Index"⟩,
    ⟨.node ⟨3⟩, "ForAll"⟩, ⟨.index ⟨1⟩, "l"⟩]
  edges := [(0, 1), (1, 2), (1, 3), (4, 5), (4, 1)]
  path := []

theorem recorded_sumTwice : Recorded sumTwiceLooped [⟨2⟩, ⟨3⟩] sumTwiceGraph := by
  have hsum : ∃ t, sumTwice.Unfolds ⟨2⟩ t :=
    ⟨.node (.operator .sum) [.node (.indexSum [⟨0⟩]) [.node (.index ⟨0⟩) []],
      .node (.indexSum [⟨0⟩]) [.node (.index ⟨0⟩) []]], ⟨_, rfl, rfl,
      ⟨_, rfl, rfl, ⟨_, rfl, rfl, trivial⟩, trivial⟩,
      ⟨_, rfl, rfl, ⟨_, rfl, rfl, trivial⟩, trivial⟩, trivial⟩⟩
  have hloop : ∃ t, sumTwiceLooped.Unfolds ⟨3⟩ t :=
    ⟨.node (.forAll [⟨1⟩]) [.node (.indexSum [⟨0⟩]) [.node (.index ⟨0⟩) []]], ⟨_, rfl, rfl,
      ⟨_, rfl, rfl, ⟨_, rfl, rfl, trivial⟩, trivial⟩, trivial⟩⟩
  have hgrows : sumTwice.Grows sumTwiceLooped :=
    ⟨⟨[.forAll [⟨1⟩] ⟨1⟩], rfl⟩, ⟨[⟨"l", 3, .free, []⟩], rfl⟩⟩
  have hfirst : Recorded sumTwice [⟨2⟩] _ :=
    .walk (.start sumTwice) (Arena.exists_unfolds_iff.1 hsum).2 rfl
  exact .walk (.grow hfirst hgrows) (Arena.exists_unfolds_iff.1 hloop).2 rfl

/-- The shared reduction is one vertex with an edge from the sum and one from the loop. -/
theorem recorded_reachable_sumTwice : Recorded sumTwiceLooped [⟨2⟩, ⟨3⟩] sumTwiceGraph ∧
    sumTwiceGraph.path = [] ∧ (0, 1) ∈ sumTwiceGraph.edges ∧ (4, 1) ∈ sumTwiceGraph.edges := by
  obtain ⟨hpath, -, -, -, -, hedges⟩ := recorded_reachable recorded_sumTwice
  refine ⟨recorded_sumTwice, hpath, (hedges 0 1).2 ?_, (hedges 4 1).2 ?_⟩
  · exact ⟨⟨2⟩, by decide, ⟨2⟩, .operator .sum [⟨1⟩, ⟨1⟩], .refl, rfl, rfl, .node ⟨1⟩, by decide,
      rfl⟩
  · exact ⟨⟨3⟩, by decide, ⟨3⟩, .forAll [⟨1⟩] ⟨1⟩, .refl, rfl, rfl, .node ⟨1⟩, by decide, rfl⟩

end Graph

end TensorRecipe
