import TensorRecipe.Proofs.Extraction.Values

/-!
# The steps of placing

`Plan.placeWithin` places what it should in every part of a region (`places_placeWithin`), by
induction on the depth allowed.  A way down leads through the part, and from the value of one entry
to that of another, each of which is entered once.
-/

namespace TensorRecipe

namespace Extraction

open Draft PassM

variable {entries : List (Reduction × Draft)} {total : String → Nat} {factors : Index → List Index}
  {used : List String} {p : Plan} {limit depth : Nat} {place : NodeId → PlaceM (NodeId × Tally)}

/-! ### Children -/

/-- The children have been placed one after another. -/
structure Outcomes (entries : List (Reduction × Draft)) (total : String → Nat)
    (factors : Index → List Index) (used : List String) (cs : List Draft)
    (w w' : Workspace (List Nat)) (r : List NodeId × Tally) (parts : List Part) : Prop where
  placed : List.Forall₂ (fun c (q : Part) => Placed entries total factors used q.here c q.draft) cs
    parts
  unfolds : List.Forall₂ w'.arena.Unfolds r.1 (parts.map (·.draft.toTree))
  tallied : Tallied entries r.2 fun x => (parts.map fun q => q.draft.count x).sum
  memory : w'.memory.Perm (parts.flatMap Part.here ++ w.memory)
  nodup : w'.memory.Nodup
  lt : ∀ q ∈ parts, ∀ k ∈ q.here, k < entries.length
  grows : Grows w w'
  conserved : ∀ x, (parts.map fun q => q.draft.count x).sum + rest entries w'.memory x =
    (cs.map (count x)).sum + rest entries w.memory x
  low : ∀ q ∈ parts, Low (entries.map (·.1.name)) q.draft

theorem gives_placeChildren {isBody : Bool}
    (hplace : Places entries total factors used p limit depth isBody place) :
    ∀ {cs : List Draft} {ids : List NodeId} {w : Workspace (List Nat)},
      (∀ c ∈ cs, Placeable entries total factors used c) →
      List.Forall₂ w.arena.Unfolds ids (cs.map toTree) → Fits entries total p w.arena →
      Ready entries total w.memory (fun x => (cs.map (count x)).sum) →
      (∀ c ∈ cs, c.toTree.height + (entries.length - w.memory.length) * (limit + 1) ≤ depth) →
      (Plan.placeChildren place ids).Gives w fun r w' => ∃ parts,
        Outcomes entries total factors used cs w w' r parts ∧
          ∀ q ∈ parts, Settled entries total q ∨ isBody = false ∧ ∃ x, q.draft = .ref x
  | [], [], w, _, .nil, _, hready, _ =>
    gives_pure ⟨[], ⟨.nil, .nil, .nil, .refl _, hready.nodup, by simp, .refl w, fun _ => rfl, by simp⟩,
      by simp⟩
  | c :: cs, id :: ids, w, hcs, .cons hid hids, hfit, hready, hdepth => by
    have hready₁ : Ready entries total w.memory fun x => c.count x + (cs.map (count x)).sum := by
      simpa using hready
    refine (hplace (hcs c (by simp)) hid hfit (hready₁.mono fun x => Nat.le_add_right _ _)
      (hdepth c (by simp))).bind ?_
    rintro ⟨id', uses⟩ w₁ ⟨part, hout, hsettled⟩
    have hlength : w.memory.length ≤ w₁.memory.length := by
      have hlen := hout.memory.length_eq
      rw [List.length_append] at hlen
      omega
    refine (gives_placeChildren hplace (fun d hd => hcs d (List.mem_cons_of_mem c hd))
      (hids.imp fun _ _ h => h.mono hout.grows.arena) (hfit.mono hout.grows.arena)
      (hout.ready hready₁) fun d hd => ?_).bind ?_
    · refine le_trans (Nat.add_le_add_left (Nat.mul_le_mul_right _ (by omega)) _)
        (hdepth d (List.mem_cons_of_mem c hd))
    · rintro ⟨ids', more⟩ w₂ ⟨parts, houts, hall⟩
      refine gives_pure ⟨part :: parts, ⟨.cons hout.placed houts.placed,
        .cons (hout.unfolds.mono houts.grows.arena) houts.unfolds, ?_, ?_, houts.nodup, ?_,
        hout.grows.trans houts.grows, fun x => ?_, ?_⟩, ?_⟩
      · simpa using hout.tallied.merge houts.tallied
      · refine houts.memory.trans ((hout.memory.append_left _).trans ?_)
        rw [List.flatMap_cons, ← List.append_assoc]
        exact List.perm_append_comm.append_right _
      · exact List.forall_mem_cons.2 ⟨hout.lt, houts.lt⟩
      · have h := hout.conserved x
        have h' := houts.conserved x
        simp only [List.map_cons, List.sum_cons]
        omega
      · exact List.forall_mem_cons.2 ⟨hout.low, houts.low⟩
      · exact List.forall_mem_cons.2 ⟨hsettled, hall⟩

/-! ### Nodes -/

theorem isScope_eq (node : Node) : isScope node = node.shape.isScope := by
  cases node <;> rfl

theorem binder_of_not_isScope {shape : Shape} (h : ¬ shape.isScope) (k : Nat) :
    shape.binder factors k = .empty := by
  cases shape
  case forAll is => exact absurd rfl h
  case indexSum is => exact absurd rfl h
  case letIn names => exact absurd rfl h
  all_goals
    show Binder.mk _ _ = Binder.mk _ _
    simp [Shape.binds, Shape.scope, Shape.given]

/-- A node over children that have been placed. -/
theorem Outcomes.placed_node (hs : Stocked entries total factors used) {shape : Shape}
    {cs : List Draft} (inner : shape.IsInner ∨ cs = [])
    (unbarred : ∀ g transpose, shape ≠ .recipe g transpose) (names : ∀ y ∈ shape.names, y ∈ used)
    (hcs : ∀ c ∈ cs, Placeable entries total factors used c)
    (covered : shape.isScope → ∀ (k : Nat) d, cs[k]? = some d →
      ∃ bound ⊆ Finset.range entries.length,
        Sealed entries total (fun x => ¬ (shape.binder factors k).Captures factors x.sum) bound d)
    {w w' : Workspace (List Nat)} {r : List NodeId × Tally} {parts : List Part}
    (h : Outcomes entries total factors used cs w w' r parts)
    (hready : Ready entries total w.memory (fun x => (cs.map (count x)).sum))
    (hsettled : shape.isScope = true → ∀ q ∈ parts, Settled entries total q) :
    Placed entries total factors used (parts.flatMap Part.here) (.node shape cs)
      (.node shape (parts.map Part.draft)) := by
  refine .node inner unbarred names h.placed (fun k q hk x hx => ?_) fun e he => ?_
  · by_cases hscope : shape.isScope = true
    · have hq := List.mem_of_getElem? hk
      obtain ⟨hkp, rfl⟩ := List.getElem?_eq_some_iff.1 hk
      have hkc : k < cs.length := by rwa [h.placed.length_eq]
      have hplaced := (List.forall₂_iff_get.1 h.placed).2 k hkc hkp
      have hck : cs[k]? = some cs[k] := List.getElem?_eq_getElem hkc
      obtain ⟨bound, hsub, hseal⟩ := covered hscope k _ hck
      refine hplaced.ok_of_free hs (hcs _ (List.getElem_mem hkc)) ?_ hsub hseal
        (hsettled hscope _ hq) (fun y z hz hyz hcap => hz (hcap.of_readsWithin hyz)) hx
      have hnodup := (h.memory.nodup_iff.1 h.nodup).of_append_left
      exact (List.nodup_flatMap.1 hnodup).1 _ hq
    · rw [binder_of_not_isScope hscope]
      exact Binder.not_captures_empty
  · obtain ⟨k, hk⟩ := List.mem_iff_getElem?.1 he
    have hle := hready.le_total hk
    rw [← h.conserved] at hle
    exact (Nat.le_add_right _ _).trans hle

/-- What has become of a node, once it is made anew over its children. -/
theorem Outcomes.node {shape : Shape} {cs : List Draft} {w w' : Workspace (List Nat)}
    {r : List NodeId × Tally} {parts : List Part}
    (h : Outcomes entries total factors used cs w w' r parts)
    (hplaced : Placed entries total factors used (parts.flatMap Part.here) (.node shape cs)
      (.node shape (parts.map Part.draft)))
    (hunused : ∀ e ∈ entries, shape ≠ .var e.1.name) {new : NodeId} {a : Arena}
    (hext : w'.arena.Extends a)
    (hnew : a.Unfolds new (.node shape (parts.map (·.draft.toTree)))) :
    Outcome entries total factors used (.node shape cs) w { w' with arena := a } (new, r.2)
      ⟨parts.flatMap Part.here, .node shape (parts.map Part.draft)⟩ := by
  refine ⟨hplaced, ?_, ⟨h.tallied.ordered, h.tallied.lt, fun k e he => ?_⟩, h.memory, h.nodup, ?_,
    ⟨h.grows.arena.trans hext, h.grows.extracted⟩, .node fun _ d hd => ?_⟩
  · rw [toTree, toTrees_eq, List.map_map]
    exact hnew
  · rw [h.tallied.count k e he, count_node, if_neg (hunused e (List.mem_of_getElem? he)),
      Nat.zero_add, List.map_map]
    rfl
  · intro k hk
    obtain ⟨q, hq, hk⟩ := List.mem_flatMap.1 hk
    exact h.lt q hq k hk
  · obtain ⟨q, hq, rfl⟩ := List.mem_map.1 hd
    exact h.low q hq

/-- Each child has been settled, or is a bare reference. -/
theorem bare_node (hs : Stocked entries total factors used) {shape : Shape} {parts : List Part}
    (hsettled : ∀ q ∈ parts, Settled entries total q ∨
      shape.isScope = false ∧ ∃ x, q.draft = .ref x) :
    Bare entries total ⟨parts.flatMap Part.here, .node shape (parts.map Part.draft)⟩ := by
  refine ⟨nofun, fun shape' children h k e he hk d hd => ?_⟩
  cases h
  obtain ⟨q, hq, rfl⟩ := List.mem_map.1 hd
  obtain hq' | ⟨hscope, x, hx⟩ := hsettled q hq
  · refine .inl (Nat.lt_of_not_le fun hle => hk ?_)
    exact List.mem_flatMap.2 ⟨q, hq, hq' k e he hle⟩
  · by_cases hname : x.name = e.1.name
    · exact .inr ⟨hscope, x, hx, hname⟩
    · rw [hx, count_ref, if_neg hname]
      exact .inl (hs.needed e (List.mem_of_getElem? he))

/-! ### Trees without uses -/

/-- Steps that find nothing to place: the handle stays, and nothing else changes. -/
def Keeps (place : NodeId → PlaceM (NodeId × Tally)) (id : NodeId) (w : Workspace (List Nat)) :
    Prop := (place id).Gives w fun r w' => r = (id, []) ∧ w' = w

theorem keeps_bindComplete {place : NodeId → PlaceM (NodeId × Tally)} (id : NodeId)
    (w : Workspace (List Nat)) : Keeps (fun id => p.bindComplete place id []) id w := by
  have hcomplete : (p.placeComplete place id (p.temporaries.length + 1) []).Gives w
      fun r w' => r = ([], []) ∧ w' = w := by
    unfold Plan.placeComplete
    refine gives_getMemory.bind ?_
    rintro _ w₀ ⟨rfl, hw⟩
    exact gives_pure ⟨rfl, hw⟩
  refine hcomplete.bind ?_
  rintro _ w₁ ⟨rfl, hw⟩
  exact gives_pure ⟨rfl, hw⟩

theorem keeps_placeChildren :
    ∀ {ids : List NodeId} {w : Workspace (List Nat)}, (∀ id ∈ ids, Keeps place id w) →
      (Plan.placeChildren place ids).Gives w fun r w' => r = (ids, []) ∧ w' = w
  | [], _, _ => gives_pure ⟨rfl, rfl⟩
  | id :: ids, w, h => by
    refine Gives.bind (h id (by simp)) ?_
    rintro _ w₁ ⟨rfl, hw⟩
    obtain rfl : w = w₁ := hw.symm
    refine (keeps_placeChildren fun i hi => h i (List.mem_cons_of_mem id hi)).bind ?_
    rintro _ w₂ ⟨rfl, hw⟩
    exact gives_pure ⟨rfl, hw⟩

theorem keeps_placeWithin (t : Tree) :
    ∀ {depth : Nat} {isBody : Bool} {id : NodeId} {w : Workspace (List Nat)},
      w.arena.Unfolds id t → (∀ x ∈ p.temporaries.map Temporary.name, t.occurrences x = 0) →
      t.height ≤ depth → Keeps (p.placeWithin depth isBody) id w := by
  induction t using Tree.induct with
  | node shape children ih =>
    intro depth isBody id w hun hzero hdepth
    obtain ⟨depth, rfl, hheight⟩ := Tree.height_le_iff.1 hdepth
    obtain ⟨n, hn, rfl, hc⟩ := hun.get
    have href : Plan.refersTo? p.temporaries n = none := by
      refine Plan.refersTo?_eq_none ?_
      rintro x rfl hx
      have := hzero x hx
      simp [Tree.occurrences, Node.shape] at this
    refine gives_ask_bind hn ?_
    rw [href]
    refine (keeps_placeChildren fun i hi => ?_).bind ?_
    · obtain ⟨u, hu, hiu⟩ := Arena.exists_of_mem_left hc hi
      exact ih u hu hiu (fun x hx => Nat.le_zero.1 <|
        (Tree.occurrences_le_of_mem x hu).trans (hzero x hx).le) (hheight u hu)
    · rintro _ w₁ ⟨rfl, hw⟩
      obtain rfl : w = w₁ := hw.symm
      have hsame : (setChildren id n n.children : PlaceM NodeId) = pure id := if_pos rfl
      dsimp only
      rw [hsame, pure_bind]
      exact keeps_bindComplete id w

/-! ### Parts of the region -/

theorem Placed.refl {c : Draft} (hscoped : c.Scoped factors used) (hcore : c.core = c)
    (hbindings : c.bindings = []) (hfree : ∀ x, ¬ Free x c) :
    Placed entries total factors used [] c c :=
  ⟨hcore, hscoped, by simp [hbindings], by simp, fun x hx => absurd hx (hfree x)⟩

section

variable {a : Arena} {n : Node}

theorem Fits.names_eq (h : Fits entries total p a) :
    p.temporaries.map Temporary.name = entries.map (·.1.name) := by
  rw [← List.forall₂_eq_eq_eq, List.forall₂_map_left_iff, List.forall₂_map_right_iff]
  exact h.temporaries.imp fun _ _ ht => ht.1

theorem Fits.refersTo?_var (h : Fits entries total p a) (hs : Stocked entries total factors used)
    {k : Nat} {x : Reduction} {v : Draft} (he : entries[k]? = some (x, v)) :
    Plan.refersTo? p.temporaries (.var x.name) = some k := by
  refine (Plan.refersTo?_var (h.names_eq ▸ hs.nodup)).2 ?_
  rw [h.names_eq, List.getElem?_map, he]
  rfl

theorem Fits.refersTo?_eq_none (h : Fits entries total p a)
    (hn : ∀ e ∈ entries, n.shape ≠ .var e.1.name) : Plan.refersTo? p.temporaries n = none := by
  refine Plan.refersTo?_eq_none fun x hx hmem => ?_
  rw [h.names_eq] at hmem
  obtain ⟨e, he, rfl⟩ := List.mem_map.1 hmem
  exact hn e he (by rw [hx]; rfl)

end

theorem outcome_ref (hs : Stocked entries total factors used) {x : Reduction} {v : Draft} {k : Nat}
    {id : NodeId} {w : Workspace (List Nat)} (fresh : x.name ∉ used)
    (names : ∀ y ∈ x.sum.names, y ∈ used) (he : entries[k]? = some (x, v))
    (hun : w.arena.Unfolds id (ref x).toTree) (hnodup : w.memory.Nodup) :
    Outcome entries total factors used (.ref x) w w (id, [(k, 1)]) ⟨[], .ref x⟩ := by
  have hlt := (List.getElem?_eq_some_iff.1 he).1
  refine ⟨⟨rfl, .ref fresh names, .refl _, by simp, fun y hy => ?_⟩, hun,
    ⟨Tally.ordered_singleton k, by simpa using hlt, fun j d hd => ?_⟩, .refl _, hnodup, by simp,
    .refl w, .ref⟩
  · obtain rfl := free_ref_iff.1 hy
    exact ⟨k, by simp, v, he⟩
  · rw [Tally.count_cons, count_ref]
    by_cases hkj : k = j
    · subst hkj
      obtain rfl : (x, v) = d := by simpa [he] using hd
      simp
    · have hne : x.name ≠ d.1.name := fun h => hkj (hs.eq_of_name he hd h).1
      simp [hkj, hne, Tally.count]

theorem places_ref (hs : Stocked entries total factors used)
    (hlimit : ∀ e ∈ entries, e.2.toTree.height ≤ limit)
    (hplace : Places entries total factors used p limit depth false (p.placeWithin depth false))
    {isBody : Bool} {x : Reduction} {id : NodeId} {w : Workspace (List Nat)}
    (hc : Placeable entries total factors used (.ref x)) (hun : w.arena.Unfolds id (ref x).toTree)
    (hfit : Fits entries total p w.arena) (hready : Ready entries total w.memory ((ref x).count ·))
    (hdepth : (entries.length - w.memory.length) * (limit + 1) ≤ depth + 1) :
    (p.placeWithin (depth + 1) isBody id).Gives w fun r w' =>
      ∃ part, Outcome entries total factors used (.ref x) w w' r part ∧
        (Settled entries total part ∨ isBody = false ∧ ∃ x, part.draft = .ref x) := by
  obtain ⟨fresh, names, k, v, he⟩ : x.name ∉ used ∧ (∀ y ∈ x.sum.names, y ∈ used) ∧
      ∃ k : Nat, ∃ d, entries[k]? = some (x, d) := by
    cases hc with | ref fresh names mem => exact ⟨fresh, names, mem⟩
  obtain ⟨n, hn, hshape, -⟩ := hun.get
  obtain rfl := Node.eq_var hshape
  have hout := outcome_ref hs fresh names he hun hready.nodup
  refine gives_ask_bind hn ?_
  rw [hfit.refersTo?_var hs he]
  dsimp only
  split
  · have hbare : Bare entries total ⟨[], .ref x⟩ := ⟨by simp, by simp⟩
    refine (gives_bindComplete hs hlimit hplace hc hfit hready hout hbare hdepth).mono ?_
    rintro r w' ⟨part, hpart, hsettled⟩
    exact ⟨part, hpart, .inl hsettled⟩
  · next hb =>
    exact gives_pure ⟨_, hout, .inr ⟨by simpa using hb, x, rfl⟩⟩

theorem places_node (hs : Stocked entries total factors used)
    (hlimit : ∀ e ∈ entries, e.2.toTree.height ≤ limit)
    (hplace : ∀ isBody, Places entries total factors used p limit depth isBody
      (p.placeWithin depth isBody)) {isBody : Bool} {shape : Shape} {cs : List Draft} {id : NodeId}
    {w : Workspace (List Nat)} (hc : Placeable entries total factors used (.node shape cs))
    (unbarred : ∀ g transpose, shape ≠ .recipe g transpose)
    (hun : w.arena.Unfolds id (node shape cs).toTree) (hfit : Fits entries total p w.arena)
    (hready : Ready entries total w.memory ((node shape cs).count ·))
    (hdepth : (node shape cs).toTree.height +
      (entries.length - w.memory.length) * (limit + 1) ≤ depth + 1) :
    (p.placeWithin (depth + 1) isBody id).Gives w fun r w' => ∃ part,
      Outcome entries total factors used (.node shape cs) w w' r part ∧
        Settled entries total part := by
  obtain ⟨inner, names, parts, covered⟩ : (shape.IsInner ∨ cs = []) ∧
      (∀ y ∈ shape.names, y ∈ used) ∧ (∀ d ∈ cs, Placeable entries total factors used d) ∧
      (shape.isScope → ∀ (k : Nat) d, cs[k]? = some d → ∃ bound ⊆ Finset.range entries.length,
        Sealed entries total (fun x => ¬ (shape.binder factors k).Captures factors x.sum) bound d) := by
    cases hc with
    | node inner _ names parts covered => exact ⟨inner, names, parts, covered⟩
    | recipe _ _ => exact absurd rfl (unbarred _ _)
  rw [toTree, toTrees_eq] at hun
  obtain ⟨n, hn, rfl, hchildren⟩ := hun.get
  rw [toTree, Tree.height, toTrees_eq] at hdepth
  have hunused : ∀ e ∈ entries, n.shape ≠ .var e.1.name := fun e he hvar =>
    hs.fresh e he (names _ (by simp [hvar, Shape.names]))
  have hready₁ : Ready entries total w.memory fun x => (cs.map (count x)).sum := by
    refine hready.mono fun x => ?_
    rw [count_node]
    exact Nat.le_add_left _ _
  refine gives_ask_bind hn ?_
  rw [hfit.refersTo?_eq_none hunused]
  refine (gives_placeChildren (hplace (isScope n)) parts hchildren hfit hready₁ fun c hc => ?_).bind
    ?_
  · have := Tree.height_le_of_mem (List.mem_map_of_mem (f := toTree) hc)
    omega
  rintro ⟨ids, uses⟩ w₁ ⟨qs, houts, hsettled⟩
  have hplaced := houts.placed_node hs inner unbarred names parts covered hready₁
    fun h q hq => (hsettled q hq).resolve_right (by simp [isScope_eq, h])
  have hlen : ids.length = n.children.length := by
    rw [houts.unfolds.length_eq, hchildren.length_eq, List.length_map, List.length_map,
      houts.placed.length_eq]
  refine (gives_setChildren (houts.grows.arena.get hn) hlen houts.unfolds).bind ?_
  rintro id' w₂ ⟨hun', hext, hw₂⟩
  have hout := houts.node hplaced hunused hext hun'
  rw [← hw₂] at hout
  exact gives_bindComplete hs hlimit (hplace false) hc (hfit.mono hout.grows.arena) hready hout
    (bare_node hs fun q hq => isScope_eq n ▸ hsettled q hq) (by omega)

/-- The steps of placing do what they should, whatever the depth allowed. -/
theorem places_placeWithin (hs : Stocked entries total factors used)
    (hlimit : ∀ e ∈ entries, e.2.toTree.height ≤ limit) :
    ∀ (depth : Nat) (isBody : Bool),
      Places entries total factors used p limit depth isBody (p.placeWithin depth isBody)
  | 0, _, c, _, _, _, _, _, _, hdepth => by
    have := c.toTree.height_pos
    omega
  | depth + 1, isBody, c, id, w, hc, hun, hfit, hready, hdepth => by
    have hplace := places_placeWithin hs hlimit depth
    have hpos := c.toTree.height_pos
    cases hc with
    | @node shape cs inner unbarred names parts covered =>
      exact (places_node hs hlimit hplace (.node inner unbarred names parts covered) unbarred hun
        hfit hready hdepth).mono fun r w' ⟨part, hpart, hsettled⟩ => ⟨part, hpart, .inl hsettled⟩
    | ref fresh names mem =>
      exact places_ref hs hlimit (hplace false) (.ref fresh names mem) hun hfit hready (by omega)
    | @recipe g transpose cs isScoped apart =>
      have hkeeps : Keeps (p.placeWithin (depth + 1) isBody) id w := by
        refine keeps_placeWithin _ hun (fun x hx => ?_) (by omega)
        obtain ⟨t, ht, rfl⟩ := List.mem_map.1 hx
        obtain ⟨e, he, hname, -⟩ := Arena.exists_of_mem_left hfit.temporaries ht
        rw [hname]
        exact apart e he
      refine hkeeps.mono ?_
      rintro _ w₁ ⟨rfl, rfl⟩
      refine ⟨⟨[], .node (.recipe g transpose) cs⟩, ⟨.refl isScoped rfl rfl fun x hx => ?_, hun, ?_,
        .refl _, hready.nodup, by simp, .refl _, .node fun h => absurd rfl (h g transpose)⟩,
        .inl fun k e he hle => ?_⟩
      · obtain ⟨d, hd, hx⟩ := free_node_iff.1 hx
        cases isScoped with
        | node _ _ _ _ closed => exact closed g transpose rfl d hd x hx
      · exact ⟨Tally.ordered_nil, by simp, fun k e he => (apart e (List.mem_of_getElem? he)).symm⟩
      · have := hs.needed e (List.mem_of_getElem? he)
        rw [apart e (List.mem_of_getElem? he)] at hle
        omega

end Extraction

end TensorRecipe
