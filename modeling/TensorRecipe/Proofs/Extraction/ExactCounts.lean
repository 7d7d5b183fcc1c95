import TensorRecipe.Proofs.Extraction.Dangling
import TensorRecipe.Proofs.Extraction.PlacingCalls

/-!
# Placing counts exactly

In a region whose entries are known every call of placing is `Admitted`: what it is made for can be
placed, the uses that it may still see are those to come, and the depth allowed will do.  An admitted
call makes admitted calls only (`Admitted.visits`, `Admitted.fetches`), so all calls are
(`Admitted.enters`).  Each of them returns, and has counted the references in the tree of its answer
(`Admitted.counted`); the rounds of binding at its node come to an end (`Admitted.rounds_le`).

The names of the region are apart from those that are bound inside its recipes (`Closed.outside`), so
whether a temporary is bound in a tree can be told by its name (`Placed.mem_letNames_iff`).

Main statement: placing counts exactly in every region (`placesExactly_extract`).
-/

namespace TensorRecipe

open Draft

/-- What is bound anywhere is bound in the region, or inside a recipe of the region or of a value
that is bound there. -/
theorem Draft.Scoped.mem_bound_iff {factors : Index → List Index} {used : List String} {d : Draft}
    (h : d.Scoped factors used) {x : Reduction} : x ∈ d.bound ↔
      x ∈ d.core.bound ∨ ∃ b ∈ d.bindings, x = b.1 ∨ x ∈ b.2.core.bound := by
  rw [← Multiset.mem_coe, h.bound_core, Multiset.mem_add, Multiset.mem_coe]
  refine or_congr_right ?_
  generalize d.bindings = bs
  induction bs with
  | nil => simp
  | cons b bs ih => rw [List.map_cons, List.sum_cons, Multiset.mem_add, ih]; simp

namespace Extraction

open Draft PassM

variable {entries : List (Reduction × Draft)} {total : String → Nat} {factors : Index → List Index}
  {used : List String} {p : Plan} {limit depth : Nat}

/-! ### Names bound inside recipes -/

/-- No entry has the name of anything that is bound in the draft already. -/
def Outside (entries : List (Reduction × Draft)) (d : Draft) : Prop :=
  ∀ e ∈ entries, e.1.name ∉ d.bound.map Reduction.name

theorem Outside.child {shape : Shape} {cs : List Draft} (h : Outside entries (.node shape cs))
    {c : Draft} (hc : c ∈ cs) : Outside entries c := by
  intro e he hmem
  obtain ⟨x, hx, hname⟩ := List.mem_map.1 hmem
  refine h e he (List.mem_map.2 ⟨x, ?_, hname⟩)
  rw [bound, boundAll_eq]
  exact List.mem_flatMap.2 ⟨c, hc, hx⟩

/-- Around an entry that is placed there is a let of its name, and there is none of the others. -/
theorem Placed.mem_letNames_iff (hs : Stocked entries total factors used)
    (hvalues : ∀ e ∈ entries, Outside entries e.2) {here : List Nat} {c d : Draft}
    (hc : Outside entries c) (h : Placed entries total factors used here c d) {k : Nat}
    {e : Reduction × Draft} (he : entries[k]? = some e) :
    e.1.name ∈ d.toTree.letNames ↔ k ∈ here := by
  have hmem := List.mem_of_getElem? he
  rw [← List.count_pos_iff, h.isScoped.count_letNames (hs.fresh e hmem), List.count_pos_iff]
  constructor
  · intro hname
    obtain ⟨x, hx, hname⟩ := List.mem_map.1 hname
    rcases h.isScoped.mem_bound_iff.1 hx with hx | ⟨b, hb, hx⟩
    · rw [h.core] at hx
      exact absurd (hname ▸ List.mem_map_of_mem hx) (hc e hmem)
    · obtain ⟨j, hj, hjb⟩ := List.mem_filterMap.1 (h.bindings.subset (List.mem_map_of_mem hb))
      rcases hx with rfl | hx
      · obtain ⟨rfl, -⟩ := hs.eq_of_name hjb he hname
        exact hj
      · exact absurd (hname ▸ List.mem_map_of_mem hx)
          (hvalues _ (List.mem_of_getElem? hjb) e hmem)
  · intro hk
    have hbound : e ∈ d.bindings.map fun b => (b.1, b.2.core) :=
      h.bindings.symm.subset (List.mem_filterMap.2 ⟨k, hk, he⟩)
    obtain ⟨b, hb, rfl⟩ := List.mem_map.1 hbound
    exact List.mem_map_of_mem (mem_bound_of_mem_bindings d b hb)

/-- In a closed draft the names of the region are apart from those bound inside recipes. -/
theorem Closed.outside {bindings : List (Reduction × Draft)} {d : Draft}
    (h : Closed bindings factors used d) :
    Outside (cores bindings) d.core ∧ ∀ e ∈ cores bindings, Outside (cores bindings) e.2 := by
  have hsum : ∀ bs : List (Reduction × Draft),
      (bs.map fun b => {b.1} + (b.2.core.bound : Multiset Reduction)).sum =
        (bs.map Prod.fst : Multiset Reduction) + (bs.flatMap fun b => b.2.core.bound) := by
    intro bs
    induction bs with
    | nil => rfl
    | cons b bs ih =>
      rw [List.map_cons, List.sum_cons, ih, List.map_cons, List.flatMap_cons, ← Multiset.cons_coe,
        ← Multiset.singleton_add, ← Multiset.coe_add]
      abel
  have hnodup : (((d.bindings.map Prod.fst : Multiset Reduction) + (d.core.bound +
      (d.bindings.flatMap fun b => b.2.core.bound : List Reduction))).map Reduction.name).Nodup := by
    have hbound := h.isScoped.bound_core
    rw [hsum, add_left_comm] at hbound
    rw [← hbound]
    exact Multiset.coe_nodup.2 h.apart.nodup
  rw [Multiset.map_add, Multiset.nodup_add] at hnodup
  have hapart : ∀ e ∈ cores bindings, ∀ x : Reduction, x.name = e.1.name →
      x ∉ d.core.bound ∧ x ∉ d.bindings.flatMap fun b => b.2.core.bound := by
    intro e he x hname
    obtain ⟨b, hb, rfl⟩ := List.mem_map.1 he
    have hfirst : x.name ∈ (d.bindings.map Prod.fst : Multiset Reduction).map Reduction.name :=
      hname ▸ Multiset.mem_map_of_mem _
        (List.mem_map_of_mem (f := Prod.fst) (a := b) (h.perm.symm.subset hb))
    have hlater := Multiset.disjoint_left.1 hnodup.2.2 hfirst
    refine ⟨fun hx => hlater (Multiset.mem_map_of_mem _ ?_), fun hx =>
      hlater (Multiset.mem_map_of_mem _ ?_)⟩
    · exact Multiset.mem_add.2 (.inl hx)
    · exact Multiset.mem_add.2 (.inr hx)
  refine ⟨fun e he hmem => ?_, fun f hf e he hmem => ?_⟩ <;>
    obtain ⟨x, hx, hname⟩ := List.mem_map.1 hmem
  · exact (hapart e he x hname).1 hx
  · obtain ⟨b, hb, rfl⟩ := List.mem_map.1 hf
    exact (hapart e he x hname).2 (List.mem_flatMap.2 ⟨b, h.perm.symm.subset hb, hx⟩)

/-! ### Calls that can be answered -/

/-- What a call is made for can be placed: it is a part of the region, or of a recipe in it that
refers to no entry.  The uses that the call may see are to come, and the depth allowed will do. -/
inductive Admitted (entries : List (Reduction × Draft)) (total : String → Nat)
    (factors : Index → List Index) (used : List String) (p : Plan) (limit depth : Nat) (id : NodeId)
    (w : Workspace (List Nat)) : Prop where
  | part {d : Draft} (placeable : Placeable entries total factors used d)
    (outside : Outside entries d) (unfolds : w.arena.Unfolds id d.toTree)
    (fits : Fits entries total p w.arena) (ready : Ready entries total w.memory (d.count ·))
    (height : d.toTree.height + (entries.length - w.memory.length) * (limit + 1) ≤ depth)
  | inner {t : Tree} (zero : ∀ e ∈ entries, t.occurrences e.1.name = 0)
    (unfolds : w.arena.Unfolds id t) (fits : Fits entries total p w.arena)
    (ready : Ready entries total w.memory fun _ => 0)
    (height : t.height + (entries.length - w.memory.length) * (limit + 1) ≤ depth)

theorem Fits.occurrences_eq_zero {a : Arena} (h : Fits entries total p a) {t : Tree}
    (ht : ∀ e ∈ entries, t.occurrences e.1.name = 0) :
    ∀ x ∈ p.temporaries.map Temporary.name, t.occurrences x = 0 := by
  rw [h.names_eq]
  intro x hx
  obtain ⟨e, he, rfl⟩ := List.mem_map.1 hx
  exact ht e he

/-- Of an entry that is complete no uses are in values, so it gets no place in them. -/
theorem Added.notMem (hs : Stocked entries total factors used) {vs : List Value}
    {w w' : Workspace (List Nat)} {pairs : List (Nat × NodeId)} {uses : Tally} {f : String → Nat}
    (h : Added entries total factors used vs w w' pairs)
    (hseen : Seen entries total w'.memory uses fun x => f x + usesIn vs x) {t : Nat}
    {e : Reduction × Draft} (he : entries[t]? = some e) (hfull : total e.1.name ≤ f e.1.name)
    (ht : t ∉ w.memory) (hnumber : t ∉ vs.map Value.number) : t ∉ w'.memory := by
  intro hmem
  rcases List.mem_append.1 (h.memory.subset hmem) with hmem | hmem
  · exact hnumber hmem
  · refine (List.mem_append.1 hmem).elim (fun hmem => ?_) ht
    obtain ⟨v, hv, htv⟩ := List.mem_flatMap.1 hmem
    have hv' := (h.placed v hv).full t htv e he
    have hle : v.part.draft.count e.1.name ≤ usesIn vs e.1.name :=
      le_sum (f := fun v : Value => v.part.draft.count e.1.name) hv
    have hpos := hs.needed e (List.mem_of_getElem? he)
    have hsum := hseen.le t e he
    omega

theorem Outcomes.ready {cs : List Draft} {w w' : Workspace (List Nat)} {r : List NodeId × Tally}
    {parts : List Part} (h : Outcomes entries total factors used cs w w' r parts) {g : String → Nat}
    (hr : Ready entries total w.memory fun x => (cs.map (count x)).sum + g x) :
    Ready entries total w'.memory g := by
  have hlt : ∀ k ∈ parts.flatMap Part.here, k < entries.length := by
    intro k hk
    obtain ⟨q, hq, hk⟩ := List.mem_flatMap.1 hk
    exact h.lt q hq k hk
  refine hr.after h.memory h.nodup hlt fun k hk e he => ?_
  obtain ⟨q, hq, hkq⟩ := List.mem_flatMap.1 hk
  obtain ⟨c, -, hc⟩ := Arena.exists_of_mem_right h.placed hq
  have hfull := hc.full k hkq e he
  have hle := le_sum (f := fun q : Part => q.draft.count e.1.name) hq
  have hcons := h.conserved e.1.name
  have hrest := rest_of_perm h.memory h.nodup hlt e.1.name
  omega

theorem Outcomes.seen {cs : List Draft} {w w' : Workspace (List Nat)} {r : List NodeId × Tally}
    {parts : List Part} (h : Outcomes entries total factors used cs w w' r parts)
    (hr : Ready entries total w.memory fun x => (cs.map (count x)).sum) :
    Seen entries total w'.memory r.2 fun x => (parts.map fun q => q.draft.count x).sum :=
  ⟨h.ready (hr.mono fun _ => le_rfl), h.tallied, fun k e he => by
    rw [h.conserved]
    exact hr.le_total he⟩

theorem Outcomes.length_le {cs : List Draft} {w w' : Workspace (List Nat)} {r : List NodeId × Tally}
    {parts : List Part} (h : Outcomes entries total factors used cs w w' r parts) :
    w.memory.length ≤ w'.memory.length := by
  have hlen := h.memory.length_eq
  rw [List.length_append] at hlen
  omega

/-- The same for several nodes, one after another. -/
inductive AdmittedAll (entries : List (Reduction × Draft)) (total : String → Nat)
    (factors : Index → List Index) (used : List String) (p : Plan) (limit depth : Nat)
    (ids : List NodeId) (w : Workspace (List Nat)) : Prop where
  | parts {ds : List Draft} (placeable : ∀ d ∈ ds, Placeable entries total factors used d)
    (outside : ∀ d ∈ ds, Outside entries d)
    (unfolds : List.Forall₂ w.arena.Unfolds ids (ds.map toTree)) (fits : Fits entries total p w.arena)
    (ready : Ready entries total w.memory fun x => (ds.map (count x)).sum)
    (height : ∀ d ∈ ds,
      d.toTree.height + (entries.length - w.memory.length) * (limit + 1) ≤ depth)
  | inner {ts : List Tree} (zero : ∀ t ∈ ts, ∀ e ∈ entries, t.occurrences e.1.name = 0)
    (unfolds : List.Forall₂ w.arena.Unfolds ids ts) (fits : Fits entries total p w.arena)
    (ready : Ready entries total w.memory fun _ => 0)
    (height : ∀ t ∈ ts, t.height + (entries.length - w.memory.length) * (limit + 1) ≤ depth)

/-- The children of a node that reads no entry are admitted where the node is. -/
theorem AdmittedAll.of_node {shape : Shape} {ts : List Tree} {ids : List NodeId}
    {w : Workspace (List Nat)} (zero : ∀ e ∈ entries, (Tree.node shape ts).occurrences e.1.name = 0)
    (unfolds : List.Forall₂ w.arena.Unfolds ids ts) (fits : Fits entries total p w.arena)
    (ready : Ready entries total w.memory fun _ => 0)
    (height : (Tree.node shape ts).height + (entries.length - w.memory.length) * (limit + 1) ≤
      depth + 1) : AdmittedAll entries total factors used p limit depth ids w := by
  refine .inner (fun t ht e he => Nat.le_zero.1 <|
    (Tree.occurrences_le_of_mem e.1.name ht).trans (zero e he).le) unfolds fits ready fun t ht => ?_
  have hlt : t.height < (Tree.node shape ts).height := Tree.height_lt_of_mem ht
  omega

theorem Admitted.children {id : NodeId} {w : Workspace (List Nat)} {node : Node}
    (hs : Stocked entries total factors used)
    (h : Admitted entries total factors used p limit (depth + 1) id w)
    (hget : w.arena.get id = .ok node) (href : Plan.refersTo? p.temporaries node = none) :
    AdmittedAll entries total factors used p limit depth node.children w := by
  cases h with
  | part placeable outside unfolds fits ready height =>
    cases placeable with
    | @node shape ds inner unbarred names parts covered =>
      obtain ⟨n, hn, -, hchildren⟩ := unfolds.get
      cases hget.symm.trans hn
      rw [toTrees_eq] at hchildren
      refine .parts parts (fun d hd => outside.child hd) hchildren fits (ready.mono fun x => ?_) ?_
      · rw [count_node]
        exact Nat.le_add_left _ _
      · intro d hd
        have hle := Tree.height_le_of_mem (List.mem_map_of_mem (f := toTree) hd)
        rw [toTree, Tree.height, toTrees_eq] at height
        omega
    | @recipe g transpose ds isScoped apart =>
      obtain ⟨n, hn, -, hchildren⟩ := unfolds.get
      cases hget.symm.trans hn
      rw [toTree] at height
      refine .of_node (fun e he => ?_) hchildren fits (ready.mono fun x => Nat.zero_le _) height
      have hzero := apart e he
      rwa [Draft.count, toTree] at hzero
    | @ref x fresh names mem =>
      obtain ⟨n, hn, hshape, -⟩ := unfolds.get
      cases hget.symm.trans hn
      obtain ⟨k, v, he⟩ := mem
      obtain rfl := Node.eq_var hshape
      rw [fits.refersTo?_var hs he] at href
      cases href
  | @inner t zero unfolds fits ready height =>
    obtain ⟨shape, ts⟩ := t
    obtain ⟨n, hn, -, hchildren⟩ := unfolds.get
    cases hget.symm.trans hn
    exact .of_node zero hchildren fits ready height

theorem Admitted.of_reference {id : NodeId} {w : Workspace (List Nat)} {node : Node} {t : Nat}
    (hs : Stocked entries total factors used)
    (h : Admitted entries total factors used p limit depth id w) (hget : w.arena.get id = .ok node)
    (href : Plan.refersTo? p.temporaries node = some t) : ∃ x v, x.name ∉ used ∧
      (∀ y ∈ x.sum.names, y ∈ used) ∧ entries[t]? = some (x, v) ∧
      w.arena.Unfolds id (ref x).toTree ∧ Fits entries total p w.arena ∧
      Ready entries total w.memory ((ref x).count ·) := by
  have hvar : Fits entries total p w.arena → ∃ e : Reduction × Draft, entries[t]? = some e ∧
      node = .var e.1.name := by
    intro hfit
    obtain ⟨y, rfl⟩ := Plan.exists_var_of_refersTo? href
    rw [Plan.refersTo?_var (hfit.names_eq ▸ hs.nodup), hfit.names_eq, List.getElem?_map,
      Option.map_eq_some_iff] at href
    obtain ⟨e, he, rfl⟩ := href
    exact ⟨e, he, rfl⟩
  cases h with
  | part placeable outside unfolds fits ready height =>
    obtain ⟨e, he, rfl⟩ := hvar fits
    cases placeable with
    | node _ _ names _ _ =>
      obtain ⟨n, hn, rfl, -⟩ := unfolds.get
      cases hget.symm.trans hn
      exact absurd (names _ (by simp [Node.shape, Shape.names])) (hs.fresh e (List.mem_of_getElem? he))
    | recipe _ _ =>
      obtain ⟨n, hn, hshape, -⟩ := unfolds.get
      cases hget.symm.trans hn
      cases hshape
    | @ref x fresh names mem =>
      obtain ⟨n, hn, hshape, -⟩ := unfolds.get
      cases hget.symm.trans hn
      obtain ⟨k, v, hk⟩ := mem
      obtain ⟨rfl, -⟩ := hs.eq_of_name hk he (by simpa [Node.shape] using hshape.symm)
      exact ⟨x, v, fresh, names, hk, unfolds, fits, ready⟩
  | @inner t zero unfolds fits ready height =>
    obtain ⟨e, he, rfl⟩ := hvar fits
    obtain ⟨shape, ts⟩ := t
    obtain ⟨n, hn, rfl, -⟩ := unfolds.get
    cases hget.symm.trans hn
    have hzero := zero e (List.mem_of_getElem? he)
    simp [Tree.occurrences, Node.shape] at hzero

theorem Admitted.budget {id : NodeId} {w : Workspace (List Nat)}
    (h : Admitted entries total factors used p limit depth id w) :
    (entries.length - w.memory.length) * (limit + 1) ≤ depth := by
  cases h with
  | part _ _ _ _ _ height => omega
  | inner _ _ _ _ height => omega

section

variable (hs : Stocked entries total factors used)
  (hlimit : ∀ e ∈ entries, e.2.toTree.height ≤ limit)

include hs hlimit

/-- After the nodes before it, each node is placed by an admitted call. -/
theorem AdmittedAll.visits {isBody : Bool} {ids : List NodeId} {w v : Workspace (List Nat)}
    (h : AdmittedAll entries total factors used p limit depth ids w) {k : Nat} {id : NodeId}
    {done : List NodeId × Tally} (hk : ids[k]? = some id)
    (hbefore : Plan.placeChildren (p.placeWithin depth isBody) (ids.take k) w = .ok done v) :
    Admitted entries total factors used p limit depth id v := by
  cases h with
  | @parts ds placeable outside unfolds fits ready height =>
    obtain ⟨t, ht, hun⟩ := Arena.exists_of_getElem?_left unfolds hk
    obtain ⟨d, hd, rfl⟩ := getElem?_map_eq.1 ht
    have hmem := List.mem_of_getElem? hd
    have hsum : ∀ x, ((ds.take k).map (count x)).sum + d.count x ≤ (ds.map (count x)).sum := by
      intro x
      obtain ⟨hlt, rfl⟩ := List.getElem?_eq_some_iff.1 hd
      conv_rhs => rw [← List.take_append_drop k ds, List.drop_eq_getElem_cons hlt]
      simp only [List.map_append, List.map_cons, List.sum_append, List.sum_cons]
      omega
    have before : ∀ d ∈ ds.take k, Placeable entries total factors used d := fun d hd =>
      placeable d (List.mem_of_mem_take hd)
    obtain ⟨parts, houts, -⟩ := (gives_placeChildren
      (places_placeWithin hs hlimit depth isBody) before
      (by simpa using List.forall₂_take k unfolds) fits
      (ready.mono fun x => (Nat.le_add_right _ _).trans (hsum x))
      fun d hd => height d (List.mem_of_mem_take hd)).ensures _ _ hbefore
    refine .part (placeable d hmem) (outside d hmem) (hun.mono houts.grows.arena)
      (fits.mono houts.grows.arena) (houts.ready (ready.mono hsum)) ?_
    refine le_trans (Nat.add_le_add_left (Nat.mul_le_mul_right _ ?_) _) (height d hmem)
    exact Nat.sub_le_sub_left houts.length_le _
  | @inner ts zero unfolds fits ready height =>
    obtain ⟨t, ht, hun⟩ := Arena.exists_of_getElem?_left unfolds hk
    have hmem := List.mem_of_getElem? ht
    obtain ⟨-, rfl⟩ := (keeps_placeChildren fun i hi => by
      obtain ⟨u, hu, hiu⟩ := Arena.exists_of_mem_left unfolds (List.mem_of_mem_take hi)
      exact keeps_placeWithin u hiu (fits.occurrences_eq_zero (zero u hu))
        (le_trans (Nat.le_add_right _ _) (height u hu))).ensures _ _ hbefore
    exact .inner (zero t hmem) hun fits ready (height t hmem)

theorem AdmittedAll.seen {isBody : Bool} {ids : List NodeId} {w v : Workspace (List Nat)}
    (h : AdmittedAll entries total factors used p limit depth ids w) {r : List NodeId × Tally}
    (hrun : Plan.placeChildren (p.placeWithin depth isBody) ids w = .ok r v) :
    (∃ f, Seen entries total v.memory r.2 f) ∧ Fits entries total p v.arena ∧
      w.memory.length ≤ v.memory.length ∧ w.arena.Extends v.arena ∧ r.1.length = ids.length ∧
      ∃ ts, List.Forall₂ v.arena.Unfolds r.1 ts := by
  cases h with
  | @parts ds placeable outside unfolds fits ready height =>
    obtain ⟨parts, houts, -⟩ := (gives_placeChildren (places_placeWithin hs hlimit depth isBody)
      placeable unfolds fits ready height).ensures _ _ hrun
    refine ⟨⟨_, houts.seen ready⟩, fits.mono houts.grows.arena, houts.length_le,
      houts.grows.arena, ?_, _, houts.unfolds⟩
    rw [houts.unfolds.length_eq, unfolds.length_eq, List.length_map, List.length_map,
      houts.placed.length_eq]
  | @inner ts zero unfolds fits ready height =>
    obtain ⟨rfl, rfl⟩ := (keeps_placeChildren fun i hi => by
      obtain ⟨u, hu, hiu⟩ := Arena.exists_of_mem_left unfolds hi
      exact keeps_placeWithin u hiu (fits.occurrences_eq_zero (zero u hu))
        (le_trans (Nat.le_add_right _ _) (height u hu))).ensures _ _ hrun
    exact ⟨⟨fun _ => 0, ready, .nil, fun k e he => ready.le_total he⟩, fits, le_rfl, .refl _, rfl,
      ts, unfolds⟩

/-- When an admitted call goes on to bind what is complete, it has seen the uses below. -/
theorem Admitted.closes {c : Placing} {around : NodeId} {s : Standing}
    (h : Admitted entries total factors used p limit c.depth c.id c.start)
    (hcloses : c.Closes p depth around s) :
    (∃ f, Seen entries total s.2.memory s.1 f) ∧ Fits entries total p s.2.arena ∧
      (entries.length - s.2.memory.length) * (limit + 1) ≤ depth + 1 := by
  have hbudget := h.budget
  cases hcloses with
  | reference get refers =>
    obtain ⟨x, v, fresh, names, he, hun, hfit, hready⟩ := h.of_reference hs get refers
    have hout := outcome_ref hs fresh names he hun hready.nodup
    exact ⟨⟨_, hready.mono fun _ => Nat.zero_le _, hout.tallied, fun k e he => hready.le_total he⟩,
      hfit, hbudget⟩
  | node get inner placed made =>
    obtain ⟨⟨f, hseen⟩, hfit, hlength, hext, hlen, ts, hun⟩ :=
      (h.children hs get inner).seen hs hlimit placed
    obtain ⟨-, hext', hu⟩ := (gives_setChildren (hext.get get) hlen hun).ensures _ _ made
    have hmemory := congrArg Workspace.memory hu
    refine ⟨⟨f, ?_⟩, hfit.mono hext', ?_⟩
    · exact hmemory ▸ hseen
    · rw [hmemory]
      exact le_trans (Nat.mul_le_mul_right _ (Nat.sub_le_sub_left hlength _)) hbudget

/-- A round places what is complete, and then more uses have been seen. -/
theorem Seen.round {around : NodeId} {s s' : Standing} {f : String → Nat}
    (h : Seen entries total s.2.memory s.1 f) (hfit : Fits entries total p s.2.arena)
    (hbudget : (entries.length - s.2.memory.length) * (limit + 1) ≤ depth + 1)
    (hround : p.Round (p.placeWithin depth false) around s s') :
    (∃ f, Seen entries total s'.2.memory s'.1 f) ∧ Fits entries total p s'.2.arena ∧
      s.2.memory.length < s'.2.memory.length := by
  obtain ⟨hne, values, hrun⟩ := hround
  obtain ⟨vs, hadd, hnumber, hseen⟩ := (gives_placeValues hs hlimit
    (places_placeWithin hs hlimit depth false) around hfit h hbudget
    (nodup_complete h.tallied.ordered _) (h.of_mem_complete hs hfit)).ensures _ _ hrun
  refine ⟨⟨_, hseen⟩, hfit.mono hadd.grows.arena, ?_⟩
  have hpos := List.length_pos_iff.2 hne
  rw [← hnumber, List.length_map] at hpos
  exact (Nat.lt_add_of_pos_right hpos).trans_le hadd.length_le

theorem Seen.rounds {around : NodeId} {n : Nat} {s s' : Standing}
    (hrounds : p.Rounds (p.placeWithin depth false) around n s s')
    (h : ∃ f, Seen entries total s.2.memory s.1 f) (hfit : Fits entries total p s.2.arena)
    (hbudget : (entries.length - s.2.memory.length) * (limit + 1) ≤ depth + 1) :
    (∃ f, Seen entries total s'.2.memory s'.1 f) ∧ Fits entries total p s'.2.arena ∧
      s.2.memory.length + n ≤ s'.2.memory.length := by
  induction hrounds with
  | none s => exact ⟨h, hfit, le_rfl⟩
  | @more n _ s₁ s₂ _ round ih =>
    obtain ⟨⟨f, hseen⟩, hfit₁, hlength⟩ := ih h hfit hbudget
    have hbudget₁ : (entries.length - s₁.2.memory.length) * (limit + 1) ≤ depth + 1 :=
      le_trans (Nat.mul_le_mul_right _ (by omega)) hbudget
    obtain ⟨hseen₂, hfit₂, hlt⟩ := hseen.round hs hlimit hfit₁ hbudget₁ round
    exact ⟨hseen₂, hfit₂, by omega⟩

/-- The value of a temporary that is complete is placed by an admitted call, and the temporary has no
place before. -/
theorem Admitted.fetches (hvalues : ∀ e ∈ entries, Outside entries e.2) {c d : Placing} {t : Nat}
    (h : Admitted entries total factors used p limit c.depth c.id c.start)
    (hcall : c.Fetches p t d) :
    Admitted entries total factors used p limit d.depth d.id d.start ∧
      ∃ before, d.start.memory = t :: before ∧ t ∉ before := by
  obtain ⟨closes, rounds, complete, before, found⟩ := hcall
  rename_i depth n k around s s' x done u
  obtain ⟨hbegun, hfit₀, hbudget₀⟩ := h.closes hs hlimit closes
  obtain ⟨⟨f, hseen⟩, hfit, hlength⟩ := Seen.rounds hs hlimit rounds hbegun hfit₀ hbudget₀
  have hbudget : (entries.length - s'.2.memory.length) * (limit + 1) ≤ depth + 1 :=
    le_trans (Nat.mul_le_mul_right _ (by omega)) hbudget₀
  have hcomplete := hseen.of_mem_complete hs hfit
  have hnodup := nodup_complete (p := p) hseen.tallied.ordered s'.2.memory
  obtain ⟨ht, e, he, hfull⟩ := hcomplete t (List.mem_of_getElem? complete)
  obtain ⟨vs, hadd, hnumber, hseen'⟩ := (gives_placeValues hs hlimit
    (places_placeWithin hs hlimit depth false) around hfit hseen hbudget
    (hnodup.sublist (List.take_sublist k _))
    fun t ht => hcomplete t (List.mem_of_mem_take ht)).ensures _ _ before
  have hnew : t ∉ u.memory := by
    refine hadd.notMem hs hseen' he hfull ht ?_
    have hdrop : t ∈ (p.complete s'.1 s'.2.memory).drop k :=
      List.mem_of_getElem? (i := 0) (by simpa using complete)
    exact fun hmem => List.disjoint_take_drop hnodup le_rfl (hnumber ▸ hmem) hdrop
  have hfull' : total e.1.name ≤ f e.1.name + usesIn vs e.1.name := hfull.trans (Nat.le_add_right _ _)
  obtain ⟨y, hy, -, hun⟩ := hfit.temporary he
  cases found.symm.trans hy
  have hmem := List.mem_of_getElem? he
  refine ⟨.part (hs.placeable e hmem) (hvalues e hmem) (hun.mono hadd.grows.arena)
    (hfit.mono hadd.grows.arena) (hseen'.ready_cons he hnew hfull') ?_, _, rfl, hnew⟩
  have hready := (hseen'.ready_cons he hnew hfull').length_le
  have hlen : s'.2.memory.length ≤ u.memory.length :=
    (Nat.le_add_right _ _).trans hadd.length_le
  refine le_trans (Nat.add_le_add_right (hlimit e hmem) _) (le_of_succ_mul_le hready ?_)
  exact le_trans (Nat.mul_le_mul_right _ (Nat.sub_le_sub_left hlen _)) hbudget

theorem Admitted.visits {c d : Placing}
    (h : Admitted entries total factors used p limit c.depth c.id c.start) (hcall : c.Visits p d) :
    Admitted entries total factors used p limit d.depth d.id d.start := by
  obtain ⟨get, href, child, before⟩ := hcall
  exact (h.children hs get href).visits hs hlimit child before

theorem Admitted.enters (hvalues : ∀ e ∈ entries, Outside entries e.2) {top c : Placing}
    (h : Admitted entries total factors used p limit top.depth top.id top.start)
    (henters : top.Enters p c) :
    Admitted entries total factors used p limit c.depth c.id c.start := by
  induction henters with
  | here => exact h
  | child _ visits ih => exact ih.visits hs hlimit visits
  | value _ fetches ih => exact (ih.fetches hs hlimit hvalues fetches).1

/-- The rounds come to an end, and there are no more of them than temporaries without a place. -/
theorem Admitted.rounds_le {c : Placing} {around : NodeId} {s : Standing}
    (h : Admitted entries total factors used p limit c.depth c.id c.start)
    (hcloses : c.Closes p depth around s) : ∃ n values s',
      p.placeComplete (p.placeWithin depth false) around (p.temporaries.length + 1) s.1 s.2 =
        .ok (values, s'.1) s'.2 ∧
      p.Rounds (p.placeWithin depth false) around n s s' ∧ p.complete s'.1 s'.2.memory = [] ∧
      n ≤ (p.unplaced s.2.memory).length := by
  obtain ⟨⟨f, hseen⟩, hfit, hbudget⟩ := h.closes hs hlimit hcloses
  have hlength := hfit.temporaries.length_eq
  obtain ⟨⟨values, uses⟩, w', hrun, -⟩ := gives_placeComplete hs hlimit
    (places_placeWithin hs hlimit depth false) around hfit hseen hbudget
    (show _ < p.temporaries.length + 1 + s.2.memory.length by omega)
  obtain ⟨n, hrounds, hlast⟩ := Plan.rounds_of_placeComplete hrun
  obtain ⟨⟨_, hseen'⟩, -, hgrown⟩ := Seen.rounds hs hlimit hrounds ⟨f, hseen⟩ hfit hbudget
  have hle := hseen'.ready.length_le
  have hunplaced := p.le_length_unplaced s.2.memory
  dsimp only at hle hgrown
  exact ⟨n, values, (uses, w'), hrun, hrounds, hlast.resolve_right (by omega), by omega⟩

end

/-! ### What is counted -/

/-- What a call that returns has counted: the references in the tree `t` of its answer. -/
structure Counted (p : Plan) (c : Placing) (r : NodeId × Tally) (w' : Workspace (List Nat))
    (t : Tree) : Prop where
  unfolds : w'.arena.Unfolds r.1 t
  /-- Each temporary is listed once at most, and if it is referred to. -/
  ordered : r.2.Ordered
  uses : ∀ k n, (k, n) ∈ r.2 ↔
    0 < n ∧ ∃ s, p.temporaries[k]? = some s ∧ n = t.occurrences s.name
  le_total : ∀ (k : Nat) s, p.temporaries[k]? = some s →
    t.occurrences s.name ≤ Tally.count p.totals k
  /-- What is referred to is bound inside if it has all of its uses there, and only then; unless a
  bare reference is no place. -/
  bound : c.isBody = true ∨ ¬ c.IsReference p → ∀ (k : Nat) s, p.temporaries[k]? = some s →
    0 < t.occurrences s.name →
      (s.name ∈ t.letNames ↔ t.occurrences s.name = Tally.count p.totals k)
  /-- What had a place has it still, and nothing has two. -/
  memory : ∃ placed, w'.memory.Perm (placed ++ c.start.memory)
  nodup : w'.memory.Nodup

theorem Fits.entry {a : Arena} (h : Fits entries total p a) {k : Nat} {s : Temporary}
    (hk : p.temporaries[k]? = some s) : ∃ e, entries[k]? = some e ∧ s.name = e.1.name := by
  obtain ⟨e, he, hname, -⟩ := Arena.exists_of_getElem?_left h.temporaries hk
  exact ⟨e, he, hname⟩

theorem Outcome.mem_uses_iff {c : Draft} {w w' : Workspace (List Nat)} {r : NodeId × Tally}
    {part : Part} {a : Arena} (h : Outcome entries total factors used c w w' r part)
    (hfit : Fits entries total p a) (k n : Nat) : (k, n) ∈ r.2 ↔ 0 < n ∧ ∃ s,
      p.temporaries[k]? = some s ∧ n = part.draft.toTree.occurrences s.name := by
  rw [Tally.mem_iff h.tallied.ordered, and_comm]
  refine and_congr_right fun hn => ⟨fun hcount => ?_, ?_⟩
  · have hk : k < entries.length :=
      h.tallied.lt (k, n) ((Tally.mem_iff h.tallied.ordered).2 ⟨hcount, hn⟩)
    have he := List.getElem?_eq_getElem hk
    obtain ⟨s, hs, hname, -⟩ := hfit.temporary he
    exact ⟨s, hs, by rw [hname, ← hcount, h.tallied.count k _ he]; rfl⟩
  · rintro ⟨s, hs, rfl⟩
    obtain ⟨e, he, hname⟩ := hfit.entry hs
    rw [h.tallied.count k e he, hname]
    rfl

theorem Fits.isReference (hs : Stocked entries total factors used) {c : Placing} {x : Reduction}
    (h : Fits entries total p c.start.arena) (hx : Placeable entries total factors used (.ref x))
    (hun : c.start.arena.Unfolds c.id (ref x).toTree) : c.IsReference p := by
  obtain ⟨k, v, he⟩ : ∃ k : Nat, ∃ v, entries[k]? = some (x, v) := by
    cases hx with | ref _ _ mem => exact mem
  obtain ⟨n, hn, hshape, -⟩ := hun.get
  obtain rfl := Node.eq_var hshape
  exact ⟨_, k, hn, h.refersTo?_var hs he⟩

/-- An admitted call returns, and has counted what it should. -/
theorem Admitted.counted (hs : Stocked entries total factors used)
    (hlimit : ∀ e ∈ entries, e.2.toTree.height ≤ limit)
    (hvalues : ∀ e ∈ entries, Outside entries e.2) {c : Placing}
    (h : Admitted entries total factors used p limit c.depth c.id c.start) :
    ∃ r w' t, c.run p = .ok r w' ∧ Counted p c r w' t := by
  cases h with
  | @part d placeable outside unfolds fits ready height =>
    obtain ⟨r, w', hrun, part, hout, hsettled⟩ := places_placeWithin hs hlimit c.depth c.isBody
      placeable unfolds fits ready height
    refine ⟨r, w', part.draft.toTree, hrun, hout.unfolds, hout.tallied.ordered,
      hout.mem_uses_iff fits, fun k s hk => ?_, fun hplace k s hk hpos => ?_, ⟨_, hout.memory⟩,
      hout.nodup⟩
    · obtain ⟨e, he, hname⟩ := fits.entry hk
      have hcons := hout.conserved e.1.name
      have hle := ready.le_total he
      rw [hname, fits.totals k e he]
      exact (Nat.le_add_right _ _).trans (hcons.trans_le hle)
    · obtain ⟨e, he, hname⟩ := fits.entry hk
      have hcons := hout.conserved e.1.name
      have hle := ready.le_total he
      have hall : Settled entries total part := by
        refine hsettled.resolve_right ?_
        rintro ⟨hbody, x, hx⟩
        obtain rfl : d = ref x := by rw [← hout.placed.core, hx]; rfl
        exact hplace.elim (by simp [hbody]) fun hno => hno (fits.isReference hs placeable unfolds)
      rw [hname, hout.placed.mem_letNames_iff hs hvalues outside he, fits.totals k e he]
      refine ⟨fun hk => le_antisymm ?_ (hout.placed.full k hk e he), fun heq => ?_⟩
      · exact (Nat.le_add_right _ _).trans (hcons.trans_le hle)
      · exact hall k e he heq.ge
  | @inner t zero unfolds fits ready height =>
    obtain ⟨-, w', hrun, rfl, rfl⟩ := keeps_placeWithin t unfolds
      (fits.occurrences_eq_zero zero) (le_trans (Nat.le_add_right _ _) height)
    have hzero : ∀ (k : Nat) s, p.temporaries[k]? = some s → t.occurrences s.name = 0 := by
      intro k s hk
      obtain ⟨e, he, hname⟩ := fits.entry hk
      rw [hname]
      exact zero e (List.mem_of_getElem? he)
    refine ⟨_, _, t, hrun, unfolds, Tally.ordered_nil, fun k n => ?_, fun k s hk => ?_,
      fun _ k s hk hpos => ?_, ⟨[], .refl _⟩, ready.nodup⟩
    · refine ⟨by simp, ?_⟩
      rintro ⟨hpos, s, hk, rfl⟩
      have := hzero k s hk
      omega
    · exact (hzero k s hk).trans_le (Nat.zero_le _)
    · have := hzero k s hk
      omega

/-! ### Regions -/

/-- Placing the temporaries of a region with this body counts exactly. -/
structure Plan.PlacesExactly (p : Plan) (body : NodeId) (w : Workspace (List Nat)) : Prop where
  /-- Every call returns, and has counted what it should. -/
  calls : ∀ c, (p.whole body w).Enters p c → ∃ r w' t, c.run p = .ok r w' ∧ Counted p c r w' t
  /-- A temporary that is to be placed has no place yet. -/
  once : ∀ c t d, (p.whole body w).Enters p c → c.Fetches p t d →
    ∃ before, d.start.memory = t :: before ∧ t ∉ before
  /-- Where a call binds what is complete, the rounds come to an end; not counting the last, which
  finds nothing, there are no more of them than temporaries without a place. -/
  rounds : ∀ c depth around s, (p.whole body w).Enters p c → c.Closes p depth around s →
    ∃ n values s', p.placeComplete (p.placeWithin depth false) around (p.temporaries.length + 1)
        s.1 s.2 = .ok (values, s'.1) s'.2 ∧
      p.Rounds (p.placeWithin depth false) around n s s' ∧ p.complete s'.1 s'.2.memory = [] ∧
      n ≤ (p.unplaced s.2.memory).length
  /-- Nothing is left over, so placing is not called again for the region. -/
  done : ∃ r w', p.place true body w = .ok r w' ∧
    ∀ warnUnused, p.placeLeftOver warnUnused p.temporaries.zipIdx w' = .ok [] w'
  /-- These are all calls: whatever does the same as placing right inside each of them does the same
  for the region. -/
  all : ∀ place : Nat → Bool → NodeId → PlaceM (NodeId × Tally),
    (∀ c, (p.whole body w).Enters p c → place c.depth c.isBody c.id c.start = c.step p place) →
      place (p.whole body w).depth true body w = p.place true body w

theorem Closed.placesExactly {bindings : List (Reduction × Draft)} {d : Draft}
    (h : Closed bindings factors used d) {body : NodeId} {w : Workspace (List Nat)}
    (hbody : w.arena.Unfolds body d.core.toTree)
    (hfit : Fits (cores bindings) (usesOf (cores bindings) d.core) p w.arena)
    (hmemory : w.memory = []) : p.PlacesExactly body w := by
  have hs := h.stocked
  obtain ⟨houtside, hvalues⟩ := h.outside
  have hlimit := hfit.height_le
  have hready : Ready (cores bindings) (usesOf (cores bindings) d.core) w.memory (d.core.count ·) :=
    hmemory ▸ ready_start _ _
  have htop : Admitted (cores bindings) (usesOf (cores bindings) d.core) factors used p w.arena.size
      (p.whole body w).depth body w := by
    refine .part h.placeable houtside hbody hfit hready ?_
    rw [hmemory, List.length_nil, Nat.sub_zero]
    exact hfit.height_le_depth hbody
  have hall : ∀ c, (p.whole body w).Enters p c → Admitted (cores bindings)
      (usesOf (cores bindings) d.core) factors used p w.arena.size c.depth c.id c.start :=
    fun c hc => Admitted.enters hs hlimit hvalues htop hc
  obtain ⟨r, w', hplace, -, -, -, -, hperm⟩ := gives_place hs h.placeable hbody hfit hmemory
  rw [← hfit.temporaries.length_eq] at hperm
  refine ⟨fun c hc => (hall c hc).counted hs hlimit hvalues,
    fun c t d hc hd => ((hall c hc).fetches hs hlimit hvalues hd).2,
    fun c depth around s hc hcloses => (hall c hc).rounds_le hs hlimit hcloses,
    ⟨r, w', hplace, fun warnUnused => ?_⟩, fun place => Placing.run_unique⟩
  obtain ⟨_, _, hrun, rfl, rfl⟩ := gives_placeLeftOver_of_perm warnUnused hperm
  exact hrun

/-- In every region of a run on a well-formed tree, placing counts exactly. -/
theorem placesExactly_extract {a : Arena} {root : NodeId} {t : Tree} (options : Options)
    (h : a.WellFormed root t) : ∀ path b outer, IsRegion a options root path b outer →
      ∃ body passed v p, b.run = .ok (body, passed) v ∧
        Plan.ofRegion v.memory.region.pending body v.arena = .ok p ∧
        p.temporaries = v.memory.region.pending ∧
        p.PlacesExactly body ⟨v.arena, v.events, []⟩ := by
  intro path b outer hb
  have hroot : a.FormedIf True root t := ⟨h.unfolds, fun _ => h.resolves⟩
  obtain ⟨u, -, hbegun, hempty⟩ := hb.begun hroot
  obtain ⟨⟨body, passed⟩, v, hrun⟩ := hbegun.exists_run trivial
  obtain ⟨known, hstate⟩ := hbegun.state
  obtain ⟨f, floats, after, hf⟩ := hbegun.replaced
    (.empty hstate.factors_eq hempty hstate.used_reserved) hrun
  obtain ⟨p, hplan, htemporaries, hfit⟩ := ofRegion_eq hf.closed.stocked.nodup hf.pending hf.body
  exact ⟨body, passed, v, p, hrun, hplan, htemporaries,
    hf.closed.placesExactly hf.body hfit rfl⟩

/-- The plan for a region, once its visit has come to an end. -/
def planOf? : EStateM.Result Fault (Workspace Memory) (NodeId × List Scope) → Option Plan
  | .ok (body, _) v => (Plan.ofRegion v.memory.region.pending body v.arena).toOption
  | .error _ _ => none

/-- The plan for the region that the whole tree is. -/
def wholePlan? (a : Arena) (options : Options) (root : NodeId) : Option Plan :=
  match (PassM.walk (fun a => Visitor.gather (Memory.survey a)) root : PassM Memory Unit)
    ⟨a, [], .ofOptions options⟩ with
  | .ok _ w => planOf? (Call.run ⟨Rule.maxDepth w.arena, root, [], w⟩)
  | .error _ _ => none

theorem wholePlan?_eq {a : Arena} {options : Options} {root body : NodeId} {b : Call}
    {passed : List Scope} {v : Workspace Memory} {p : Plan} (hreached : Reached a options root [] b)
    (hrun : b.run = .ok (body, passed) v)
    (hplan : Plan.ofRegion v.memory.region.pending body v.arena = .ok p) :
    wholePlan? a options root = some p := by
  obtain ⟨w, hsurvey, henters⟩ := hreached
  cases henters
  rw [wholePlan?, hsurvey]
  dsimp only
  rw [hrun, planOf?, hplan]
  rfl

/-- The whole tree is a region with one temporary, which is used twice. -/
theorem placesExactly_extract_repeated : ∃ b body passed v p,
    IsRegion repeated .default ⟨2⟩ [] b .empty ∧ b.run = .ok (body, passed) v ∧
      p.temporaries.map Temporary.name = ["isum_0"] ∧ p.totals = [(0, 2)] ∧
      Plan.PlacesExactly p body ⟨v.arena, v.events, []⟩ := by
  obtain ⟨out, w', hok, -⟩ :=
    gives_extract (w := ⟨repeated, [], .ofOptions .default⟩) wellFormed_repeated rfl
  obtain ⟨b, -, hreached, -⟩ := exists_region_of_extract hok
  have hregion : IsRegion repeated .default ⟨2⟩ [] b .empty := .whole hreached
  obtain ⟨body, passed, v, p, hrun, hplan, -, hexact⟩ :=
    placesExactly_extract .default wellFormed_repeated [] b .empty hregion
  have hnames : ((wholePlan? repeated .default ⟨2⟩).elim [] fun p =>
      p.temporaries.map Temporary.name) = ["isum_0"] := by decide +kernel
  have htotals : ((wholePlan? repeated .default ⟨2⟩).elim [] Plan.totals) = [(0, 2)] := by
    decide +kernel
  rw [wholePlan?_eq hreached hrun hplan] at hnames htotals
  exact ⟨b, body, passed, v, p, hregion, hrun, hnames, htotals, hexact⟩

end Extraction

end TensorRecipe
