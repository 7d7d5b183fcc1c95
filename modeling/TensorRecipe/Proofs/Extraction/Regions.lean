import TensorRecipe.Extraction.Plan
import TensorRecipe.Proofs.Extraction.Placement

/-!
# Placing the temporaries of a region

Every entry is referred to, so all of them have places once the region has been seen, and none is
left over.  What `bindTemporaries` makes of a region is a closed draft whose lets bind all entries
(`gives_bindTemporaries`).
-/

namespace TensorRecipe

namespace Extraction

open Draft PassM

/-- How often a name is used in a region: in its body and in the values of its entries. -/
def usesOf (entries : List (Reduction × Draft)) (c : Draft) (x : String) : Nat :=
  c.count x + ∑ j ∈ Finset.range entries.length, readsIn entries x j

variable {entries : List (Reduction × Draft)} {factors : Index → List Index} {used : List String}
  {c : Draft}

theorem sum_readsIn (entries : List (Reduction × Draft)) (x : String) :
    ∑ j ∈ Finset.range entries.length, readsIn entries x j =
      (entries.map fun e => e.2.count x).sum := by
  induction entries with
  | nil => rfl
  | cons e entries ih =>
    rw [List.length_cons, Finset.sum_range_succ', List.map_cons, List.sum_cons, ← ih, Nat.add_comm]
    rfl

/-! ### Plans -/

/-- The plan for a region knows its entries. -/
theorem ofRegion_eq {a : Arena} {temporaries : List Temporary} {body : NodeId}
    (hnodup : (entries.map (·.1.name)).Nodup)
    (htemps : List.Forall₂ (fun (t : Temporary) (e : Reduction × Draft) =>
      t.name = e.1.name ∧ a.Unfolds t.value e.2.toTree) temporaries entries)
    (hbody : a.Unfolds body c.toTree) :
    ∃ p, Plan.ofRegion temporaries body a = .ok p ∧ p.temporaries = temporaries ∧
      Fits entries (usesOf entries c) p a := by
  have hnames : temporaries.map Temporary.name = entries.map (·.1.name) := by
    rw [← List.forall₂_eq_eq_eq, List.forall₂_map_left_iff, List.forall₂_map_right_iff]
    exact htemps.imp fun _ _ h => h.1
  have hroots : List.Forall₂ a.Unfolds (body :: temporaries.map Temporary.value)
      (c.toTree :: entries.map (·.2.toTree)) := by
    refine .cons hbody ?_
    rw [List.forall₂_map_left_iff, List.forall₂_map_right_iff]
    exact htemps.imp fun _ _ h => h.2
  obtain ⟨tallies, htallies, hsum⟩ := Plan.tallies_foldl <| hroots.imp fun _ _ hid =>
    Plan.countWithin_eq (hnames ▸ hnodup) _ hid (hid.height_le.trans (Nat.le_succ _))
  refine ⟨⟨temporaries, tallies.foldl Tally.merge []⟩, ?_, rfl, htemps, fun k e he => ?_⟩
  · simp only [Plan.ofRegion, htallies, bind, Except.bind, pure, Except.pure]
  · have hk : (temporaries.map Temporary.name)[k]? = some e.1.name := by
      rw [hnames, List.getElem?_map, he]
      rfl
    rw [hsum.count hk, Tree.occurrencesAll_eq, usesOf, sum_readsIn, List.map_cons, List.sum_cons,
      List.map_map]
    rfl

/-! ### Whole regions -/

theorem gives_placeLeftOver {p : Plan} (warnUnused : Bool) :
    ∀ {left : List (Temporary × Nat)} {w : Workspace (List Nat)}, (∀ t ∈ left, t.2 ∈ w.memory) →
      (p.placeLeftOver warnUnused left).Gives w fun bindings w' => bindings = [] ∧ w' = w
  | [], _, _ => gives_pure ⟨rfl, rfl⟩
  | (temporary, t) :: left, w, h => by
    refine gives_getMemory.bind ?_
    rintro _ w₀ ⟨rfl, hw⟩
    obtain rfl : w = w₀ := hw.symm
    rw [if_pos (h (temporary, t) (by simp))]
    exact gives_placeLeftOver warnUnused fun s hs => h s (List.mem_cons_of_mem _ hs)

/-- Once the region has been seen, all entries have places. -/
theorem mem_here_of_settled (hs : Stocked entries (usesOf entries c) factors used) {part : Part}
    (hplaced : Placed entries (usesOf entries c) factors used part.here c part.draft)
    (hnodup : part.here.Nodup) (hsettled : Settled entries (usesOf entries c) part) :
    ∀ k < entries.length, k ∈ part.here := by
  have hsub : Finset.range entries.length ⊆ part.here.toFinset := by
    refine subset_of_total_le hs (c.count ·) (part.draft.count ·) subset_rfl (fun _ _ _ _ => le_rfl)
      (fun x s _ hsub => ?_) fun k e he hle => List.mem_toFinset.2 (hsettled k e he hle)
    rw [hplaced.count_eq, ← List.sum_toFinset _ hnodup]
    exact Nat.add_le_add_left (Finset.sum_le_sum_of_subset hsub) _
  exact fun k hk => List.mem_toFinset.1 (hsub (Finset.mem_range.2 hk))

/-- The draft of a region, with a let for every entry. -/
structure Bound (entries : List (Reduction × Draft)) (factors : Index → List Index)
    (used : List String) (c d : Draft) : Prop where
  core : d.core = c
  isScoped : d.Scoped factors used
  bindings : (d.bindings.map fun b => (b.1, b.2.core)).Perm entries
  closed : ∀ x, ¬ Free x d
  low : Low (entries.map (·.1.name)) d

theorem perm_range {n : Nat} {here : List Nat} (hnodup : here.Nodup) (hlt : ∀ k ∈ here, k < n)
    (hall : ∀ k < n, k ∈ here) : here.Perm (List.range n) :=
  (List.perm_ext_iff_of_nodup hnodup List.nodup_range).2 fun k =>
    ⟨fun hk => List.mem_range.2 (hlt k hk), fun hk => hall k (List.mem_range.1 hk)⟩

theorem bound_of_placed {total : String → Nat} {here : List Nat} {d : Draft}
    (h : Placed entries total factors used here c d) (hnodup : here.Nodup)
    (hlt : ∀ k ∈ here, k < entries.length) (hall : ∀ k < entries.length, k ∈ here)
    (hlow : Low (entries.map (·.1.name)) d) : Bound entries factors used c d := by
  refine ⟨h.core, h.isScoped, h.bindings.trans ?_, fun x hx => ?_, hlow⟩
  · exact ((perm_range hnodup hlt hall).filterMap _).trans (.of_eq (filterMap_getElem?_range entries))
  · obtain ⟨k, hk, e, he⟩ := h.free x hx
    exact hk (hall k (List.getElem?_eq_some_iff.1 he).1)

theorem Fits.height_le {total : String → Nat} {p : Plan} {a : Arena} (h : Fits entries total p a) :
    ∀ e ∈ entries, e.2.toTree.height ≤ a.size := by
  intro e he
  obtain ⟨t, -, -, ht⟩ := Arena.exists_of_mem_right h.temporaries he
  exact ht.height_le

theorem ready_start (entries : List (Reduction × Draft)) (c : Draft) :
    Ready entries (usesOf entries c) [] (c.count ·) :=
  ⟨.nil, by simp, fun k e _ => by simp [usesOf, rest]⟩

theorem Fits.height_le_depth {total : String → Nat} {p : Plan} {a : Arena}
    (h : Fits entries total p a) {body : NodeId} {t : Tree} (hbody : a.Unfolds body t) :
    t.height + entries.length * (a.size + 1) ≤ (p.temporaries.length + 1) * (a.size + 1) := by
  have hheight := hbody.height_le
  rw [h.temporaries.length_eq, Nat.succ_mul]
  omega

/-- From below, all entries are placed in the region. -/
theorem gives_place (hs : Stocked entries (usesOf entries c) factors used)
    (hc : Placeable entries (usesOf entries c) factors used c) {p : Plan} {body : NodeId}
    {w : Workspace (List Nat)} (hbody : w.arena.Unfolds body c.toTree)
    (hfit : Fits entries (usesOf entries c) p w.arena) (hmemory : w.memory = []) :
    (p.place true body).Gives w fun r w' => ∃ d, Bound entries factors used c d ∧
      w'.arena.Unfolds r.1 d.toTree ∧ Grows w w' ∧ w'.memory.Perm (List.range entries.length) := by
  have hready : Ready entries (usesOf entries c) w.memory (c.count ·) := hmemory ▸ ready_start entries c
  refine gives_ask_bind rfl
    ((places_placeWithin hs hfit.height_le _ true hc hbody hfit hready ?_).mono ?_)
  · rw [hmemory, List.length_nil, Nat.sub_zero]
    exact hfit.height_le_depth hbody
  · rintro r w' ⟨part, hout, hsettled⟩
    have hnodup : part.here.Nodup := (hout.memory.nodup_iff.1 hout.nodup).of_append_left
    have hall := mem_here_of_settled hs hout.placed hnodup (hsettled.resolve_right (by simp))
    have hmem := hout.memory
    rw [hmemory, List.append_nil] at hmem
    exact ⟨part.draft, bound_of_placed hout.placed hnodup hout.lt hall hout.low, hout.unfolds,
      hout.grows, hmem.trans (perm_range hnodup hout.lt hall)⟩

theorem gives_placeLeftOver_of_perm {p : Plan} {w : Workspace (List Nat)} (warnUnused : Bool)
    (hmemory : w.memory.Perm (List.range p.temporaries.length)) :
    (p.placeLeftOver warnUnused p.temporaries.zipIdx).Gives w
      fun bindings w' => bindings = [] ∧ w' = w := by
  refine gives_placeLeftOver warnUnused fun t ht => hmemory.symm.subset ?_
  simpa using List.snd_lt_of_mem_zipIdx ht

theorem gives_placeAll (hs : Stocked entries (usesOf entries c) factors used)
    (hc : Placeable entries (usesOf entries c) factors used c) {p : Plan} {body : NodeId}
    {w : Workspace (List Nat)} (hbody : w.arena.Unfolds body c.toTree)
    (hfit : Fits entries (usesOf entries c) p w.arena) (hmemory : w.memory = []) (warnUnused : Bool) :
    (p.placeAll warnUnused body).Gives w fun id w' => ∃ d, Bound entries factors used c d ∧
      w'.arena.Unfolds id d.toTree ∧ Grows w w' := by
  refine (gives_place hs hc hbody hfit hmemory).bind ?_
  rintro ⟨id, uses⟩ w₁ ⟨d, hd, hun, hgrows, hperm⟩
  rw [← hfit.temporaries.length_eq] at hperm
  refine (gives_placeLeftOver_of_perm warnUnused hperm).bind ?_
  rintro _ w₂ ⟨rfl, rfl⟩
  exact gives_pure ⟨d, hd, hun, hgrows⟩

theorem Placeable.refl {total : String → Nat} (h : Placeable [] total factors used c) :
    Placed [] total factors used [] c c := by
  induction h with
  | @node shape cs inner unbarred names _ _ ih =>
    have hparts : List.Forall₂ (fun d (q : Part) => Placed [] total factors used q.here d q.draft)
        cs (cs.map fun d => ⟨[], d⟩) := by
      rw [List.forall₂_map_right_iff, List.forall₂_same]
      exact ih
    have hnode := Placed.node inner unbarred names hparts (fun k q hk x hx => ?_) (by simp)
    · have hhere : (cs.map fun d => Part.mk [] d).flatMap Part.here = [] := by simp
      have hdrafts : (cs.map fun d => Part.mk [] d).map Part.draft = cs := by
        rw [List.map_map]
        exact List.map_id cs
      rwa [hhere, hdrafts] at hnode
    · obtain ⟨d, hd, rfl⟩ := List.mem_map.1 (List.mem_of_getElem? hk)
      obtain ⟨j, -, e, he⟩ := (ih d hd).free x hx
      simp at he
  | @recipe g transpose cs isScoped _ =>
    refine .refl isScoped rfl rfl fun x hx => ?_
    obtain ⟨d, hd, hx⟩ := free_node_iff.1 hx
    cases isScoped with
    | node _ _ _ _ closed => exact closed g transpose rfl d hd x hx
  | ref _ _ mem =>
    obtain ⟨k, d, he⟩ := mem
    simp at he

/-- Without lets there is none that could stand further down. -/
theorem Placeable.low {total : String → Nat} (h : Placeable entries total factors used c)
    {order : List String} : Low order c := by
  induction h with
  | node _ _ _ _ _ ih => exact .node fun _ => ih
  | recipe _ _ => exact .node fun h => absurd rfl (h _ _)
  | ref _ _ _ => exact .ref

/-- The temporaries of a region are bound in its body, each where all of its uses are. -/
theorem gives_bindTemporaries (hs : Stocked entries (usesOf entries c) factors used)
    (hc : Placeable entries (usesOf entries c) factors used c) {temporaries : List Temporary}
    {body : NodeId} {w : Workspace Memory}
    (htemps : List.Forall₂ (fun (t : Temporary) (e : Reduction × Draft) =>
      t.name = e.1.name ∧ w.arena.Unfolds t.value e.2.toTree) temporaries entries)
    (hbody : w.arena.Unfolds body c.toTree) :
    (bindTemporaries temporaries body).Gives w fun id w' => ∃ d,
      Bound entries factors used c d ∧ w'.arena.Unfolds id d.toTree ∧ Grows w w' ∧
        w'.memory = w.memory := by
  unfold bindTemporaries
  split
  · next hnil =>
    obtain rfl : temporaries = [] := List.isEmpty_iff.1 hnil
    cases htemps
    exact gives_pure ⟨c, bound_of_placed hc.refl .nil (by simp) (by simp) hc.low, hbody, .refl w,
      rfl⟩
  · obtain ⟨p, hp, -, hfit⟩ := ofRegion_eq hs.nodup htemps hbody
    refine gives_getMemory.bind ?_
    rintro m w₀ ⟨rfl, hw⟩
    obtain rfl : w = w₀ := hw.symm
    refine gives_ask_bind hp ((gives_within (gives_placeAll hs hc hbody hfit rfl _)).bind ?_)
    rintro ⟨id, placed⟩ w' ⟨v, ⟨d, hd, hun, hgrows⟩, rfl⟩
    exact gives_pure ⟨d, hd, hun, ⟨hgrows.arena, hgrows.extracted⟩, rfl⟩

end Extraction

end TensorRecipe
