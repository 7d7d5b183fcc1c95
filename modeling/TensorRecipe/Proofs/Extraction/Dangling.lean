import TensorRecipe.Proofs.Extraction.Entered
import TensorRecipe.Proofs.Extraction.Hygiene
import TensorRecipe.Proofs.Extraction.Placements

/-!
# No temporary dangles

Every temporary of a region is referred to in the body of the region or in a value that was completed
later.  So placing from below finds a place for each, and what is done for those left over is never
done (`NoneDangle`).
-/

namespace TensorRecipe

namespace Extraction

open Draft PassM

/-- The temporaries of a region are all referred to, and all are placed from below. -/
structure NoneDangle (temporaries : List Temporary) (body : NodeId) (w : Workspace Memory) :
    Prop where
  nodup : (temporaries.map Temporary.name).Nodup
  /-- Each is referred to in the body or in the value of a later one, and in no value before. -/
  referenced : ∃ t values, w.arena.Unfolds body t ∧
    List.Forall₂ (fun s v => w.arena.Unfolds s.value v) temporaries values ∧
    ∀ (k : Nat) s, temporaries[k]? = some s →
      (0 < t.occurrences s.name ∨
        ∃ (j : Nat) (v : Tree), k < j ∧ values[j]? = some v ∧ 0 < v.occurrences s.name) ∧
      ∀ (j : Nat) v, j ≤ k → values[j]? = some v → v.occurrences s.name = 0
  /-- From below each is placed, so nothing is left over and no let is put around the region. -/
  placed : ∃ p r v, Plan.ofRegion temporaries body w.arena = .ok p ∧ p.temporaries = temporaries ∧
    p.place true body ⟨w.arena, w.events, []⟩ = .ok r v ∧
    v.memory.Perm (List.range temporaries.length) ∧
    ∀ warnUnused, p.placeLeftOver warnUnused temporaries.zipIdx v = .ok [] v ∧
      p.placeAll warnUnused body ⟨w.arena, w.events, []⟩ = .ok r.1 v
  /-- Each is logged as placed once, and bound once; nothing else is logged. -/
  bound : ∃ new w' events u, bindTemporaries temporaries body w = .ok new w' ∧
    w'.events = events ++ w.events ∧ LogsPlacing (temporaries.map Temporary.name) events ∧
    w'.arena.Unfolds new u ∧ ∀ s ∈ temporaries, u.letNames.count s.name = 1

variable {entries : List (Reduction × Draft)} {factors : Index → List Index} {used : List String}
  {c : Draft}

/-- An entry is read in the body of the region or in a later value. -/
theorem Stocked.pos_or_exists (hs : Stocked entries (usesOf entries c) factors used) {k : Nat}
    {e : Reduction × Draft} (he : entries[k]? = some e) :
    0 < c.count e.1.name ∨ ∃ j, k < j ∧ 0 < readsIn entries e.1.name j := by
  have hpos := hs.needed e (List.mem_of_getElem? he)
  rw [usesOf] at hpos
  rcases Nat.eq_zero_or_pos (c.count e.1.name) with h0 | hbody
  · obtain ⟨j, -, hj⟩ := Finset.exists_ne_zero_of_sum_ne_zero (by omega :
      ∑ j ∈ Finset.range entries.length, readsIn entries e.1.name j ≠ 0)
    exact .inr ⟨j, hs.lt_of_readsIn he (by omega), by omega⟩
  · exact .inl hbody

theorem readsIn_pos {x : String} {j : Nat} (h : 0 < readsIn entries x j) :
    ∃ e, entries[j]? = some e ∧ 0 < e.2.count x := by
  cases hj : entries[j]? with
  | none => simp [readsIn, hj] at h
  | some e => exact ⟨e, rfl, by simpa [readsIn, hj] using h⟩

section

variable {temporaries : List Temporary} {body : NodeId} {w : Workspace Memory}

theorem logsPlacing_of_logs {p : Plan} {a : Arena} {events : List Event} {v : Workspace (List Nat)}
    (h : p.Logs ⟨a, events, []⟩ v) (hperm : v.memory.Perm (List.range p.temporaries.length)) :
    ∃ more, v.events = more ++ events ∧ LogsPlacing (p.temporaries.map Temporary.name) more := by
  obtain ⟨here, more, hmemory, hevents, hlogs⟩ := h
  rw [List.append_nil] at hmemory
  refine ⟨more, hevents, hlogs.perm ?_⟩
  have hnames := (hmemory.symm.trans hperm).filterMap
    fun t => (p.temporaries[t]?).map Temporary.name
  refine hnames.trans (.of_eq ?_)
  have hrange := filterMap_getElem?_range (p.temporaries.map Temporary.name)
  rw [List.length_map] at hrange
  simpa [List.getElem?_map] using hrange

theorem bindTemporaries_eq (hne : temporaries ≠ []) {p : Plan} {new : NodeId}
    {v : Workspace (List Nat)} (hplan : Plan.ofRegion temporaries body w.arena = .ok p)
    (hplace : ∀ warnUnused, p.placeAll warnUnused body ⟨w.arena, w.events, []⟩ = .ok new v) :
    bindTemporaries temporaries body w = .ok new ⟨v.arena, v.events, w.memory⟩ := by
  obtain ⟨arena, events, memory⟩ := w
  unfold bindTemporaries
  rw [if_neg (by simpa using hne)]
  simp only [getMemory, ask, within, bind, EStateM.bind, hplan, hplace, pure, EStateM.pure]

end

section

variable {scopes : List Scope} {w w₁ w₂ : Workspace Memory} {t : Tree} {new : NodeId} {f : Draft}
  {floats after : List (Reduction × Draft)}

/-- What a temporary is referred to from, at the end of a region. -/
theorem Replaced.referenced
    (h : Replaced factors used scopes [] [t] w [new] w₁ [f] floats after) {k : Nat} {s : Temporary}
    (hk : w₁.memory.region.pending[k]? = some s) :
    (0 < (bindIn floats f).core.toTree.occurrences s.name ∨ ∃ (j : Nat) (v : Tree), k < j ∧
        ((cores after).map (·.2.toTree))[j]? = some v ∧ 0 < v.occurrences s.name) ∧
      ∀ (j : Nat) v, j ≤ k → ((cores after).map (·.2.toTree))[j]? = some v →
        v.occurrences s.name = 0 := by
  have hs := h.closed.stocked
  obtain ⟨e, he, hname, -⟩ := Arena.exists_of_getElem?_left h.pending hk
  rw [hname]
  refine ⟨(hs.pos_or_exists he).imp_right ?_, fun j v hjk hv => ?_⟩
  · rintro ⟨j, hkj, hpos⟩
    obtain ⟨g, hg, hcount⟩ := readsIn_pos hpos
    exact ⟨j, _, hkj, by rw [List.getElem?_map, hg]; rfl, hcount⟩
  · obtain ⟨g, hg, rfl⟩ : ∃ g, (cores after)[j]? = some g ∧ g.2.toTree = v := by
      rw [List.getElem?_map] at hv
      exact Option.map_eq_some_iff.1 hv
    by_contra hpos
    have hreads : 0 < readsIn (cores after) e.1.name j := by
      simp only [readsIn, hg, Option.elim_some]
      exact Nat.pos_of_ne_zero hpos
    have := hs.lt_of_readsIn he hreads
    omega

/-- What is pending at the end of a region is bound there once. -/
theorem Replaced.count_letNames
    (h : Replaced factors used scopes [] [t] w [new] w₁ [f] floats after) {d : Draft}
    (hd : Finished factors used t (held Draft.bound Prod.fst [f] floats) d) {s : Temporary}
    (hs : s ∈ w₁.memory.region.pending) : d.toTree.letNames.count s.name = 1 := by
  obtain ⟨e, he, hname, -⟩ := Arena.exists_of_mem_left h.pending hs
  have hmem : e.1 ∈ d.bound := by
    obtain ⟨b, hb, rfl⟩ := List.mem_map.1 he
    have hbound := mem_bound_of_mem_bindings _ b (h.closed.perm.symm.subset hb)
    exact hd.bound.symm.subset ((bound_bindIn f floats).subset hbound)
  rw [hname, hd.isScoped.count_letNames (hd.isScoped.fresh_of_mem_bound _ hmem)]
  exact List.count_eq_one_of_mem ((hd.bound.map _).nodup_iff.2 h.advances.nodup)
    (List.mem_map_of_mem hmem)

/-- At the end of a region no temporary dangles. -/
theorem Replaced.noneDangle (h : Replaced factors used scopes [] [t] w [new] w₁ [f] floats after)
    (harena : w₂.arena = w₁.arena) (hevents : w₂.events = w₁.events) :
    NoneDangle w₁.memory.region.pending new w₂ := by
  have hclosed := h.closed
  have hs := hclosed.stocked
  have htemps := h.pending
  have hbody := h.body
  rw [← harena] at htemps hbody
  have hnames : w₁.memory.region.pending.map Temporary.name = (cores after).map (·.1.name) := by
    rw [← List.forall₂_eq_eq_eq, List.forall₂_map_left_iff, List.forall₂_map_right_iff]
    exact htemps.imp fun _ _ h => h.1
  obtain ⟨p, hplan, htemporaries, hfit⟩ := ofRegion_eq hs.nodup htemps hbody
  obtain ⟨⟨id, uses⟩, v, hplace, -, -, -, -, hperm⟩ :=
    gives_place (w := ⟨w₂.arena, w₂.events, []⟩) hs hclosed.placeable hbody hfit rfl
  rw [← hfit.temporaries.length_eq] at hperm
  have hleft : ∀ warnUnused, p.placeLeftOver warnUnused p.temporaries.zipIdx v = .ok [] v := by
    intro warnUnused
    obtain ⟨_, _, hrun, rfl, rfl⟩ := gives_placeLeftOver_of_perm warnUnused hperm
    exact hrun
  have hall : ∀ warnUnused, p.placeAll warnUnused new ⟨w₂.arena, w₂.events, []⟩ = .ok id v := by
    intro warnUnused
    unfold Plan.placeAll
    exact (bind_of_ok hplace).trans ((bind_of_ok (hleft warnUnused)).trans rfl)
  refine ⟨hnames ▸ hs.nodup, ⟨_, (cores after).map (·.2.toTree), hbody, ?_, fun k s hk =>
    h.referenced hk⟩, ?_, ?_⟩
  · rw [List.forall₂_map_right_iff]
    exact htemps.imp fun _ _ h => h.2
  · rw [← htemporaries]
    exact ⟨p, _, v, htemporaries ▸ hplan, rfl, hplace, hperm, fun warnUnused =>
      ⟨hleft warnUnused, hall warnUnused⟩⟩
  · obtain ⟨out, w', hrun, d, hd, -, hun, -, -⟩ := gives_finish h harena hevents
    by_cases hnil : w₁.memory.region.pending = []
    · rw [hnil] at hrun ⊢
      cases hrun
      exact ⟨_, _, [], _, rfl, rfl, .nil, hun, by simp⟩
    · have hsame := bindTemporaries_eq hnil hplan hall
      cases hrun.symm.trans hsame
      obtain ⟨more, hmore, hlogs⟩ := logsPlacing_of_logs (p.ensures_place_logs true new _ _ hplace) hperm
      rw [htemporaries] at hlogs
      exact ⟨_, _, more, _, hrun, hmore, hlogs, hun, fun s hs => h.count_letNames hd hs⟩

end

/-! ### Whole runs -/

/-- The names of the temporaries that wait for their place. -/
def pendingNames (w : Workspace Memory) : List String :=
  w.memory.region.pending.map Temporary.name

/-- The name waits for its place at the end of the body of a recipe that is visited. -/
def PendingBelow (c : Call) (x : String) : Prop :=
  ∃ p d q b r v, Enters c p d ∧ d.start.arena.get d.id = .ok (.recipe q) ∧ d.Makes 0 b ∧
    b.run = .ok r v ∧ x ∈ pendingNames v

/-- Every name that is minted either waits for its place then or has been placed, once. -/
structure Settles (c : Call) (w w' : Workspace Memory) : Prop where
  balance : ∀ x, (minted w'.events).count x + (placements w.events).count x +
      (pendingNames w).count x =
    (minted w.events).count x + (placements w'.events).count x + (pendingNames w').count x
  warned : ∀ x, .unreferenced x ∈ w'.events → .unreferenced x ∈ w.events
  kept : pendingNames w ⊆ pendingNames w'
  minted : ∀ x ∈ minted w'.events,
    x ∈ minted w.events ∨ x ∈ pendingNames w' ∨ PendingBelow c x

section

variable {sure : Prop} {a b c : Call} {k : Nat} {t : Tree} {w w' v u : Workspace Memory}

theorem PendingBelow.makes (call : a.Makes k b) {x : String} (h : PendingBelow b x) :
    PendingBelow a x := by
  obtain ⟨p, d, q, e, r, v, henters, hd⟩ := h
  exact ⟨k :: p, d, q, e, r, v, .down call henters, hd⟩

theorem Settles.refl (c : Call) (w : Workspace Memory) : Settles c w w :=
  ⟨fun _ => rfl, fun _ h => h, fun _ h => h, fun _ h => .inl h⟩

theorem Settles.trans (h : Settles c w v) (h' : Settles c v u) : Settles c w u := by
  refine ⟨fun x => ?_, fun x hx => h.warned x (h'.warned x hx), fun _ hx => h'.kept (h.kept hx),
    fun x hx => ?_⟩
  · have := h.balance x
    have := h'.balance x
    omega
  · rcases h'.minted x hx with hx | hx
    · exact (h.minted x hx).imp_right fun hx => hx.imp_left fun hx => h'.kept hx
    · exact .inr hx

theorem Settles.of_quiet (h : Quiet w w') : Settles c w w' := by
  have hpending : pendingNames w' = pendingNames w := by
    unfold pendingNames
    rw [h.memory]
  refine ⟨fun x => ?_, ?_, ?_, ?_⟩
  · rw [h.events, hpending]
  · rw [h.events]
    exact fun _ h => h
  · rw [hpending]
    exact fun _ h => h
  · rw [h.events]
    exact fun _ h => .inl h

theorem Settles.steady (c : Call) : Steady (Settles c) := ⟨refl c, trans, of_quiet⟩

theorem Settles.makes (call : a.Makes k b) (h : Settles b w w') : Settles a w w' :=
  ⟨h.balance, h.warned, h.kept, fun x hx =>
    (h.minted x hx).imp_right fun hx => hx.imp_right fun hx => hx.makes call⟩

theorem Settles.of_mints {name : String} {key : NodeId × Nat} {value : NodeId}
    (h : Mints w w' name key value) : Settles c w w' := by
  have hpending : pendingNames w' = pendingNames w ++ [name] := by
    rw [pendingNames, h.region]
    exact List.map_append
  have hplaced : placements w'.events = placements w.events := by
    rw [h.logged]
    rfl
  refine ⟨fun x => ?_, fun x hx => ?_, fun x hx => ?_, fun x hx => ?_⟩
  · rw [h.minted, hpending, hplaced, List.count_cons, List.count_append, List.count_singleton]
    omega
  · rw [h.logged] at hx
    simpa using hx
  · rw [hpending]
    exact List.mem_append_left _ hx
  · rw [h.minted] at hx
    rcases List.mem_cons.1 hx with rfl | hx
    · exact .inr (.inl (by simp [hpending]))
    · exact .inl hx

theorem LogsPlacing.minted {names : List String} {events : List Event}
    (h : LogsPlacing names events) : Extraction.minted events = [] := by
  refine List.filterMap_eq_nil_iff.2 fun e he => ?_
  obtain ⟨name, around, rfl⟩ := h.placed e he
  rfl

theorem Begun.noneDangle (h : Begun sure factors used t b)
    (hempty : b.start.memory.region = .empty) {body : NodeId} {passed : List Scope}
    (hrun : b.run = .ok (body, passed) v) (outer : Region) :
    NoneDangle v.memory.region.pending body
      { v with memory := { v.memory with region := outer } } := by
  obtain ⟨known, hstate⟩ := h.state
  obtain ⟨f, floats, after, hf⟩ := h.replaced
    (.empty hstate.factors_eq hempty hstate.used_reserved) hrun
  exact hf.noneDangle rfl rfl

/-- At the end of a region all that is pending there is placed, and no warning is given. -/
theorem RegionEnds.settles {outer : Region} {new : NodeId} (h : RegionEnds outer b v u new)
    (hbegun : Begun sure factors used t b) : u.memory.region = outer ∧
      minted u.events = minted v.events ∧
      (placements u.events).Perm (pendingNames v ++ placements v.events) ∧
      ∀ x, .unreferenced x ∈ u.events → .unreferenced x ∈ v.events := by
  obtain ⟨body, passed, hrun, hplaced⟩ := h.ends
  obtain ⟨_, w', events, _, hbinds, hevents, hlogs, -, -⟩ :=
    (hbegun.noneDangle h.empty hrun outer).bound
  cases hplaced.symm.trans hbinds
  refine ⟨by rw [(h.grows hbegun).2.2], ?_, ?_, fun x hx => ?_⟩
  · rw [hevents, minted, List.filterMap_append]
    exact congrArg (· ++ minted v.events) hlogs.minted
  · rw [hevents, placements_append]
    exact hlogs.names.append_right _
  · rw [hevents] at hx
    refine (List.mem_append.1 hx).resolve_left fun hx => ?_
    obtain ⟨_, _, he⟩ := hlogs.placed _ hx
    cases he

/-- From the beginning of a region to its end as much is placed as is minted. -/
theorem RegionEnds.balance {outer : Region} {new : NodeId} (h : RegionEnds outer b v u new)
    (hbegun : Begun sure factors used t b) (hsettles : Settles b b.start v) (x : String) :
    (minted u.events).count x + (placements b.start.events).count x =
      (minted b.start.events).count x + (placements u.events).count x := by
  obtain ⟨-, hminted, hplaced, -⟩ := h.settles hbegun
  have hempty : pendingNames b.start = [] := by
    rw [pendingNames, h.empty]
    rfl
  have hcount := hplaced.count_eq x
  have hbalance := hsettles.balance x
  rw [List.count_append] at hcount
  rw [hempty, List.count_nil] at hbalance
  rw [hminted, hcount]
  omega

theorem Settles.lasts : Lasts sure factors used Settles := by
  refine ⟨Settles.steady, fun call _ _ h => h.makes call,
    fun _ _ hextracts h => h.trans (.of_mints hextracts.mints), ?_⟩
  intro t a b v u w' new q hnode call hbegun hstart hends hquiet hsettles
  obtain ⟨hregion, hminted, -, hwarned⟩ := hends.settles hbegun
  have hpending : pendingNames u = pendingNames a.start := by
    rw [pendingNames, hregion]
    rfl
  have hevents : b.start.events = a.start.events := by rw [hstart]
  obtain ⟨body, passed, hrun, -⟩ := hends.ends
  refine Settles.trans ⟨fun x => ?_, fun x hx => ?_, fun x hx => ?_, fun x hx => ?_⟩
    (.of_quiet hquiet)
  · have hbalance := hends.balance hbegun hsettles x
    rw [hevents] at hbalance
    rw [hpending]
    omega
  · rw [← hevents]
    exact hsettles.warned x (hwarned x hx)
  · rwa [hpending]
  · rw [hminted] at hx
    rw [← hevents]
    refine (hsettles.minted x hx).imp_right fun hx => .inr ?_
    rcases hx with hx | hx
    · exact ⟨[], a, q, b, _, v, .here a, hnode, call, hrun, hx⟩
    · exact hx.makes call

end

section

variable {a : Arena} {options : Options} {root out : NodeId} {w' : Workspace Memory}

/-- A run is the visit of the whole tree as a region. -/
theorem exists_region_of_extract (h : extract root ⟨a, [], .ofOptions options⟩ = .ok out w') :
    ∃ b v, Reached a options root [] b ∧ b.start.arena = a ∧ b.start.events = [] ∧
      RegionEnds .empty b v w' out := by
  obtain ⟨_, w₁, hsurvey, hrest⟩ := ok_of_bind_eq_ok h
  obtain ⟨body, w₂, hreplace, hplace⟩ := ok_of_bind_eq_ok hrest
  obtain ⟨⟨new, passed⟩, w₃, htransform, hpure⟩ := ok_of_bind_eq_ok hreplace
  obtain ⟨rfl, rfl⟩ : new = body ∧ w₃ = w₂ := by simpa [pure, EStateM.pure] using hpure
  obtain ⟨depth, w₄, hdepth, hrun⟩ := ok_of_bind_eq_ok htransform
  obtain ⟨hdepth, rfl⟩ := of_ask_eq_ok hdepth
  cases hdepth
  obtain ⟨region, w₅, hexchange, hplace⟩ := ok_of_bind_eq_ok hplace
  obtain ⟨rfl, rfl⟩ := gives_exchangeRegion.ensures _ _ hexchange
  obtain ⟨t, ht⟩ := exists_walkable_of_survey hsurvey
  obtain ⟨harena, hevents, hregion, -⟩ :=
    begun_of_survey (.of_unfolds ht.unfolds) hsurvey
  exact ⟨_, w₃, ⟨w₄, hsurvey, .here _⟩, harena, hevents, hregion, new, passed, hrun, hplace⟩

/-- In no region of a run on a well-formed tree does a temporary dangle.  Whatever is minted is
pending at the end of one of the regions and placed once, and nothing is warned of. -/
theorem noneDangle_extract {t : Tree} (options : Options) (h : a.WellFormed root t) :
    (∀ p b outer, IsRegion a options root p b outer →
      ∃ body passed v, b.run = .ok (body, passed) v ∧
        NoneDangle v.memory.region.pending body
          { v with memory := { v.memory with region := outer } }) ∧
    ∃ out w', (extract root).start a (.ofOptions options) = .ok out w' ∧
      (∀ x ∈ minted w'.events, ∃ p b outer r v, IsRegion a options root p b outer ∧
        b.run = .ok r v ∧ x ∈ pendingNames v) ∧
      (minted w'.events).Nodup ∧ (placements w'.events).Perm (minted w'.events) ∧
      ∀ x, .unreferenced x ∉ w'.events := by
  have hroot : a.FormedIf True root t := ⟨h.unfolds, fun _ => h.resolves⟩
  refine ⟨fun p b outer hb => ?_, ?_⟩
  · obtain ⟨u, -, hbegun, hempty⟩ := hb.begun hroot
    obtain ⟨⟨body, passed⟩, v, hrun⟩ := hbegun.exists_run trivial
    exact ⟨body, passed, v, hrun, hbegun.noneDangle hempty hrun outer⟩
  · obtain ⟨out, w', hok, xs, d, -, hadvances, -⟩ :=
      gives_extract (w := ⟨a, [], .ofOptions options⟩) h rfl
    obtain ⟨b, v, hreached, -, hevents, hends⟩ := exists_region_of_extract hok
    obtain ⟨u, hu, hbegun⟩ := hreached.begun hroot
    obtain ⟨body, passed, hrun, -⟩ := hends.ends
    have hsettles := Settles.lasts.of_run hbegun hrun
    obtain ⟨-, hminted, -, hwarned⟩ := hends.settles hbegun
    refine ⟨out, w', hok, fun x hx => ?_, ?_, ?_, fun x hx => ?_⟩
    · rw [hminted] at hx
      rcases hsettles.minted x hx with hx | hx | ⟨p, d, q, e, r, u, henters, hnode, hmakes, hr, hx⟩
      · rw [hevents] at hx
        simp [minted] at hx
      · exact ⟨[], b, .empty, _, v, .whole hreached, hrun, hx⟩
      · obtain ⟨w₁, hsurvey, hb⟩ := hreached
        cases hb
        exact ⟨_, e, _, r, u, .recipe ⟨w₁, hsurvey, henters⟩ hnode hmakes, hr, hx⟩
    · rw [hadvances.minted.nodup_iff]
      simpa [minted] using hadvances.nodup
    · refine List.perm_iff_count.2 fun x => ?_
      have hbalance := hends.balance hbegun hsettles x
      have hnothing : minted [] = [] ∧ placements [] = [] := ⟨rfl, rfl⟩
      rw [hevents, hnothing.1, hnothing.2, List.count_nil] at hbalance
      omega
    · have := hsettles.warned x (hwarned x hx)
      rw [hevents] at this
      simp at this

/-- The one temporary of the run is placed. -/
theorem noneDangle_extract_repeated :
    ∃ out w', (extract ⟨2⟩).start repeated (.ofOptions .default) = .ok out w' ∧
      minted w'.events = ["isum_0"] ∧ placements w'.events = ["isum_0"] ∧
      ∃ p b outer r v, IsRegion repeated .default ⟨2⟩ p b outer ∧ b.run = .ok r v ∧
        "isum_0" ∈ pendingNames v := by
  obtain ⟨-, out, w', hok, hregions, -, hplaced, -⟩ :=
    noneDangle_extract .default wellFormed_repeated
  have hminted : minted w'.events = ["isum_0"] := by
    have hrun : (match (extract ⟨2⟩).start repeated (.ofOptions .default) with
      | .ok _ w => minted w.events
      | .error _ _ => []) = ["isum_0"] := by decide +kernel
    rw [hok] at hrun
    exact hrun
  rw [hminted] at hplaced hregions
  exact ⟨out, w', hok, hminted, List.perm_singleton.1 hplaced, hregions _ (by simp)⟩

end

end Extraction

end TensorRecipe
