import TensorRecipe.Proofs.Extraction.Values
import TensorRecipe.Proofs.Pass.Sharing

/-!
# Everything pending is bound

Whatever the temporaries of a region are, and whatever its body is, once they have been bound there
each of them has a let below the handle of the new body (`ensures_bindTemporaries_binds`).  A number
is noted as placed only where its temporary goes into a let that stays below (`Plan.Puts`), and what
is not noted in the end is left over and bound around the region.
-/

namespace TensorRecipe

namespace Arena

variable {a b : Arena} {id c : NodeId} {x : String}

/-- Below the handle there is a let that binds the name. -/
def Binds (a : Arena) (id : NodeId) (x : String) : Prop :=
  ∃ top bindings body, a.Reaches id top ∧ a.get top = .ok (.letIn bindings body) ∧
    x ∈ bindings.map Binding.name

theorem Binds.mono (hab : a.Extends b) (h : a.Binds id x) : b.Binds id x := by
  obtain ⟨top, bindings, body, htop, hlet, hx⟩ := h
  exact ⟨top, bindings, body, htop.mono hab, hab.get hlet, hx⟩

theorem Binds.of_reaches (h : a.Binds c x) (hc : a.Reaches id c) : a.Binds id x := by
  obtain ⟨top, bindings, body, htop, hlet, hx⟩ := h
  exact ⟨top, bindings, body, hc.trans htop, hlet, hx⟩

/-- A let binds the names of its bindings, and what is bound below their values. -/
theorem binds_of_mem {bindings : List Binding} {body : NodeId} {v : Binding}
    (h : a.get id = .ok (.letIn bindings body)) (hv : v ∈ bindings)
    (hx : v.name = x ∨ a.Binds v.value x) : a.Binds id x := by
  rcases hx with rfl | hx
  · exact ⟨id, bindings, body, .refl, h, List.mem_map_of_mem hv⟩
  · exact hx.of_reaches (.single ⟨_, h, List.mem_append_left _ (List.mem_map_of_mem hv)⟩)

end Arena

namespace Extraction

open PassM

namespace Plan

variable {p : Plan} {place : NodeId → PlaceM (NodeId × Tally)} {w w' w'' : Workspace (List Nat)}
  {found found' : Nat → String → Prop}

/-- The arena has grown, and more numbers are noted as placed; whatever temporary has such a number
is found. -/
structure Puts (p : Plan) (found : Nat → String → Prop) (w w' : Workspace (List Nat)) : Prop where
  arena : w.arena.Extends w'.arena
  noted : w.memory ⊆ w'.memory
  found : ∀ k ∈ w'.memory, k ∈ w.memory ∨ ∀ s, p.temporaries[k]? = some s → found k s.name

namespace Puts

theorem refl (w : Workspace (List Nat)) : p.Puts found w w :=
  ⟨.refl _, fun _ hk => hk, fun _ hk => .inl hk⟩

theorem of_arena {b : Arena} (hb : w.arena.Extends b) (hw : w' = { w with arena := b }) :
    p.Puts found w w' := by
  subst hw
  exact ⟨hb, fun _ hk => hk, fun _ hk => .inl hk⟩

theorem mono (h : p.Puts found w w') (hfound : ∀ k x, found k x → found' k x) :
    p.Puts found' w w' :=
  ⟨h.arena, h.noted, fun k hk => (h.found k hk).imp_right fun hs s hk => hfound _ _ (hs s hk)⟩

theorem trans (h : p.Puts found w w') (h' : p.Puts found w' w'') : p.Puts found w w'' := by
  refine ⟨h.arena.trans h'.arena, fun k hk => h'.noted (h.noted hk), fun k hk => ?_⟩
  rcases h'.found k hk with hk | hs
  · exact h.found k hk
  · exact .inr hs

end Puts

/-- Among the values is one with the number, or one below which the name is bound. -/
def Offers (b : Arena) (values : List (Nat × NodeId)) (k : Nat) (x : String) : Prop :=
  ∃ v ∈ values, v.1 = k ∨ b.Binds v.2 x

theorem Offers.mono {b c : Arena} {values more : List (Nat × NodeId)} {k : Nat} {x : String}
    (hbc : b.Extends c) (hsub : values ⊆ more) (h : Offers b values k x) : Offers c more k x := by
  obtain ⟨v, hv, hx⟩ := h
  exact ⟨v, hsub hv, hx.imp_right (Arena.Binds.mono hbc)⟩

/-- The steps place a tree: what they note is bound below the answer. -/
def Fulfils (p : Plan) (place : NodeId → PlaceM (NodeId × Tally)) : Prop :=
  ∀ id w, (place id).Ensures w fun r w' => p.Puts (fun _ => w'.arena.Binds r.1) w w' ∧ r.2.Ordered

section

variable (hplace : p.Fulfils place)

include hplace

theorem ensures_placeChildren_puts : ∀ (ids : List NodeId) {w : Workspace (List Nat)},
    (placeChildren place ids).Ensures w fun r w' => r.1.length = ids.length ∧ r.2.Ordered ∧
      p.Puts (fun _ x => ∃ c ∈ r.1, w'.arena.Binds c x) w w'
  | [], w => ensures_pure ⟨rfl, Tally.ordered_nil, .refl w⟩
  | id :: ids, w => by
    refine (hplace id w).bind fun r w₁ ⟨hputs, huses⟩ => ?_
    refine (ensures_placeChildren_puts ids).bind fun rs w₂ ⟨hlength, hmore, hrest⟩ => ?_
    refine ensures_pure ⟨by simp [hlength], Tally.ordered_merge hmore huses, ?_⟩
    refine (hputs.mono fun _ x hx => ?_).trans (hrest.mono ?_)
    · exact ⟨r.1, List.mem_cons_self, hx.mono hrest.arena⟩
    · rintro _ x ⟨c, hc, hx⟩
      exact ⟨c, List.mem_cons_of_mem _ hc, hx⟩

/-- The values have some of the numbers, each of them once. -/
theorem ensures_placeValues_puts (around : NodeId) :
    ∀ (ts : List Nat) (uses : Tally) {w : Workspace (List Nat)}, uses.Ordered →
      (p.placeValues place around ts uses).Ensures w fun r w' =>
        p.Puts (Offers w'.arena r.1) w w' ∧ r.2.Ordered ∧ ts ⊆ w'.memory ∧
          (r.1.map Prod.fst).Sublist ts ∧ ∀ v ∈ r.1, ∃ s, p.temporaries[v.1]? = some s
  | [], _, w, huses => ensures_pure ⟨.refl w, huses, by simp, .slnil, by simp⟩
  | t :: ts, uses, w, huses => by
    unfold placeValues
    refine gives_remember.ensures.bind ?_
    rintro _ w₁ rfl
    split
    · next hnone =>
      refine (ensures_placeValues_puts around ts uses huses).mono ?_
      rintro r w' ⟨hputs, hr, hts, hsub, hknown⟩
      refine ⟨⟨hputs.arena, fun k hk => hputs.noted (List.mem_cons_of_mem _ hk), fun k hk => ?_⟩,
        hr, List.cons_subset.2 ⟨hputs.noted List.mem_cons_self, hts⟩, hsub.cons t, hknown⟩
      rcases hputs.found k hk with hk | hs
      · rcases List.mem_cons.1 hk with rfl | hk
        · exact .inr fun s hs => by simp [hnone] at hs
        · exact .inl hk
      · exact .inr hs
    · next temporary ht =>
      refine (hplace temporary.value _).bind fun r w₂ ⟨hputs₂, hr⟩ => ?_
      refine gives_log.ensures.bind ?_
      rintro _ w₃ rfl
      refine (ensures_placeValues_puts around ts _ (Tally.ordered_merge hr huses)).bind ?_
      rintro rs w₄ ⟨hputs₄, hrs, hts, hsub, hknown⟩
      have hfirst : p.Puts (Offers w₄.arena ((t, r.1) :: rs.1)) ⟨w.arena, w.events, t :: w.memory⟩
          ⟨w₂.arena, .placed temporary.name around :: w₂.events, w₂.memory⟩ := by
        refine ⟨hputs₂.arena, hputs₂.noted, fun k hk => ?_⟩
        refine (hputs₂.found k hk).imp_right fun hs s hk => ?_
        exact ⟨_, List.mem_cons_self, .inr ((hs s hk).mono hputs₄.arena)⟩
      have hputs := hfirst.trans (hputs₄.mono fun k x hx =>
        hx.mono (.refl _) (List.subset_cons_self (t, r.1) rs.1))
      refine ensures_pure ⟨⟨hputs.arena, fun k hk => hputs.noted (List.mem_cons_of_mem _ hk),
        fun k hk => ?_⟩, hrs, List.cons_subset.2 ⟨hputs.noted List.mem_cons_self, hts⟩,
        hsub.cons_cons t, List.forall_mem_cons.2 ⟨⟨temporary, ht⟩, hknown⟩⟩
      rcases hputs.found k hk with hk | hs
      · rcases List.mem_cons.1 hk with rfl | hk
        · exact .inr fun s _ => ⟨_, List.mem_cons_self, .inl rfl⟩
        · exact .inl hk
      · exact .inr hs

/-- No number is placed in two rounds. -/
theorem ensures_placeComplete_puts (around : NodeId) :
    ∀ (rounds : Nat) (uses : Tally) {w : Workspace (List Nat)}, uses.Ordered →
      (p.placeComplete place around rounds uses).Ensures w fun r w' =>
        p.Puts (Offers w'.arena r.1) w w' ∧ r.2.Ordered ∧ (r.1.map Prod.fst).Nodup ∧
          (∀ v ∈ r.1, v.1 ∉ w.memory) ∧ ∀ v ∈ r.1, ∃ s, p.temporaries[v.1]? = some s
  | 0, _, w, huses => ensures_pure ⟨.refl w, huses, by simp, by simp, by simp⟩
  | rounds + 1, uses, w, huses => by
    unfold placeComplete
    refine gives_getMemory.ensures.bind ?_
    rintro _ w₁ ⟨rfl, rfl⟩
    split
    · exact ensures_pure ⟨.refl _, huses, by simp, by simp, by simp⟩
    · refine (ensures_placeValues_puts hplace around _ uses huses).bind ?_
      rintro r w₂ ⟨hputs, hr, hts, hsub, hknown⟩
      refine (ensures_placeComplete_puts around rounds _ hr).bind ?_
      rintro rs w₃ ⟨hputs₃, hrs, hnodup, hfresh, hknown₃⟩
      refine ensures_pure ⟨(hputs.mono fun k x hx => ?_).trans (hputs₃.mono fun k x hx => ?_), hrs,
        ?_, fun v hv => ?_, fun v hv => (List.mem_append.1 hv).elim (hknown v) (hknown₃ v)⟩
      · exact hx.mono hputs₃.arena (List.subset_append_left _ _)
      · exact hx.mono (.refl _) (List.subset_append_right _ _)
      · rw [List.map_append]
        refine List.nodup_append.2 ⟨hsub.nodup (nodup_complete huses _), hnodup, ?_⟩
        rintro k hk _ hk' rfl
        obtain ⟨v, hv, rfl⟩ := List.mem_map.1 hk'
        exact hfresh v hv (hts (hsub.subset hk))
      · rcases List.mem_append.1 hv with hv | hv
        · exact (mem_complete.1 (hsub.subset (List.mem_map_of_mem hv))).1
        · exact fun hmem => hfresh v hv (hputs.noted hmem)

omit hplace in
theorem mem_letOf {values : List (Nat × NodeId)} {v : Nat × NodeId} {s : Temporary}
    (hnodup : (values.map Prod.fst).Nodup) (hv : v ∈ values) (hs : p.temporaries[v.1]? = some s)
    (body : NodeId) :
    ∃ bindings, p.letOf values body = .letIn bindings body ∧ ⟨s.name, v.2⟩ ∈ bindings := by
  refine ⟨_, rfl, List.mem_filterMap.2 ⟨(s, v.1), List.mk_mem_zipIdx_iff_getElem?.2 hs, ?_⟩⟩
  obtain ⟨u, hu⟩ : ∃ u, values.find? (·.1 = v.1) = some u :=
    Option.isSome_iff_exists.1 (List.find?_isSome.2 ⟨v, hv, by simp⟩)
  have hfst : u.1 = v.1 := by simpa using List.find?_some hu
  obtain rfl : u = v := List.inj_on_of_nodup_map hnodup (List.mem_of_find?_eq_some hu) hv hfst
  simp only [hu, Option.map_some]

theorem ensures_bindComplete_puts (id : NodeId) {uses : Tally} (huses : uses.Ordered) :
    (p.bindComplete place id uses).Ensures w fun r w' =>
      p.Puts (fun _ => w'.arena.Binds r.1) w w' ∧ r.2.Ordered ∧ w'.arena.Reaches r.1 id := by
  refine (ensures_placeComplete_puts hplace id _ uses huses).bind ?_
  rintro r w₁ ⟨hputs, hr, hnodup, -, hknown⟩
  refine (gives_addUnless_get _ _ _).ensures.bind fun id' w₂ ⟨hext, hw₂, hid'⟩ => ?_
  have hputs₂ : p.Puts (Offers w₂.arena r.1) w w₂ :=
    (hputs.mono fun _ _ hx => hx.mono hext fun _ hv => hv).trans (.of_arena hext hw₂)
  rcases hid' with ⟨hempty, rfl⟩ | ⟨-, hlet⟩
  · refine ensures_pure ⟨hputs₂.mono ?_, hr, .refl⟩
    rintro _ _ ⟨v, hv, -⟩
    simp [List.isEmpty_iff.1 hempty] at hv
  · refine ensures_pure ⟨⟨hputs₂.arena, hputs₂.noted, fun k hk => ?_⟩, hr,
      .single ⟨_, hlet, List.mem_append_right _ (List.mem_singleton_self _)⟩⟩
    refine (hputs₂.found k hk).imp_right fun hs s hk => ?_
    obtain ⟨v, hv, hx⟩ := hs s hk
    obtain ⟨u, hu⟩ := hknown v hv
    obtain ⟨bindings, hbindings, hmem⟩ := mem_letOf hnodup hv hu id
    refine Arena.binds_of_mem (hbindings ▸ hlet) hmem (hx.imp_left ?_)
    rintro rfl
    rw [Option.some.inj (hu.symm.trans hk)]

end

theorem fulfils_placeWithin : ∀ (depth : Nat) (isBody : Bool),
    p.Fulfils (p.placeWithin depth isBody)
  | 0, _, _, _ => ensures_throw
  | depth + 1, isBody, id, w => by
    have hvalue : p.Fulfils (p.placeWithin depth false) := fulfils_placeWithin depth false
    refine ensures_ask_bind fun node hn => ?_
    split
    · split
      · exact (ensures_bindComplete_puts hvalue id (Tally.ordered_singleton _)).mono
          fun _ _ ⟨hputs, hr, _⟩ => ⟨hputs, hr⟩
      · exact ensures_pure ⟨.refl w, Tally.ordered_singleton _⟩
    · refine (ensures_placeChildren_puts (fulfils_placeWithin depth _) _).bind ?_
      rintro r w₁ ⟨hlength, hr, hputs⟩
      refine (ensures_setChildren_get (hputs.arena.get hn) hlength).bind ?_
      rintro id' w₂ ⟨hext, hw₂, new, hnew, -, hchildren, -⟩
      refine (ensures_bindComplete_puts hvalue id' hr).mono ?_
      rintro r' w₃ ⟨hputs₃, hr', hreaches⟩
      refine ⟨((hputs.mono ?_).trans (.of_arena hext hw₂)).trans hputs₃, hr'⟩
      rintro _ x ⟨c, hc, hx⟩
      refine (hx.mono (hext.trans hputs₃.arena)).of_reaches (hreaches.tail ?_)
      exact ⟨new, hputs₃.arena.get hnew, hchildren ▸ hc⟩

theorem fulfils_place (isBody : Bool) : p.Fulfils (p.place isBody) := fun id w =>
  ensures_ask_bind fun _ _ => fulfils_placeWithin _ isBody id w

theorem ensures_placeLeftOver_puts (warnUnused : Bool) :
    ∀ (ts : List (Temporary × Nat)) {w : Workspace (List Nat)},
      (∀ t ∈ ts, p.temporaries[t.2]? = some t.1) →
        (p.placeLeftOver warnUnused ts).Ensures w fun bindings w' =>
          p.Puts (fun _ x => ∃ v ∈ bindings, v.name = x ∨ w'.arena.Binds v.value x) w w' ∧
            ∀ t ∈ ts, t.2 ∈ w'.memory
  | [], w, _ => ensures_pure ⟨.refl w, by simp⟩
  | (temporary, t) :: ts, w, hts => by
    obtain ⟨ht, hrest⟩ := List.forall_mem_cons.1 hts
    unfold placeLeftOver
    refine gives_getMemory.ensures.bind ?_
    rintro _ v ⟨rfl, rfl⟩
    split
    · next hmem =>
      refine (ensures_placeLeftOver_puts warnUnused ts hrest).mono fun bindings w' ⟨hputs, h⟩ => ?_
      exact ⟨hputs, List.forall_mem_cons.2 ⟨hputs.noted hmem, h⟩⟩
    · refine gives_remember.ensures.bind ?_
      rintro _ w₁ rfl
      have hlog : (logIf (warnUnused ∧ p.totals.count t = 0) (.unreferenced temporary.name)).Ensures
          ⟨v.arena, v.events, t :: v.memory⟩ fun _ w₂ =>
            w₂.arena = v.arena ∧ w₂.memory = t :: v.memory := by
        unfold logIf
        split
        · exact gives_log.ensures.mono fun _ _ hw => by simp [hw]
        · exact ensures_pure ⟨rfl, rfl⟩
      refine hlog.bind fun _ w₂ ⟨harena, hmemory⟩ => ?_
      refine (fulfils_place false temporary.value w₂).bind fun r w₃ ⟨hputs₃, _⟩ => ?_
      refine (ensures_placeLeftOver_puts warnUnused ts hrest).bind ?_
      rintro bindings w₄ ⟨hputs₄, h⟩
      have hputs : p.Puts (fun _ x => ∃ b ∈ (⟨temporary.name, r.1⟩ : Binding) :: bindings,
          b.name = x ∨ w₄.arena.Binds b.value x) w₂ w₄ := by
        refine (hputs₃.mono fun _ x hx => ?_).trans (hputs₄.mono ?_)
        · exact ⟨_, List.mem_cons_self, .inr (hx.mono hputs₄.arena)⟩
        · rintro _ x ⟨b, hb, hx⟩
          exact ⟨b, List.mem_cons_of_mem _ hb, hx⟩
      have hnoted : t ∈ w₄.memory := hputs.noted (hmemory ▸ List.mem_cons_self)
      refine ensures_pure ⟨⟨harena ▸ hputs.arena, fun k hk => hputs.noted ?_, fun k hk => ?_⟩,
        List.forall_mem_cons.2 ⟨hnoted, h⟩⟩
      · exact hmemory ▸ List.mem_cons_of_mem _ hk
      · rcases hputs.found k hk with hk | hs
        · rcases List.mem_cons.1 (hmemory ▸ hk) with rfl | hk
          · refine .inr fun s hs => ⟨_, List.mem_cons_self, .inl ?_⟩
            exact congrArg Temporary.name (Option.some.inj (ht.symm.trans hs))
          · exact .inl hk
        · exact .inr hs

theorem ensures_placeAll_binds (warnUnused : Bool) (body : NodeId) (hw : w.memory = []) :
    (p.placeAll warnUnused body).Ensures w fun new w' =>
      ∀ s ∈ p.temporaries, w'.arena.Binds new s.name := by
  refine (fulfils_place true body w).bind fun r w₁ ⟨hputs, _⟩ => ?_
  refine (ensures_placeLeftOver_puts warnUnused p.temporaries.zipIdx fun t ht =>
    List.mk_mem_zipIdx_iff_getElem?.1 ht).bind fun bindings w₂ ⟨hputs₂, hnoted⟩ => ?_
  refine (gives_addUnless_get _ _ _).ensures.mono fun new w₃ ⟨hext, hw₃, hnew⟩ s hs => ?_
  obtain ⟨k, hk⟩ := List.mem_iff_getElem?.1 hs
  have hmem : k ∈ w₂.memory := hnoted (s, k) (List.mk_mem_zipIdx_iff_getElem?.2 hk)
  rcases hputs₂.found k hmem with hmem | hfound
  · have hbody := ((hputs.found k hmem).resolve_left (by simp [hw]) s hk).mono
      (hputs₂.arena.trans hext)
    rcases hnew with ⟨-, rfl⟩ | ⟨-, hlet⟩
    · exact hbody
    · refine hbody.of_reaches (.single ⟨_, hlet, ?_⟩)
      exact List.mem_append_right _ (List.mem_singleton_self _)
  · obtain ⟨v, hv, hx⟩ := hfound s hk
    rcases hnew with ⟨hempty, -⟩ | ⟨-, hlet⟩
    · simp [List.isEmpty_iff.1 hempty] at hv
    · exact Arena.binds_of_mem hlet hv (hx.imp_right (Arena.Binds.mono hext))

end Plan

/-- Whatever temporaries are bound in whatever body, each has a let there. -/
theorem ensures_bindTemporaries_binds (temporaries : List Temporary) (body : NodeId)
    {w : Workspace Memory} : (bindTemporaries temporaries body).Ensures w fun new w' =>
      ∀ s ∈ temporaries, w'.arena.Binds new s.name := by
  unfold bindTemporaries
  split
  · next hnil =>
    obtain rfl := List.isEmpty_iff.1 hnil
    exact ensures_pure (by simp)
  · refine gives_getMemory.ensures.bind ?_
    rintro _ w₁ ⟨rfl, rfl⟩
    refine ensures_ask_bind fun plan hplan => ?_
    obtain rfl : plan.temporaries = temporaries := by
      obtain ⟨_, -, hplan⟩ := exists_of_bind_eq_ok hplan
      cases hplan
      rfl
    refine (ensures_within (plan.ensures_placeAll_binds _ body rfl)).bind ?_
    rintro r w₂ ⟨v, hbinds, rfl⟩
    exact ensures_pure hbinds

end Extraction

end TensorRecipe
