import TensorRecipe.Proofs.Extraction.Counting
import TensorRecipe.Proofs.Extraction.Outcome
import TensorRecipe.Proofs.Pass.Ensures

/-!
# What placing changes

Placing makes each node of a region anew over what became of its children, and puts lets of
temporaries around some of them (`Dressed`).  What mentions no temporary stays the same node.  All
this holds of any plan, however it counts (`ensures_bindTemporaries`).
-/

namespace TensorRecipe

namespace Extraction

open PassM

/-- The tree at a handle mentions none of the temporaries. -/
def Plain (temporaries : List Temporary) (a : Arena) (id : NodeId) : Prop :=
  ∃ t, a.Unfolds id t ∧ ∀ s ∈ temporaries, s.name ∉ t.names

/-- A handle of `b` names what became of a node of `a`: it has been made anew, unless it is plain,
and then lets of temporaries may have been put around it. -/
inductive Dressed (temporaries : List Temporary) (a b : Arena) : NodeId → NodeId → Prop where
  | node {id new : NodeId} {node node' : Node} (old : a.get id = .ok node)
    (entry : b.get new = .ok node') (shape : node'.shape = node.shape)
    (length : node.children.length = node'.children.length)
    (parts : ∀ k h h', Dressed temporaries a b (node.children.get ⟨k, h⟩)
      (node'.children.get ⟨k, h'⟩))
    (same : Plain temporaries a id → new = id) : Dressed temporaries a b id new
  | letIn {id new body : NodeId} {bindings : List Binding} (source : Binding → Temporary)
    (entry : b.get new = .ok (.letIn bindings body)) (nonempty : bindings ≠ [])
    (names : ∀ v ∈ bindings, source v ∈ temporaries ∧ (source v).name = v.name)
    (values : ∀ v ∈ bindings, Dressed temporaries a b (source v).value v.value)
    (body : Dressed temporaries a b id body) (moved : ¬ Plain temporaries a id) :
    Dressed temporaries a b id new

/-- A let of temporaries has been put around a node, or nothing has. -/
def LetAround (temporaries : List Temporary) (a b : Arena) (body new : NodeId) : Prop :=
  new = body ∨ ∃ bindings, b.get new = .ok (.letIn bindings body) ∧ bindings ≠ [] ∧
    ∀ v ∈ bindings, ∃ s ∈ temporaries, s.name = v.name ∧ Dressed temporaries a b s.value v.value

section

variable {temporaries : List Temporary} {a b c : Arena} {id new body : NodeId}

namespace Dressed

theorem of_forall₂ {node node' : Node} (old : a.get id = .ok node) (entry : b.get new = .ok node')
    (shape : node'.shape = node.shape)
    (parts : List.Forall₂ (Dressed temporaries a b) node.children node'.children)
    (same : Plain temporaries a id → new = id) : Dressed temporaries a b id new :=
  .node old entry shape parts.length_eq (List.forall₂_iff_get.1 parts).2 same

theorem mono (hbc : b.Extends c) (h : Dressed temporaries a b id new) :
    Dressed temporaries a c id new := by
  induction h with
  | node old entry shape length _ same ih => exact .node old (hbc.get entry) shape length ih same
  | letIn source entry nonempty names _ _ moved ihv ihb =>
    exact .letIn source (hbc.get entry) nonempty names ihv ihb moved

theorem refl (hab : a.Extends b) {t : Tree} (h : a.Unfolds id t) :
    Dressed temporaries a b id id := by
  induction t using Tree.induct generalizing id with
  | node shape children ih =>
    obtain ⟨node, hn, -, hc⟩ := h.get
    refine .node hn (hab.get hn) rfl rfl (fun k hk _ => ?_) fun _ => rfl
    obtain ⟨u, hu, hcu⟩ := Arena.exists_of_mem_left hc (List.get_mem node.children ⟨k, hk⟩)
    exact ih u hu hcu

theorem around (h : Dressed temporaries a b id body) (hmoved : ¬ Plain temporaries a id)
    (hnew : LetAround temporaries a b body new) : Dressed temporaries a b id new := by
  rcases hnew with rfl | ⟨bindings, hentry, hne, hvalues⟩
  · exact h
  · have : Nonempty Temporary := ⟨⟨"", id⟩⟩
    choose! source hmem hname hvalue using hvalues
    exact .letIn source hentry hne (fun v hv => ⟨hmem v hv, hname v hv⟩) hvalue h hmoved

end Dressed

end

namespace Plan

variable {p : Plan} {place : NodeId → PlaceM (NodeId × Tally)} {w : Workspace (List Nat)}
  {a b : Arena}

/-! ### What mentions no temporary -/

theorem ensures_placeChildren_same {ids : List NodeId}
    (hplace : ∀ id ∈ ids, (place id).Ensures w fun r w' => r = (id, []) ∧ w' = w) :
    (placeChildren place ids).Ensures w fun r w' => r = (ids, []) ∧ w' = w := by
  induction ids with
  | nil => exact ensures_pure ⟨rfl, rfl⟩
  | cons id ids ih =>
    refine (hplace id (by simp)).bind ?_
    rintro _ w₁ ⟨rfl, rfl⟩
    refine (ih fun id hid => hplace id (List.mem_cons_of_mem _ hid)).bind ?_
    rintro _ w₂ ⟨rfl, rfl⟩
    exact ensures_pure ⟨rfl, rfl⟩

theorem ensures_bindComplete_same (id : NodeId) :
    (p.bindComplete place id []).Ensures w fun r w' => r = (id, []) ∧ w' = w := by
  have hcomplete : (p.placeComplete place id (p.temporaries.length + 1) []).Ensures w
      fun r w' => r = ([], []) ∧ w' = w := by
    refine gives_getMemory.ensures.bind ?_
    rintro _ w₁ ⟨rfl, rfl⟩
    exact ensures_pure ⟨rfl, rfl⟩
  refine hcomplete.bind ?_
  rintro _ w₁ ⟨rfl, rfl⟩
  exact ensures_pure ⟨rfl, rfl⟩

theorem ensures_placeWithin_same (t : Tree) (hplain : ∀ s ∈ p.temporaries, s.name ∉ t.names) :
    ∀ {depth : Nat} {isBody : Bool} {id : NodeId} {w : Workspace (List Nat)},
      w.arena.Unfolds id t →
        (p.placeWithin depth isBody id).Ensures w fun r w' => r = (id, []) ∧ w' = w := by
  induction t using Tree.induct with
  | node shape children ih =>
    intro depth isBody id w h
    cases depth with
    | zero => exact ensures_throw
    | succ depth =>
      obtain ⟨node, hn, rfl, hc⟩ := h.get
      refine ensures_ask_bind fun node' hn' => ?_
      obtain rfl := Except.ok.inj (hn.symm.trans hn')
      have hrefers : refersTo? p.temporaries node = none := by
        refine refersTo?_eq_none ?_
        rintro x rfl hmem
        obtain ⟨s, hs, rfl⟩ := List.mem_map.1 hmem
        exact hplain s hs (by simp [Tree.names, Node.shape, Shape.names])
      simp only [hrefers]
      have hchildren : (placeChildren (p.placeWithin depth (isScope node)) node.children).Ensures w
          fun r w' => r = (node.children, []) ∧ w' = w := by
        refine ensures_placeChildren_same fun c hmem => ?_
        obtain ⟨u, hu, hcu⟩ := Arena.exists_of_mem_left hc hmem
        refine ih u hu (fun s hs hx => hplain s hs ?_) hcu
        rw [Tree.names, List.mem_append, Tree.mem_namesAll]
        exact .inr ⟨u, hu, hx⟩
      refine hchildren.bind ?_
      rintro _ w₁ ⟨rfl, rfl⟩
      refine gives_setChildren_same.ensures.bind ?_
      rintro _ _ ⟨rfl, rfl⟩
      exact ensures_bindComplete_same _

/-! ### What does -/

/-- The steps dress a node of an arena that the workspace extends. -/
def Dresses (p : Plan) (a : Arena) (place : NodeId → PlaceM (NodeId × Tally)) (id : NodeId) :
    Prop :=
  ∀ {w : Workspace (List Nat)}, a.Extends w.arena → (place id).Ensures w fun r w' =>
    Grows w w' ∧ Dressed p.temporaries a w'.arena id r.1

theorem ensures_placeChildren {ids : List NodeId} (hplace : ∀ id ∈ ids, p.Dresses a place id)
    (ha : a.Extends w.arena) : (placeChildren place ids).Ensures w fun r w' =>
      Grows w w' ∧ List.Forall₂ (Dressed p.temporaries a w'.arena) ids r.1 := by
  induction ids generalizing w with
  | nil => exact ensures_pure ⟨.refl _, .nil⟩
  | cons id ids ih =>
    refine (hplace id (by simp) ha).bind fun r w₁ ⟨hw₁, hr⟩ => ?_
    refine (ih (fun id hid => hplace id (List.mem_cons_of_mem _ hid)) (ha.trans hw₁.arena)).bind
      fun rs w₂ ⟨hw₂, hrs⟩ => ?_
    exact ensures_pure ⟨hw₁.trans hw₂, .cons (hr.mono hw₂.arena) hrs⟩

/-- Values to be bound around a node come of the temporaries with their numbers. -/
def AreDressed (p : Plan) (a b : Arena) (values : List (Nat × NodeId)) : Prop :=
  ∀ v ∈ values, ∃ s, p.temporaries[v.1]? = some s ∧ Dressed p.temporaries a b s.value v.2

theorem AreDressed.mono {c : Arena} (hbc : b.Extends c) {values : List (Nat × NodeId)}
    (h : AreDressed p a b values) : AreDressed p a c values := fun v hv => by
  obtain ⟨s, hs, hv⟩ := h v hv
  exact ⟨s, hs, hv.mono hbc⟩

theorem AreDressed.append {values more : List (Nat × NodeId)} (h : AreDressed p a b values)
    (h' : AreDressed p a b more) : AreDressed p a b (values ++ more) :=
  fun v hv => (List.mem_append.1 hv).elim (h v) (h' v)

theorem letOf_eq {values : List (Nat × NodeId)} (h : AreDressed p a b values) (hne : values ≠ [])
    (body : NodeId) : ∃ bindings, p.letOf values body = .letIn bindings body ∧ bindings ≠ [] ∧
      ∀ v ∈ bindings, ∃ s ∈ p.temporaries, s.name = v.name ∧
        Dressed p.temporaries a b s.value v.value := by
  refine ⟨_, rfl, ?_, fun v hv => ?_⟩
  · obtain ⟨v, hv⟩ := List.exists_mem_of_ne_nil _ hne
    obtain ⟨s, hs, -⟩ := h v hv
    obtain ⟨u, hu⟩ : ∃ u, values.find? (·.1 = v.1) = some u :=
      Option.isSome_iff_exists.1 (List.find?_isSome.2 ⟨v, hv, by simp⟩)
    have hmem : (s, v.1) ∈ p.temporaries.zipIdx := List.mk_mem_zipIdx_iff_getElem?.2 hs
    exact List.ne_nil_of_mem (List.mem_filterMap.2 ⟨_, hmem, by simp only [hu]; rfl⟩)
  · obtain ⟨⟨s, k⟩, hmem, hv⟩ := List.mem_filterMap.1 hv
    obtain ⟨u, hu, rfl⟩ := Option.map_eq_some_iff.1 hv
    have hs : p.temporaries[k]? = some s := List.mk_mem_zipIdx_iff_getElem?.1 hmem
    obtain rfl : u.1 = k := by simpa using List.find?_some hu
    obtain ⟨s', hs', hdressed⟩ := h u (List.mem_of_find?_eq_some hu)
    obtain rfl : s = s' := by simpa [hs] using hs'
    exact ⟨s, List.mem_of_getElem? hs, rfl, hdressed⟩

section

variable (hplace : ∀ s ∈ p.temporaries, p.Dresses a place s.value)

include hplace

theorem ensures_placeValues (around : NodeId) :
    ∀ (ts : List Nat) (uses : Tally) {w : Workspace (List Nat)}, a.Extends w.arena →
      (p.placeValues place around ts uses).Ensures w fun r w' =>
        Grows w w' ∧ AreDressed p a w'.arena r.1
  | [], _, _, _ => ensures_pure ⟨.refl _, by simp [AreDressed]⟩
  | t :: ts, uses, w, ha => by
    unfold placeValues
    refine gives_remember.ensures.bind ?_
    rintro _ w₁ rfl
    split
    · exact (ensures_placeValues around ts uses (w := ⟨w.arena, w.events, t :: w.memory⟩) ha).mono
        fun _ _ ⟨hw', hr⟩ => ⟨⟨hw'.arena, hw'.extracted⟩, hr⟩
    · next temporary ht =>
      refine (hplace temporary (List.mem_of_getElem? ht)
        (w := ⟨w.arena, w.events, t :: w.memory⟩) ha).bind fun r w₂ ⟨hw₂, hr⟩ => ?_
      refine gives_log.ensures.bind ?_
      rintro _ w₃ hw₃
      have hgrows : Grows w w₃ := ⟨hw₃ ▸ hw₂.arena, hw₃ ▸ hw₂.extracted⟩
      refine (ensures_placeValues around ts (uses.merge r.2) (ha.trans hgrows.arena)).bind
        fun rs w₄ ⟨hw₄, hrs⟩ => ?_
      refine ensures_pure ⟨hgrows.trans hw₄, fun v hv => ?_⟩
      rcases List.mem_cons.1 hv with rfl | hv
      · have harena : w₃.arena = w₂.arena := by rw [hw₃]
        exact ⟨temporary, ht, hr.mono (harena ▸ hw₄.arena)⟩
      · exact hrs v hv

theorem ensures_placeComplete (around : NodeId) :
    ∀ (rounds : Nat) (uses : Tally) {w : Workspace (List Nat)}, a.Extends w.arena →
      (p.placeComplete place around rounds uses).Ensures w fun r w' =>
        Grows w w' ∧ AreDressed p a w'.arena r.1
  | 0, _, _, _ => ensures_pure ⟨.refl _, by simp [AreDressed]⟩
  | rounds + 1, uses, w, ha => by
    unfold placeComplete
    refine gives_getMemory.ensures.bind ?_
    rintro _ w₁ ⟨rfl, rfl⟩
    split
    · exact ensures_pure ⟨.refl _, by simp [AreDressed]⟩
    · refine (ensures_placeValues hplace around _ uses ha).bind fun r w₂ ⟨hw₂, hr⟩ => ?_
      refine (ensures_placeComplete around rounds _ (ha.trans hw₂.arena)).bind
        fun rs w₃ ⟨hw₃, hrs⟩ => ?_
      exact ensures_pure ⟨hw₂.trans hw₃, (hr.mono hw₃.arena).append hrs⟩

/-- What is complete at a node is bound around it. -/
theorem ensures_bindComplete {id : NodeId} (uses : Tally) (ha : a.Extends w.arena) :
    (p.bindComplete place id uses).Ensures w fun r w' =>
      Grows w w' ∧ LetAround p.temporaries a w'.arena id r.1 := by
  refine (ensures_placeComplete hplace id _ uses ha).bind fun r w₁ ⟨hw₁, hr⟩ => ?_
  refine (gives_addUnless_get _ _ _).ensures.bind fun id' w₂ ⟨hext₂, hw₂, hid'⟩ => ?_
  refine ensures_pure ⟨hw₁.trans ⟨hext₂, by rw [hw₂]⟩, ?_⟩
  rcases hid' with ⟨-, rfl⟩ | ⟨hne, hnew⟩
  · exact .inl rfl
  · obtain ⟨bindings, hlet, hbindings, hvalues⟩ :=
      letOf_eq (hr.mono hext₂) (by simpa using hne) id
    exact .inr ⟨bindings, hlet ▸ hnew, hbindings, hvalues⟩

end

section

variable (hvalues : ∀ s ∈ p.temporaries, ∃ t, a.Unfolds s.value t)

include hvalues

theorem dresses_placeWithin : ∀ (depth : Nat) (isBody : Bool) {id : NodeId},
    (∃ t, a.Unfolds id t) → p.Dresses a (p.placeWithin depth isBody) id
  | 0, _, _, _, _, _ => ensures_throw
  | depth + 1, isBody, id, ⟨⟨shape, children⟩, ht⟩, w, ha => by
    by_cases hplain : Plain p.temporaries a id
    · obtain ⟨u, hu, hnames⟩ := hplain
      refine (ensures_placeWithin_same u hnames (hu.mono ha)).mono ?_
      rintro _ _ ⟨rfl, rfl⟩
      exact ⟨.refl _, .refl ha hu⟩
    · have hvalue : ∀ s ∈ p.temporaries, p.Dresses a (p.placeWithin depth false) s.value :=
        fun s hs => dresses_placeWithin depth false (hvalues s hs)
      obtain ⟨node, hn, -, hc⟩ := ht.get
      refine ensures_ask_bind fun node' hn' => ?_
      obtain rfl := Except.ok.inj ((ha.get hn).symm.trans hn')
      split
      · split
        · refine (ensures_bindComplete hvalue _ ha).mono fun r w' ⟨hw', hr⟩ => ⟨hw', ?_⟩
          exact (Dressed.refl (ha.trans hw'.arena) ht).around hplain hr
        · exact ensures_pure ⟨.refl _, .refl ha ht⟩
      · refine (ensures_placeChildren (p := p) (fun c hmem => ?_) ha).bind fun r w₁ ⟨hw₁, hr⟩ => ?_
        · obtain ⟨u, -, hcu⟩ := Arena.exists_of_mem_left hc hmem
          exact dresses_placeWithin depth (isScope node) ⟨u, hcu⟩
        refine (ensures_setChildren_get ((ha.trans hw₁.arena).get hn) hr.length_eq.symm).bind ?_
        rintro id' w₂ ⟨hext₂, hw₂, new, hnew, hshape, hchildren, _⟩
        have hgrows : Grows w w₂ := hw₁.trans ⟨hext₂, by rw [hw₂]⟩
        refine (ensures_bindComplete hvalue r.2 (ha.trans hgrows.arena)).mono ?_
        rintro r' w₃ ⟨hw₃, hr'⟩
        have hdressed : Dressed p.temporaries a w₃.arena id id' := by
          refine .of_forall₂ hn (hw₃.arena.get hnew) hshape ?_ fun h => absurd h hplain
          rw [hchildren]
          exact hr.imp fun _ _ => Dressed.mono (hext₂.trans hw₃.arena)
        exact ⟨hgrows.trans hw₃, hdressed.around hplain hr'⟩

theorem ensures_place (isBody : Bool) {id : NodeId} (ha : a.Extends w.arena)
    (hid : ∃ t, a.Unfolds id t) : (p.place isBody id).Ensures w fun r w' =>
      Grows w w' ∧ Dressed p.temporaries a w'.arena id r.1 :=
  ensures_ask_bind fun _ _ => dresses_placeWithin hvalues _ isBody hid ha

theorem ensures_placeLeftOver (warnUnused : Bool) :
    ∀ (ts : List (Temporary × Nat)) {w : Workspace (List Nat)}, a.Extends w.arena →
      (∀ t ∈ ts, t.1 ∈ p.temporaries) →
        (p.placeLeftOver warnUnused ts).Ensures w fun bindings w' => Grows w w' ∧
          ∀ v ∈ bindings, ∃ s ∈ p.temporaries, s.name = v.name ∧
            Dressed p.temporaries a w'.arena s.value v.value
  | [], _, _, _ => ensures_pure ⟨.refl _, by simp⟩
  | (temporary, t) :: ts, w, ha, hmem => by
    have hrest : ∀ t ∈ ts, t.1 ∈ p.temporaries := fun t ht => hmem t (List.mem_cons_of_mem _ ht)
    unfold placeLeftOver
    refine gives_getMemory.ensures.bind ?_
    rintro _ v ⟨rfl, rfl⟩
    split
    · exact ensures_placeLeftOver warnUnused ts ha hrest
    · have htemporary : temporary ∈ p.temporaries := hmem (temporary, t) (by simp)
      refine gives_remember.ensures.bind ?_
      rintro _ w₁ rfl
      refine (ensures_logIf _ _).bind fun _ w₂ ⟨harena, hevents⟩ => ?_
      have hw₂ : Grows v w₂ := by
        refine ⟨harena ▸ .refl _, ?_⟩
        rcases hevents with hevents | hevents
        all_goals rw [hevents]
        rfl
      refine (ensures_place hvalues false (ha.trans hw₂.arena) (hvalues _ htemporary)).bind
        fun r w₃ ⟨hw₃, hr⟩ => ?_
      refine (ensures_placeLeftOver warnUnused ts (ha.trans (hw₂.trans hw₃).arena) hrest).bind
        fun bindings w₄ ⟨hw₄, hbindings⟩ => ?_
      refine ensures_pure ⟨(hw₂.trans hw₃).trans hw₄, fun v hv => ?_⟩
      rcases List.mem_cons.1 hv with rfl | hv
      · exact ⟨temporary, htemporary, rfl, hr.mono hw₄.arena⟩
      · exact hbindings v hv

/-- Placing a whole region: what is left over is bound around it. -/
theorem ensures_placeAll (warnUnused : Bool) {body : NodeId} (ha : a.Extends w.arena)
    (hbody : ∃ t, a.Unfolds body t) : (p.placeAll warnUnused body).Ensures w fun new w' =>
      Grows w w' ∧ ∃ mid, Dressed p.temporaries a w'.arena body mid ∧
        LetAround p.temporaries a w'.arena mid new := by
  refine (ensures_place hvalues true ha hbody).bind fun r w₁ ⟨hw₁, hr⟩ => ?_
  refine (ensures_placeLeftOver hvalues warnUnused p.temporaries.zipIdx (ha.trans hw₁.arena)
    ?_).bind fun bindings w₂ ⟨hw₂, hbindings⟩ => ?_
  · rintro ⟨t, k⟩ ht
    exact List.mem_of_getElem? (List.mk_mem_zipIdx_iff_getElem?.1 ht)
  · refine (gives_addUnless_get _ _ _).ensures.mono fun new w₃ ⟨hext₃, hw₃, hnew⟩ => ?_
    refine ⟨(hw₁.trans hw₂).trans ⟨hext₃, by rw [hw₃]⟩, r.1,
      hr.mono (hw₂.arena.trans hext₃), ?_⟩
    rcases hnew with ⟨-, rfl⟩ | ⟨hne, hnew⟩
    · exact .inl rfl
    · refine .inr ⟨bindings, hnew, by simpa using hne, fun v hv => ?_⟩
      obtain ⟨s, hs, hname, hvalue⟩ := hbindings v hv
      exact ⟨s, hs, hname, hvalue.mono hext₃⟩

end

end Plan

/-- Binding the temporaries of a region in its body dresses the body, and puts what is left over
around it.  Where there are no temporaries, the body stays. -/
theorem ensures_bindTemporaries {temporaries : List Temporary} {body : NodeId}
    {w : Workspace Memory} (hvalues : ∀ s ∈ temporaries, ∃ t, w.arena.Unfolds s.value t)
    (hbody : ∃ t, w.arena.Unfolds body t) :
    (bindTemporaries temporaries body).Ensures w fun new w' =>
      Grows w w' ∧ w'.memory = w.memory ∧ (temporaries = [] → new = body) ∧
        ∃ mid, Dressed temporaries w.arena w'.arena body mid ∧
          LetAround temporaries w.arena w'.arena mid new := by
  unfold bindTemporaries
  split
  · obtain ⟨t, ht⟩ := hbody
    exact ensures_pure ⟨.refl _, rfl, fun _ => rfl, body, .refl (.refl _) ht, .inl rfl⟩
  · next hne =>
    refine gives_getMemory.ensures.bind ?_
    rintro _ w₁ ⟨rfl, rfl⟩
    refine ensures_ask_bind fun plan hplan => ?_
    have htemporaries : plan.temporaries = temporaries := by
      obtain ⟨_, -, hplan⟩ := exists_of_bind_eq_ok hplan
      cases hplan
      rfl
    subst htemporaries
    refine (ensures_within (Plan.ensures_placeAll hvalues _ (.refl _) hbody)).bind ?_
    rintro r w₂ ⟨v, ⟨hgrows, hnew⟩, rfl⟩
    exact ensures_pure ⟨⟨hgrows.arena, hgrows.extracted⟩, rfl,
      fun hnil => absurd (List.isEmpty_iff.2 hnil) hne, hnew⟩

end Extraction

end TensorRecipe
