import TensorRecipe.Proofs.Extraction.Mirroring
import TensorRecipe.Proofs.Extraction.Visits

/-!
# Visits mirror trees

What a visit leaves of a tree mirrors it (`Cleared`): the sums that lets bind stay, and any other is
now a name that was minted for it.  The temporaries that wait for their place mirror their sums
likewise (`Kept`).  There is one lemma for each kind of node, and from these it follows of the tree
(`ensures_replaceSums`).
-/

namespace TensorRecipe

theorem Arena.Unfolds.names {a : Arena} {root c : NodeId} {t : Tree} (h : a.Unfolds root t)
    (hc : a.Reaches root c) : ∃ u, a.Unfolds c u ∧ ∀ x ∈ u.names, x ∈ t.names := by
  obtain ⟨u, hu, -⟩ := h.reaches hc
  refine ⟨u, hu, fun x hx => ?_⟩
  obtain ⟨shape, hshape, hx⟩ := Tree.mem_names_iff.1 hx
  obtain ⟨d, n, hd, hn, rfl⟩ := hu.mem_shapes_iff.1 hshape
  exact Tree.mem_names_iff.2 ⟨_, h.mem_shapes_iff.2 ⟨d, n, hc.trans hd, hn, rfl⟩, hx⟩

namespace Extraction

open PassM

/-! ### Workspaces -/

/-- The arena and the log grow. -/
structure Later (w w' : Workspace Memory) : Prop where
  arena : w.arena.Extends w'.arena
  logged : extractions w.events ⊆ extractions w'.events

namespace Later

variable {w w' w'' : Workspace Memory}

theorem refl (w : Workspace Memory) : Later w w := ⟨.refl _, fun _ he => he⟩

theorem trans (h : Later w w') (h' : Later w' w'') : Later w w'' :=
  ⟨h.arena.trans h'.arena, fun _ he => h'.logged (h.logged he)⟩

theorem of_grows (h : Grows w w') : Later w w' := ⟨h.arena, h.extracted ▸ fun _ he => he⟩

theorem extend {b : Arena} (h : w.arena.Extends b) : Later w { w with arena := b } :=
  ⟨h, fun _ he => he⟩

end Later

/-- What became of a tree of `a` by now, where the sums in `bound` are kept. -/
abbrev Replaces (a : Arena) (bound : List NodeId) (w : Workspace Memory) :
    Bool → NodeId → NodeId → Prop :=
  Mirrors a w.arena (· ∈ bound) (extractions w.events)

theorem Replaces.mono {a : Arena} {bound : List NodeId} {w w' : Workspace Memory} {named : Bool}
    {id new : NodeId} (hw : Later w w') (h : Replaces a bound w named id new) :
    Replaces a bound w' named id new :=
  Mirrors.mono hw.arena hw.logged h

theorem Replaces.growth {a : Arena} {bound : List NodeId} :
    Growth Later fun w => Replaces a bound w false :=
  ⟨.refl, .trans, Later.arena, .extend, Replaces.mono⟩

/-- While the sums of the tree are replaced, the sums that lets bind stay noted, names are minted
afresh for sums of the tree, and the temporaries have such names. -/
structure Kept (a : Arena) (root : NodeId) (t : Tree) (bound : List NodeId)
    (w : Workspace Memory) : Prop where
  arena : a.Extends w.arena
  noted : w.memory.bound = bound
  reserved : ∀ x ∈ t.names, x ∈ w.memory.namer.reserved
  logged : ∀ e ∈ extractions w.events, e.1 ∉ t.names ∧ a.Reaches root e.2
  known : ∀ e ∈ w.memory.region.known, (e.2, e.1.1) ∈ extractions w.events
  pending : ∀ s ∈ w.memory.region.pending, ∃ c,
    MintedFor a (· ∈ bound) (extractions w.events) s.name c ∧ Replaces a bound w true c s.value

variable {a : Arena} {root id new : NodeId} {t : Tree} {bound : List NodeId}
  {w w' : Workspace Memory} {scopes : List Scope}

/-- Nothing is lost while memory and log stay as they are. -/
theorem Kept.grow (h : Kept a root t bound w) (hw : Grows w w') (hmemory : w'.memory = w.memory) :
    Kept a root t bound w' := by
  have hlater := Later.of_grows hw
  refine ⟨h.arena.trans hw.arena, ?_, ?_, hw.extracted ▸ h.logged, ?_, ?_⟩
  all_goals rw [hmemory]
  · exact h.noted
  · exact h.reserved
  · exact fun e he => hlater.logged (h.known e he)
  · intro s hs
    obtain ⟨c, hminted, hvalue⟩ := h.pending s hs
    exact ⟨c, hminted.mono hlater.logged, hvalue.mono hlater⟩

theorem Kept.of_lastScope (h : Kept a root t bound w) (n : Nat) :
    Kept a root t bound { w with memory := { w.memory with lastScope := n } } :=
  ⟨h.arena, h.noted, h.reserved, h.logged, h.known, h.pending⟩

theorem Kept.enter (h : Kept a root t bound w) :
    Kept a root t bound { w with memory := { w.memory with region := .empty } } :=
  ⟨h.arena, h.noted, h.reserved, h.logged, by simp [Region.empty], by simp [Region.empty]⟩

/-- Back in a region that was left before. -/
theorem Kept.leave (h : Kept a root t bound w') (hw : Kept a root t bound w) (hlater : Later w w') :
    Kept a root t bound { w' with memory := { w'.memory with region := w.memory.region } } := by
  refine ⟨h.arena, h.noted, h.reserved, h.logged, fun e he => hlater.logged (hw.known e he),
    fun s hs => ?_⟩
  obtain ⟨c, hminted, hvalue⟩ := hw.pending s hs
  exact ⟨c, hminted.mono hlater.logged, Mirrors.mono hlater.arena hlater.logged hvalue⟩

theorem Mints.later {name : String} {key : NodeId × Nat} {value : NodeId}
    (h : Mints w w' name key value) : Later w w' := by
  refine ⟨h.arena, fun e he => ?_⟩
  rw [h.extracted]
  exact List.mem_cons_of_mem _ he

theorem Kept.mint (h : Kept a root t bound w) {name : String} {serial : Nat} {value : NodeId}
    (hm : Mints w w' name (id, serial) value) (hid : a.Reaches root id)
    (hminted : MintedFor a (· ∈ bound) (extractions w'.events) name id)
    (hvalue : Replaces a bound w true id value) : Kept a root t bound w' := by
  refine ⟨h.arena.trans hm.arena, hm.bound.trans h.noted, fun x hx => ?_, fun e he => ?_,
    fun e he => ?_, fun s hs => ?_⟩
  · exact hm.reserved ▸ List.mem_cons_of_mem _ (h.reserved x hx)
  · rw [hm.extracted] at he
    rcases List.mem_cons.1 he with rfl | he
    · exact ⟨fun hx => hm.fresh (h.reserved _ hx), hid⟩
    · exact h.logged e he
  · rw [hm.region] at he
    rcases List.mem_cons.1 he with rfl | he
    · exact hminted.logged
    · exact hm.later.logged (h.known e he)
  · rw [hm.region] at hs
    rcases List.mem_append.1 hs with hs | hs
    · obtain ⟨c, hc, hv⟩ := h.pending s hs
      exact ⟨c, hc.mono hm.later.logged, hv.mono hm.later⟩
    · obtain rfl := List.mem_singleton.1 hs
      exact ⟨id, hminted, hvalue.mono hm.later⟩

theorem Kept.stores (h : a.Unfolds root t) (hw : Kept a root t bound w) :
    Stores a root (· ∈ bound) (extractions w.events) w.memory.region.pending w.arena := by
  refine ⟨fun c hc => ?_, fun e he => (hw.logged e he).2, hw.pending⟩
  obtain ⟨u, hu, hnames⟩ := h.names hc
  refine ⟨u, hu.mono hw.arena, fun s hs hx => ?_⟩
  obtain ⟨c, hminted, -⟩ := hw.pending s hs
  exact (hw.logged _ hminted.logged).1 (hnames _ hx)

/-- The tree at a node is visited, since the workspace was `w`.  Where there is nothing to replace
in it, the region stays as it was. -/
structure KeptSince (a : Arena) (root : NodeId) (t : Tree) (bound : List NodeId) (id : NodeId)
    (w v : Workspace Memory) : Prop where
  kept : Kept a root t bound v
  region : a.Settled (· ∈ bound) id → v.memory.region = w.memory.region

/-- The sums in the tree at a node have been replaced. -/
structure Cleared (a : Arena) (root : NodeId) (t : Tree) (bound : List NodeId)
    (w : Workspace Memory) (id new : NodeId) (w' : Workspace Memory) : Prop
    extends KeptSince a root t bound id w w' where
  later : Later w w'
  replaces : Replaces a bound w' false id new

/-- The visit replaces the sums at the nodes of a tree. -/
def Clears (a : Arena) (root : NodeId) (t : Tree) (bound : List NodeId) (visit : ScopedVisit) :
    Prop :=
  ∀ {id : NodeId} {scopes : List Scope} {w : Workspace Memory}, a.Reaches root id →
    Kept a root t bound w → (visit id scopes).Ensures w fun r w' =>
      Cleared a root t bound w id r.1 w'

variable {visit : ScopedVisit}

theorem ensures_openScope {indices : List Index} {names : List String}
    (hw : Kept a root t bound w) :
    (openScope indices names scopes).Ensures w fun _ w' => Kept a root t bound w' ∧
      Later w w' ∧ w'.memory.region = w.memory.region := by
  refine ensures_ask_bind fun factors _ => ?_
  refine gives_remember.ensures.bind ?_
  rintro _ w₁ rfl
  refine gives_getMemory.ensures.bind ?_
  rintro m _ ⟨-, rfl⟩
  exact ensures_pure ⟨hw.of_lastScope _, ⟨.refl _, fun _ he => he⟩, rfl⟩

/-! ### One node -/

section

variable (hv : Clears a root t bound visit) (hid : a.Reaches root id)

include hv hid

/-- A node is made anew over its visited children, if it is no sum that is to be replaced. -/
theorem ensures_rebuild {node : Node} (hn : a.get id = .ok node) (hbound : a.IsSum id → id ∈ bound)
    (hw : Kept a root t bound w) : (Rule.rebuild visit id node scopes).Ensures w fun r w' =>
      Cleared a root t bound w id r.1 w' := by
  have hvisit : ∀ c ∈ node.children, ∀ passed v, KeptSince a root t bound id w v →
      (visit c passed).Ensures v fun r v' => Later v v' ∧
        KeptSince a root t bound id w v' ∧ Replaces a bound v' false c r.1 := by
    intro c hc passed v ⟨hkept, hregion⟩
    refine (hv (hid.tail ⟨node, hn, hc⟩) hkept).mono fun r v' hr => ?_
    refine ⟨hr.later, ⟨hr.kept, fun hs => ?_⟩, hr.replaces⟩
    exact (hr.region (hs.child ⟨node, hn, hc⟩)).trans (hregion hs)
  refine (Rule.ensures_rebuild Replaces.growth (I := fun v _ => KeptSince a root t bound id w v)
    (fun v _ b hvb hI => ⟨hI.kept.grow ⟨hvb, rfl⟩ rfl, hI.region⟩) (hw.arena.get hn) hvisit
    ⟨hw, fun _ => rfl⟩).mono fun r w' ⟨hlater, hw', new, hnew, hshape, hR, hsame⟩ => ?_
  exact ⟨hw', hlater, .of_forall₂ hn hnew hshape hR (fun hs => .inr (hbound hs)) hsame⟩

theorem ensures_visitLoop {node : Node} {indices : List Index} (hn : a.get id = .ok node)
    (hbound : a.IsSum id → id ∈ bound) (hw : Kept a root t bound w) :
    (visitLoop indices visit id node scopes).Ensures w fun r w' =>
      Cleared a root t bound w id r.1 w' := by
  refine (ensures_openScope hw).bind fun inner w₁ ⟨hw₁, hlater, hregion⟩ => ?_
  refine (ensures_rebuild hv hid hn hbound hw₁).bind fun r w₂ hr => ?_
  exact ensures_pure ⟨⟨hr.kept, fun hs => (hr.region hs).trans hregion⟩, hlater.trans hr.later,
    hr.replaces⟩

/-- A sum that no let binds becomes a temporary. -/
theorem ensures_extractSum {indices : List Index} {body : NodeId} {serial : Nat}
    (hn : a.get id = .ok (.indexSum indices body)) (hunbound : id ∉ bound)
    (hw : Kept a root t bound w) :
    (extractSum indices body visit id serial scopes).Ensures w fun new w' =>
      Later w w' ∧ Kept a root t bound w' ∧ Replaces a bound w' false id new := by
  refine (ensures_openScope hw).bind ?_
  rintro inner w₁ ⟨hw₁, hlater₁, _⟩
  have hbody : a.Child id body := ⟨_, hn, by simp [Node.children]⟩
  refine (hv (hid.tail hbody) hw₁).bind fun r w₂ hr => ?_
  refine (ensures_addUnless fun hsame => hsame ▸ hr.kept.arena.get hn).bind ?_
  rintro value w₃ ⟨hext₃, hw₃, hget, hsame⟩
  have hgrows₃ : Grows w₂ w₃ := ⟨hext₃, by rw [hw₃]⟩
  have hkept₃ : Kept a root t bound w₃ := hr.kept.grow hgrows₃ (by rw [hw₃])
  have hvalue : Replaces a bound w₃ true id value :=
    .of_forall₂ hn hget rfl (.cons (hr.replaces.mono (.of_grows hgrows₃)) .nil)
      (fun _ => .inl rfl) fun heq => hsame (List.singleton_inj.1 heq)
  refine gives_mint.ensures.mono ?_
  rintro new w₄ ⟨name, hm, hnew⟩
  have hminted : MintedFor a (· ∈ bound) (extractions w₄.events) name id :=
    ⟨by simp [hm.extracted], ⟨_, _, hn⟩, hunbound⟩
  obtain ⟨_, hentry, hshape, -⟩ := hnew.get
  refine ⟨?_, hkept₃.mint hm hid hminted hvalue, .reference hminted (hentry.trans ?_)⟩
  · exact hlater₁.trans (hr.later.trans ((Later.of_grows hgrows₃).trans hm.later))
  · rw [Node.eq_var hshape]

theorem ensures_visitSum {indices : List Index} {body : NodeId}
    (hn : a.get id = .ok (.indexSum indices body)) (hw : Kept a root t bound w) :
    (visitSum indices body visit id scopes).Ensures w fun r w' =>
      Cleared a root t bound w id r.1 w' := by
  refine gives_getMemory.ensures.bind ?_
  rintro _ v ⟨rfl, rfl⟩
  rw [hw.noted]
  split
  · next hmem => exact ensures_visitLoop hv hid hn (fun _ => hmem) hw
  · next hmem =>
    -- so something in it is to be replaced: it is a sum itself
    have hne : ¬ a.Settled (· ∈ bound) id := fun hs => hmem (hs id .refl ⟨_, _, hn⟩)
    refine ensures_ask_bind fun serial _ => ?_
    split
    · next name hfind =>
      obtain ⟨e, he, rfl⟩ := Option.map_eq_some_iff.1 hfind
      have hkey : e.1 = (id, serial) := by simpa using List.find?_some he
      have hlogged : (e.2, id) ∈ extractions v.events := by
        simpa [hkey] using hw.known e (List.mem_of_find?_eq_some he)
      refine gives_addNode.ensures.bind ?_
      rintro new w₁ ⟨rfl, rfl⟩
      have hgrows : Grows v { v with arena := v.arena.addNode (.var e.2) } :=
        ⟨.addNode _ _, rfl⟩
      exact ensures_pure ⟨⟨hw.grow hgrows rfl, fun hs => absurd hs hne⟩, .of_grows hgrows,
        .reference ⟨hlogged, ⟨_, _, hn⟩, hmem⟩ (Arena.get_nextId_addNode _ _)⟩
    · refine (ensures_extractSum hv hid hn hmem hw).bind ?_
      rintro new w₁ ⟨hlater, hw₁, hnew⟩
      exact ensures_pure ⟨⟨hw₁, fun hs => absurd hs hne⟩, hlater, hnew⟩

/-! ### Lets -/

omit hid in
theorem ensures_visitValues : ∀ (bindings : List Binding) (names : List String)
    {w : Workspace Memory}, (∀ b ∈ bindings, a.Reaches root b.value) → Kept a root t bound w →
      (visitValues visit scopes bindings names).Ensures w fun r w' =>
        Later w w' ∧ Kept a root t bound w' ∧
          r.1.map Binding.name = bindings.map Binding.name ∧
          List.Forall₂ (Replaces a bound w' false) (bindings.map Binding.value)
            (r.1.map Binding.value) ∧
          ((∀ b ∈ bindings, a.Settled (· ∈ bound) b.value) →
            w'.memory.region = w.memory.region)
  | [], _, _, _, hw => ensures_pure ⟨.refl _, hw, rfl, .nil, fun _ => rfl⟩
  | b :: bindings, names, w, hids, hw => by
    refine (ensures_openScope hw).bind ?_
    rintro inner w₁ ⟨hw₁, hlater, hregion⟩
    refine (hv (hids b (by simp)) hw₁).bind fun r w₂ hr => ?_
    refine (ensures_visitValues bindings (b.name :: names)
      (fun c hc => hids c (List.mem_cons_of_mem _ hc)) hr.kept).bind ?_
    rintro rs w₃ ⟨hlater₃, hw₃, hnames, hR, hrest⟩
    refine ensures_pure ⟨hlater.trans (hr.later.trans hlater₃), hw₃, by simp [hnames],
      .cons (hr.replaces.mono hlater₃) hR, fun hs => ?_⟩
    rw [hrest fun c hc => hs c (List.mem_cons_of_mem _ hc), hr.region (hs b (by simp)), hregion]

theorem ensures_visitLet {bindings : List Binding} {body : NodeId}
    (hn : a.get id = .ok (.letIn bindings body)) (hw : Kept a root t bound w) :
    (visitLet bindings body visit id scopes).Ensures w fun r w' =>
      Cleared a root t bound w id r.1 w' := by
  have hvalue : ∀ b ∈ bindings, a.Child id b.value := fun b hb =>
    ⟨_, hn, List.mem_append_left _ (List.mem_map_of_mem hb)⟩
  have hbody : a.Child id body := ⟨_, hn, by simp [Node.children]⟩
  refine (ensures_visitValues hv bindings [] (fun b hb => hid.tail (hvalue b hb)) hw).bind ?_
  rintro r w₁ ⟨hlater₁, hw₁, hnames, hR, hregion⟩
  refine (ensures_openScope hw₁).bind ?_
  rintro inner w₂ ⟨hw₂, hlater₂, hregion₂⟩
  refine (hv (hid.tail hbody) hw₂).bind fun new w₃ hnew => ?_
  have hunchanged : new.1 = body ∧ r.1 = bindings →
      w₃.arena.get id = .ok (.letIn r.1 new.1) := by
    rintro ⟨hbody, hbindings⟩
    rw [hbody, hbindings]
    exact hnew.kept.arena.get hn
  refine (ensures_addUnless hunchanged).bind ?_
  rintro id' w₄ ⟨hext₄, hw₄, hget, hsame⟩
  have hgrows₄ : Grows w₃ w₄ := ⟨hext₄, by rw [hw₄]⟩
  have hlater₄ : Later w₁ w₄ := hlater₂.trans (hnew.later.trans (.of_grows hgrows₄))
  have hchildren : List.Forall₂ (Replaces a bound w₄ false)
      (Node.letIn bindings body).children (Node.letIn r.1 new.1).children :=
    List.rel_append (hR.imp fun _ _ => Replaces.mono hlater₄)
      (.cons (hnew.replaces.mono (.of_grows hgrows₄)) .nil)
  refine ensures_pure ⟨⟨hnew.kept.grow hgrows₄ (by rw [hw₄]), fun hs => ?_⟩,
    hlater₁.trans hlater₄, ?_⟩
  · rw [hw₄]
    refine (hnew.region (hs.child hbody)).trans (hregion₂.trans (hregion fun b hb => ?_))
    exact hs.child (hvalue b hb)
  · refine .of_forall₂ hn hget (congrArg Shape.letIn hnames) hchildren ?_ fun heq => ?_
    · rintro ⟨_, _, hsum⟩
      cases hn.symm.trans hsum
    · obtain ⟨hvalues, hbodies⟩ := List.append_inj' heq rfl
      exact hsame ⟨List.singleton_inj.1 hbodies, Binding.ext_all hnames hvalues⟩

/-! ### Regions -/

theorem ensures_visitRecipe (h : a.Unfolds root t) {r : Recipe}
    (hn : a.get id = .ok (.recipe r)) (hw : Kept a root t bound w) :
    (visitRecipe r visit id scopes).Ensures w fun q w' =>
      Cleared a root t bound w id q.1 w' := by
  have hbody : a.Child id r.body := ⟨_, hn, by simp [Node.children]⟩
  refine gives_exchangeRegion.ensures.bind ?_
  rintro _ w₁ ⟨rfl, rfl⟩
  refine (hv (hid.tail hbody) hw.enter).bind fun q w₂ hq => ?_
  refine gives_exchangeRegion.ensures.bind ?_
  rintro _ w₃ ⟨rfl, rfl⟩
  have hlater₂ : Later w w₂ := ⟨hq.later.arena, hq.later.logged⟩
  have hstores : Stores a root (· ∈ bound) (extractions w₂.events) w₂.memory.region.pending
      w₂.arena := hq.kept.stores h
  refine (ensures_bindTemporaries_mirrors (w := { w₂ with memory :=
    { w₂.memory with region := w.memory.region } }) hstores (hid.tail hbody) hq.replaces
    fun hne hs => hne ?_).bind ?_
  · -- nothing was to be replaced, so nothing is pending
    rw [hq.region hs]
    rfl
  rintro new w₄ ⟨hgrows₄, hmemory, hnew⟩
  have hkept₄ : Kept a root t bound w₄ := (hq.kept.leave hw hlater₂).grow hgrows₄ hmemory
  have hlogged : extractions w₄.events = extractions w₂.events := hgrows₄.extracted
  have hlater₄ : Later w w₄ :=
    ⟨hlater₂.arena.trans hgrows₄.arena, hlogged ▸ hlater₂.logged⟩
  have hnew₄ : Replaces a bound w₄ false r.body new := by
    rw [Replaces, hlogged]
    exact hnew
  have hunchanged : new = r.body → w₄.arena.get id = .ok (.recipe { r with body := new }) :=
    fun hsame => hsame ▸ hkept₄.arena.get hn
  refine (ensures_addUnless hunchanged).bind ?_
  rintro id' w₅ ⟨hext₅, hw₅, hget, hsame⟩
  have hgrows₅ : Grows w₄ w₅ := ⟨hext₅, by rw [hw₅]⟩
  refine ensures_pure ⟨⟨hkept₄.grow hgrows₅ (by rw [hw₅]), fun _ => by rw [hw₅, hmemory]⟩,
    hlater₄.trans (.of_grows hgrows₅), ?_⟩
  refine .of_forall₂ hn hget rfl (.cons (hnew₄.mono (.of_grows hgrows₅)) .nil) ?_ fun heq => ?_
  · rintro ⟨_, _, hs⟩
    cases hn.symm.trans hs
  · exact hsame (List.singleton_inj.1 heq)

end

/-! ### Whole trees -/

theorem clears_transformWithin (h : a.Unfolds root t) :
    ∀ depth, Clears a root t bound (rule.transformWithin depth)
  | 0, _, _, _, _, _ => ensures_throw
  | depth + 1, id, scopes, w, hid, hw => by
    have hv : Clears a root t bound (rule.transformWithin depth) := clears_transformWithin h depth
    refine Rule.ensures_transformWithin fun node hn' => ?_
    obtain ⟨⟨shape, children⟩, hu, -⟩ := h.reaches hid
    obtain ⟨node, hn, -⟩ := hu.get
    obtain rfl := Except.ok.inj ((hw.arena.get hn).symm.trans hn')
    cases node with
    | indexSum indices body => exact ensures_visitSum hv hid hn hw
    | forAll indices body =>
      refine ensures_visitLoop hv hid hn ?_ hw
      rintro ⟨_, _, hs⟩
      cases hn.symm.trans hs
    | letIn bindings body => exact ensures_visitLet hv hid hn hw
    | recipe r => exact ensures_visitRecipe hv hid h hn hw
    | _ =>
      refine ensures_rebuild hv hid hn ?_ hw
      rintro ⟨_, _, hs⟩
      cases hn.symm.trans hs

theorem ensures_replaceSums (h : a.Unfolds root t) (hw : Kept a root t bound w) :
    (replaceSums root).Ensures w fun id w' => Cleared a root t bound w root id w' :=
  (Rule.ensures_transform fun depth => clears_transformWithin h depth .refl hw).bind
    fun _ _ hr => ensures_pure hr

end Extraction

end TensorRecipe
