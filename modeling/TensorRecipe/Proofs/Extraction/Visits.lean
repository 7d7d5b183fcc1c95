import TensorRecipe.Proofs.Extraction.Replacing
import TensorRecipe.Proofs.Pass.Ensures

/-!
# What visits do

A visit that replaces the sums of a tree leaves the scopes as they are, and the tree has become a
draft (`Redrafts`).  There is one lemma for each kind of node: from visits of what is below a node to
a visit of the node.  In a well-formed tree every visit succeeds (`Visits`).
-/

namespace TensorRecipe

/-- The handle has an unfolding, and every index mentioned there resolves if `sure` holds. -/
structure Arena.FormedIf (sure : Prop) (a : Arena) (id : NodeId) (t : Tree) : Prop where
  unfolds : a.Unfolds id t
  resolves : sure → ∀ i ∈ t.indices, a.Resolves i

namespace Arena.FormedIf

variable {sure : Prop} {a b : Arena} {id : NodeId} {t : Tree}

theorem of_unfolds (h : a.Unfolds id t) : a.FormedIf False id t := ⟨h, False.elim⟩

theorem mono (h : a.FormedIf sure id t) (hab : a.Extends b) : b.FormedIf sure id t :=
  ⟨h.unfolds.mono hab, fun hsure i hi => (h.resolves hsure i hi).congr hab.indices⟩

theorem wellFormed (h : a.FormedIf sure id t) (hsure : sure) : a.WellFormed id t :=
  ⟨h.unfolds, h.resolves hsure⟩

theorem node {shape : Shape} {children : List Tree}
    (h : a.FormedIf sure id (.node shape children)) : ∃ node, a.get id = .ok node ∧
      node.shape = shape ∧ List.Forall₂ (a.FormedIf sure) node.children children := by
  refine h.unfolds.get_of_child fun c _ t ht hct => ⟨hct, fun hsure i hi => ?_⟩
  exact h.resolves hsure i (List.mem_append_right _ (Tree.mem_indicesAll.2 ⟨t, ht, hi⟩))

end Arena.FormedIf

namespace Extraction

open Draft PassM

/-- If the visit succeeds it replaces the sums of a tree, wherever in a region it is met; and it does
succeed if `sure` holds and all indices resolve. -/
def Redrafts (sure : Prop) (factors : Index → List Index) (used : List String)
    (visit : ScopedVisit) (t : Tree) : Prop :=
  ∀ {id : NodeId} {scopes : List Scope} {before : List (Reduction × Draft)} {w : Workspace Memory},
    State factors used before w → Numbered scopes w.memory.lastScope → w.arena.FormedIf sure id t →
      (visit id scopes).GivesIf sure w fun r w' => r.2 = scopes ∧ ∃ f floats after,
        Replaced factors used scopes before [t] w [r.1] w' [f] floats after

/-- The visit succeeds in replacing the sums of a tree, wherever in a region it is met. -/
def Visits (factors : Index → List Index) (used : List String) (visit : ScopedVisit) (t : Tree) :
    Prop :=
  ∀ {id : NodeId} {scopes : List Scope} {before : List (Reduction × Draft)} {w : Workspace Memory},
    State factors used before w → Numbered scopes w.memory.lastScope → w.arena.WellFormed id t →
      (visit id scopes).Gives w fun r w' => r.2 = scopes ∧ ∃ f floats after,
        Replaced factors used scopes before [t] w [r.1] w' [f] floats after

variable {sure : Prop} {factors : Index → List Index} {used : List String} {scopes : List Scope}
  {before : List (Reduction × Draft)} {w : Workspace Memory} {visit : ScopedVisit} {id : NodeId}

theorem binder_eq {shape : Shape} (h : shape.given = []) (k : Nat) :
    shape.binder factors k = ⟨shape.binds factors, []⟩ := by
  rw [Shape.binder, h, List.take_nil]

theorem eq_of_getElem?_singleton {α : Type} {x y : α} {k : Nat} (h : [x][k]? = some y) : y = x := by
  simpa using List.mem_of_getElem? h

/-! ### Several trees -/

theorem givesIf_all {ts : List Tree} (hv : ∀ t ∈ ts, Redrafts sure factors used visit t) :
    ∀ {ids : List NodeId} {before : List (Reduction × Draft)} {w : Workspace Memory},
      State factors used before w → Numbered scopes w.memory.lastScope →
        List.Forall₂ (w.arena.FormedIf sure) ids ts →
          (visit.all ids scopes).GivesIf sure w fun r w' => r.2 = scopes ∧ ∃ fs floats after,
            Replaced factors used scopes before ts w r.1 w' fs floats after := by
  induction ts with
  | nil =>
    rintro _ _ w hstate - ⟨⟩
    exact givesIf_pure ⟨rfl, [], [], _, .nil hstate⟩
  | cons t ts ih =>
    rintro _ _ w hstate hscopes (_ | ⟨hid, hids⟩)
    refine (hv t (by simp) hstate hscopes hid).bind ?_
    rintro ⟨new, passed⟩ w₁ ⟨rfl, f, floats, mid, hf⟩
    refine (ih (fun u hu => hv u (List.mem_cons_of_mem t hu)) hf.state
      (hscopes.mono hf.advances.lastScope)
      (hids.imp fun _ _ h => h.mono hf.advances.arena)).bind ?_
    rintro ⟨news, passed'⟩ w₂ ⟨rfl, gs, more, after, hgs⟩
    exact givesIf_pure ⟨rfl, _, _, _, hf.append hscopes hgs⟩

/-! ### Nodes that bind nothing -/

theorem givesIf_rebuild {node : Node} {ts : List Tree}
    (hv : ∀ t ∈ ts, Redrafts sure factors used visit t) (hstate : State factors used before w)
    (hscopes : Numbered scopes w.memory.lastScope) (hnode : w.arena.get id = .ok node)
    (hids : List.Forall₂ (w.arena.FormedIf sure) node.children ts)
    (hnames : ∀ y ∈ node.shape.names, y ∈ used)
    (hbinder : ∀ k, node.shape.binder factors k = .empty)
    (hrecipe : ∀ g transpose, node.shape ≠ .recipe g transpose) :
    (Rule.rebuild visit id node scopes).GivesIf sure w fun r w' => r.2 = scopes ∧ ∃ f floats after,
      Replaced factors used scopes before [.node node.shape ts] w [r.1] w' [f] floats after := by
  refine (givesIf_all hv hstate hscopes hids).bind ?_
  rintro ⟨news, passed⟩ w₁ ⟨rfl, fs, floats, after, h⟩
  have hlength : news.length = node.children.length := by
    rw [h.unfolds.length_eq, hids.length_eq, ← h.expand, List.length_map, List.length_map]
  have hchildren := Node.children_replaceChildren hlength
  have hinner : node.shape.IsInner ∨ fs = [] := by
    by_cases hs : node.shape.IsInner
    · exact .inl hs
    · have hts : ts = [] := (Arena.Unfolds.of_get hnode
        (hids.imp fun _ _ h => h.unfolds)).children_eq_nil hs
      exact .inr (List.map_eq_nil_iff.1 (h.expand.trans hts))
  rw [← hchildren] at h
  dsimp only
  rw [setChildren_eq hlength]
  refine (h.gives_node _ _ hnode (Node.shape_replaceChildren hlength)
    (fun heq => hchildren.trans heq) hinner hrecipe hnames fun k f _ x _ => ?_).bind_givesIf ?_
  · rw [hbinder]
    exact Binder.not_captures_empty
  · intro id' w₂ h'
    exact givesIf_pure ⟨rfl, _, _, _, h'⟩

/-! ### Scopes -/

theorem givesIf_openScope {indices : List Index} {names : List String}
    (hi : sure → ∀ i ∈ indices, w.arena.Resolves i) :
    (openScope indices names scopes).GivesIf sure w fun inner w' => ∃ s : Scope, inner = s :: scopes ∧
      s.serial = w.memory.lastScope + 1 ∧
      s.binder = ⟨indices ++ indices.flatMap w.arena.factors, names⟩ ∧
      w' = { w with memory := { w.memory with lastScope := s.serial } } := by
  refine givesIf_ask_bind (fun hsure => ⟨_, Arena.flatten_eq (hi hsure)⟩) fun flat hflat => ?_
  obtain ⟨-, rfl⟩ := Arena.of_flatten_eq_ok hflat
  refine gives_remember.bind_givesIf ?_
  rintro _ w₁ rfl
  refine gives_getMemory.bind_givesIf ?_
  rintro _ w₂ ⟨rfl, rfl⟩
  exact givesIf_pure ⟨_, rfl, rfl, rfl, rfl⟩

/-- A tree is visited in a scope opened for it.  Nothing that stays free in its draft is captured by
the scope. -/
theorem givesIf_inside {α : Type} {t : Tree} (hv : Redrafts sure factors used visit t)
    (hstate : State factors used before w) (hscopes : Numbered scopes w.memory.lastScope)
    (hid : w.arena.FormedIf sure id t) {indices : List Index} {names : List String}
    (hi : sure → ∀ i ∈ indices, w.arena.Resolves i) {rest : NodeId × List Scope → PassM Memory α}
    {Q : α → Workspace Memory → Prop}
    (hrest : ∀ new inner f floats after w',
      Replaced factors used scopes before [t] w [new] w' [f] floats after →
      (∀ x, Free x f → ¬ (Binder.mk (indices ++ indices.flatMap factors) names).Captures factors
        x.sum) → (rest (new, inner)).GivesIf sure w' Q) :
    (do
      let inner ← openScope indices names scopes
      let r ← visit id inner
      rest r : PassM Memory α).GivesIf sure w Q := by
  refine (givesIf_openScope hi).bind ?_
  rintro _ w₁ ⟨s, rfl, hserial, hbinder, hw₁⟩
  rw [hstate.factors_eq] at hbinder
  have hlast : w₁.memory.lastScope = s.serial := by rw [hw₁]
  have hle : w.memory.lastScope ≤ w₁.memory.lastScope := by omega
  have hext : w.arena.Extends w₁.arena := by
    rw [hw₁]
    exact .refl _
  have hreserved : ∀ x ∈ w.memory.namer.reserved, x ∈ w₁.memory.namer.reserved := by simp [hw₁]
  have hopen : Advances w w₁ [] := .of_grows hext (by rw [hw₁]) hreserved hle
  have hinner : Numbered (s :: scopes) w₁.memory.lastScope := by
    rw [hlast, hserial]
    exact hscopes.cons hserial
  refine (hv (hstate.mono hopen (by rw [hw₁])) hinner (hid.mono hext)).bind ?_
  rintro ⟨new, inner⟩ w' ⟨-, f, floats, after, h⟩
  obtain ⟨g, outside, hclosed, hfree⟩ := h.close hscopes hserial hstate hopen hlast
  rw [hbinder] at hfree
  exact hrest new inner g outside after w' hclosed hfree

/-- A loop is a scope. -/
theorem givesIf_visitLoop {node : Node} {indices : List Index} {t : Tree}
    (hv : Redrafts sure factors used visit t) (hstate : State factors used before w)
    (hscopes : Numbered scopes w.memory.lastScope) (hnode : w.arena.get id = .ok node)
    {body : NodeId} (hchildren : node.children = [body]) (hbody : w.arena.FormedIf sure body t)
    (hshape : node.shape = .forAll indices ∨ node.shape = .indexSum indices)
    (hi : sure → ∀ i ∈ indices, w.arena.Resolves i) :
    (visitLoop indices visit id node scopes).GivesIf sure w fun r w' => r.2 = scopes ∧
      ∃ f floats after,
        Replaced factors used scopes before [.node node.shape [t]] w [r.1] w' [f] floats after := by
  have hbinder : ∀ k, node.shape.binder factors k = ⟨indices ++ indices.flatMap factors, []⟩ := by
    rcases hshape with hs | hs <;> exact fun k => hs ▸ binder_eq rfl k
  have hinner : node.shape.IsInner := by
    rcases hshape with hs | hs <;> simp [hs, Shape.IsInner]
  have hnames : node.shape.names = [] := by
    rcases hshape with hs | hs <;> rw [hs] <;> rfl
  simp only [visitLoop, Rule.rebuild, hchildren, Visit.all, bind_assoc, pure_bind]
  refine givesIf_inside hv hstate hscopes hbody hi ?_
  intro new inner f floats after w' h hfree
  have hlength : [new].length = node.children.length := by rw [hchildren]; rfl
  have hnew := Node.children_replaceChildren hlength
  rw [← hnew] at h
  rw [setChildren_eq hlength]
  refine (h.gives_node _ _ hnode (Node.shape_replaceChildren hlength) (fun heq => ?_)
    (.inl hinner) ?_ (by simp [hnames]) fun k g hk x hx => ?_).bind_givesIf ?_
  · exact hnew.trans heq
  · rcases hshape with hs | hs <;> simp [hs]
  · rw [hbinder]
    exact hfree x (eq_of_getElem?_singleton hk ▸ hx)
  · intro id' w₂ h'
    exact givesIf_pure ⟨rfl, _, _, _, h'⟩

/-! ### Sums -/

theorem gives_freshName : freshName.Gives w fun name w' => name ∉ w.memory.namer.reserved ∧
    w'.memory.namer.reserved = name :: w.memory.namer.reserved ∧
      w' = { w with memory := { w.memory with namer := w'.memory.namer } } := by
  refine gives_getMemory.bind ?_
  rintro _ w₁ ⟨rfl, hw⟩
  obtain rfl : w = w₁ := hw.symm
  refine gives_remember.bind ?_
  rintro _ w₂ rfl
  exact gives_pure ⟨Namer.fresh_notMem _, Namer.reserved_fresh _, rfl⟩

theorem gives_mint {value : NodeId} {serial : Nat} :
    (do
      let name ← freshName
      PassM.log (.extracted name id serial)
      PassM.remember fun m => { m with region := m.region.add (id, serial) { name, value } }
      PassM.addNode (.var name) : PassM Memory NodeId).Gives w fun new w' =>
        ∃ name, Mints w w' name (id, serial) value ∧
          w'.arena.Unfolds new (.node (.var name) []) := by
  refine gives_freshName.bind ?_
  rintro name w₁ ⟨hfresh, hreserved, hw₁⟩
  refine gives_log.bind ?_
  rintro _ w₂ hw₂
  refine gives_remember.bind ?_
  rintro _ w₃ hw₃
  refine gives_addNode.mono ?_
  rintro new w₄ ⟨rfl, rfl⟩
  have harena : w₃.arena = w.arena := by rw [hw₃, hw₂, hw₁]
  refine ⟨name, ⟨?_, ?_, ?_, ?_, ?_, hfresh, ?_⟩, Arena.unfolds_addNode .nil⟩
  · rw [harena]
    exact .addNode _ _
  · rw [hw₃, hw₂, hw₁]
  · rw [hw₃, hw₂, ← hreserved]
  · rw [hw₃, hw₂, hw₁]
  · rw [hw₃, hw₂, hw₁]
  · rw [hw₃, hw₂, hw₁]

theorem givesIf_extractSum {indices : List Index} {body : NodeId} {t : Tree} {serial : Nat}
    (hv : Redrafts sure factors used visit t) (hstate : State factors used before w)
    (hscopes : Numbered scopes w.memory.lastScope)
    (hnode : w.arena.get id = .ok (.indexSum indices body)) (hbody : w.arena.FormedIf sure body t)
    (hi : sure → ∀ i ∈ indices, w.arena.Resolves i) (hnames : ∀ y ∈ t.names, y ∈ used)
    (hhome : IsHome factors (.node (.indexSum indices) [t]) scopes serial) :
    (extractSum indices body visit id serial scopes).GivesIf sure w fun new w' => ∃ f floats after,
      Replaced factors used scopes before [.node (.indexSum indices) [t]] w [new] w' [f] floats
        after := by
  have hid : w.arena.Unfolds id (.node (.indexSum indices) [t]) :=
    .of_get hnode (.cons hbody.unfolds .nil)
  refine givesIf_inside hv hstate hscopes hbody hi ?_
  intro new inner f floats after w₁ h hfree
  refine (h.gives_node (.indexSum indices new) (new = body) hnode rfl ?_
    (.inl (by simp [Node.shape, Shape.IsInner])) (by simp [Node.shape])
    (by simp [Node.shape, Shape.names]) fun k g hk x hx => ?_).bind_givesIf ?_
  · rintro rfl
    rfl
  · rw [Node.shape, binder_eq rfl]
    exact hfree x (eq_of_getElem?_singleton hk ▸ hx)
  · intro value w₂ h'
    refine gives_mint.givesIf.mono ?_
    rintro id' w₃ ⟨name, hm, hnew⟩
    have hsum : ∀ y ∈ (Tree.node (.indexSum indices) [t]).names, y ∈ used := by
      simpa [Tree.names, Tree.namesAll, Shape.names] using hnames
    exact ⟨_, _, _, h'.extract (x := ⟨name, .node (.indexSum indices) [t], serial⟩) hscopes hid hsum
      hhome (by simp [core_node, Node.shape]) hm hnew⟩

/-- A sum stays where a let binds it; otherwise the answer refers to its reduction. -/
theorem givesIf_visitSum {indices : List Index} {body : NodeId} {t : Tree}
    (hv : Redrafts sure factors used visit t) (hstate : State factors used before w)
    (hscopes : Numbered scopes w.memory.lastScope)
    (hnode : w.arena.get id = .ok (.indexSum indices body))
    (hid : w.arena.FormedIf sure id (.node (.indexSum indices) [t]))
    (hbody : w.arena.FormedIf sure body t) (hi : sure → ∀ i ∈ indices, w.arena.Resolves i)
    (hnames : ∀ y ∈ t.names, y ∈ used) :
    (visitSum indices body visit id scopes).GivesIf sure w fun r w' => r.2 = scopes ∧ ∃ f floats after,
      Replaced factors used scopes before [.node (.indexSum indices) [t]] w [r.1] w' [f] floats
        after := by
  refine gives_getMemory.bind_givesIf ?_
  rintro _ w₁ ⟨rfl, hw⟩
  obtain rfl : w = w₁ := hw.symm
  split
  · exact givesIf_visitLoop hv hstate hscopes hnode rfl hbody (.inr rfl) hi
  refine givesIf_ask_bind (fun hsure => exists_bindingSerial (hid.wellFormed hsure) scopes)
    fun serial hserial => ?_
  have hhome := isHome_of_bindingSerial hid.unfolds hserial
  rw [hstate.factors_eq] at hhome
  split
  · next name hfind =>
    obtain ⟨b, hb, rfl, rfl, hsum⟩ := hstate.exists_of_find? hid.unfolds hfind
    refine gives_addNode.bind_givesIf ?_
    rintro new w' ⟨rfl, hw'⟩
    have hext : w.arena.Extends w'.arena := by
      rw [hw']
      exact .addNode _ _
    have hnew : w'.arena.Unfolds w.arena.nextId (.node (.var b.1.name) []) := by
      rw [hw']
      exact Arena.unfolds_addNode .nil
    have hgrow : Advances w w' [] :=
      .of_grows hext (by rw [hw']) (by simp [hw']) (by rw [hw'])
    rw [← hsum] at hhome ⊢
    exact givesIf_pure ⟨rfl, _, _, _, .refer hb hstate hhome hgrow (by rw [hw']) hnew⟩
  · refine (givesIf_extractSum hv hstate hscopes hnode hbody hi hnames hhome).bind ?_
    rintro new w' h
    exact givesIf_pure ⟨rfl, h⟩

/-! ### Lets -/

theorem captures_names_congr {is : List Index} {xs ys : List String} {t : Tree}
    (h : ∀ x, x ∈ xs ↔ x ∈ ys) :
    (Binder.mk is xs).Captures factors t ↔ (Binder.mk is ys).Captures factors t := by
  unfold Binder.Captures
  simp only [h]

/-- Each value of a let is visited in a scope of the names before it. -/
theorem givesIf_visitValues {ts : List Tree} (hv : ∀ t ∈ ts, Redrafts sure factors used visit t) :
    ∀ {bindings : List Binding} {names : List String} {before : List (Reduction × Draft)}
      {w : Workspace Memory}, State factors used before w → Numbered scopes w.memory.lastScope →
        List.Forall₂ (w.arena.FormedIf sure) (bindings.map Binding.value) ts →
          (visitValues visit scopes bindings names).GivesIf sure w fun r w' =>
            r.1.map Binding.name = bindings.map Binding.name ∧
            r.2 = (bindings.map Binding.name).reverse ++ names ∧ ∃ fs floats after,
              Replaced factors used scopes before ts w (r.1.map Binding.value) w' fs floats after ∧
              ∀ (k : Nat) f, fs[k]? = some f → ∀ x, Free x f →
                ¬ (Binder.mk [] (names ++ (bindings.map Binding.name).take k)).Captures factors
                  x.sum := by
  induction ts with
  | nil =>
    rintro bindings names _ w hstate - hids
    obtain rfl : bindings = [] := by simpa using hids
    exact givesIf_pure ⟨rfl, rfl, [], [], _, .nil hstate, by simp⟩
  | cons t ts ih =>
    rintro (_ | ⟨b, bindings⟩) names before w hstate hscopes hids
    · simp at hids
    obtain ⟨hid, hids⟩ := List.forall₂_cons.1 hids
    refine givesIf_inside (hv t (by simp)) hstate hscopes hid (by simp) ?_
    intro value inner f floats mid w₁ hf hfree
    refine (ih (fun u hu => hv u (List.mem_cons_of_mem t hu)) hf.state
      (hscopes.mono hf.advances.lastScope)
      (hids.imp fun _ _ h => h.mono hf.advances.arena)).bind ?_
    rintro ⟨news, names'⟩ w₂ ⟨hnames, rfl, gs, more, after, hgs, hothers⟩
    refine givesIf_pure ⟨?_, ?_, _, _, _, hf.append hscopes hgs, ?_⟩
    · simp [hnames]
    · simp
    · rintro (_ | k) g hg x hx
      · obtain rfl : f = g := by simpa using hg
        simpa using hfree x hx
      · intro hc
        refine hothers k g (by simpa using hg) x hx ((captures_names_congr fun y => ?_).1 hc)
        simp [or_left_comm]

/-- The values and the body of a let are visited in scopes of their own. -/
theorem givesIf_visitLet {bindings : List Binding} {body : NodeId} {ts : List Tree}
    (hv : ∀ t ∈ ts, Redrafts sure factors used visit t) (hstate : State factors used before w)
    (hscopes : Numbered scopes w.memory.lastScope)
    (hnode : w.arena.get id = .ok (.letIn bindings body))
    (hids : List.Forall₂ (w.arena.FormedIf sure) (bindings.map Binding.value ++ [body]) ts)
    (hnames : ∀ y ∈ bindings.map Binding.name, y ∈ used) :
    (visitLet bindings body visit id scopes).GivesIf sure w fun r w' => r.2 = scopes ∧
      ∃ f floats after, Replaced factors used scopes before
        [.node (.letIn (bindings.map Binding.name)) ts] w [r.1] w' [f] floats after := by
  obtain ⟨us, t, rfl, hvalues, hbody⟩ := Arena.exists_append_singleton hids
  refine (givesIf_visitValues (fun u hu => hv u (List.mem_append_left _ hu)) hstate hscopes
    hvalues).bind ?_
  rintro ⟨news, names⟩ w₁ ⟨hnews, rfl, fs, floats, mid, hfs, hfree⟩
  refine givesIf_inside (hv t (by simp)) hfs.state (hscopes.mono hfs.advances.lastScope)
    (hbody.mono hfs.advances.arena) (by simp) ?_
  intro new inner g more after w₂ hg hlast
  refine ((hfs.append hscopes hg).gives_node (.letIn news new) _ hnode ?_ ?_
    (.inl (by simp [Node.shape, Shape.IsInner])) (by simp [Node.shape]) hnames
    fun k f hk x hx => ?_).bind_givesIf ?_
  · exact congrArg Shape.letIn hnews
  · rintro ⟨rfl, rfl⟩
    rfl
  · have hlength : fs.length = (bindings.map Binding.name).length := by
      rw [List.length_map, ← List.length_map Binding.value, hvalues.length_eq, ← hfs.expand,
        List.length_map]
    rcases Nat.lt_or_ge k fs.length with hlt | hge
    · rw [List.getElem?_append_left hlt] at hk
      exact hfree k f hk x hx
    · rw [List.getElem?_append_right hge] at hk
      obtain rfl := eq_of_getElem?_singleton hk
      intro hc
      refine hlast x hx ((captures_names_congr fun y => ?_).1 hc)
      rw [List.take_of_length_le (hlength ▸ hge)]
      simp [Node.shape, Shape.given]
  · intro id' w₃ h
    exact givesIf_pure ⟨rfl, _, _, _, h⟩

/-! ### Regions -/

theorem gives_exchangeRegion {region : Region} : (exchangeRegion region).Gives w fun old w' =>
    old = w.memory.region ∧ w' = { w with memory := { w.memory with region } } := by
  refine gives_getMemory.bind ?_
  rintro _ w₁ ⟨rfl, hw⟩
  obtain rfl : w = w₁ := hw.symm
  refine gives_remember.bind ?_
  rintro _ w₂ rfl
  exact gives_pure ⟨rfl, rfl⟩

/-- At the end of a region everything that floats can be bound around it. -/
theorem Replaced.closed {t : Tree} {w' : Workspace Memory} {new : NodeId} {f : Draft}
    {floats after : List (Reduction × Draft)}
    (h : Replaced factors used scopes [] [t] w [new] w' [f] floats after) :
    Closed after factors used (bindIn floats f) := by
  have hclosed : ∀ x, ¬ Free x (bindIn floats f) := by
    intro x hx
    obtain ⟨hno, hx⟩ := free_bindIn_iff.1 hx
    have hloose : Loose [f] floats x := by simpa [Loose, or_comm] using hx
    exact hno (by simpa using (h.drafted.loose x hloose).1)
  refine ⟨h.drafted.isScoped_bindIn (.refl _) fun b hb => ?_, ⟨?_, fun x hx => absurd hx (hclosed x)⟩,
    hclosed, ?_, h.state.earlier, h.state.ne_ref⟩
  · simpa [Loose] using h.drafted.needed b hb
  · exact ((bound_bindIn f floats).map _).nodup_iff.2 h.advances.nodup
  · obtain ⟨new, rfl, hperm⟩ := h.drafted.kept
    exact (bindings_bindIn f floats).trans hperm.symm

section

variable {t : Tree} {w' : Workspace Memory} {new : NodeId} {f : Draft}
  {floats after : List (Reduction × Draft)}

/-- What is pending at the end of a region are the reductions that are known. -/
theorem Replaced.pending (h : Replaced factors used scopes [] [t] w [new] w' [f] floats after) :
    List.Forall₂ (fun (t : Temporary) (e : Reduction × Draft) =>
      t.name = e.1.name ∧ w'.arena.Unfolds t.value e.2.toTree) w'.memory.region.pending
      (cores after) := by
  rw [cores, List.forall₂_map_right_iff]
  exact h.state.pending

theorem Replaced.body (h : Replaced factors used scopes [] [t] w [new] w' [f] floats after) :
    w'.arena.Unfolds new (bindIn floats f).core.toTree := by
  rw [core_bindIn]
  simpa using h.unfolds

end

/-- Drafts of the same region, with lets for the same entries, bind the same. -/
theorem bound_perm {c d : Draft} {entries : List (Reduction × Draft)}
    (hc : c.Scoped factors used) (hd : d.Scoped factors used) (hcore : c.core = d.core)
    (hbc : (c.bindings.map fun b => (b.1, b.2.core)).Perm entries)
    (hbd : (d.bindings.map fun b => (b.1, b.2.core)).Perm entries) : c.bound.Perm d.bound := by
  have hsum : ∀ {d : Draft}, d.Scoped factors used →
      (d.bindings.map fun b => (b.1, b.2.core)).Perm entries → (d.bound : Multiset Reduction) =
        d.core.bound + (entries.map fun e => {e.1} + (e.2.bound : Multiset Reduction)).sum := by
    intro d hd hb
    rw [hd.bound_core, ← (hb.map _).sum_eq, List.map_map]
    rfl
  rw [← Multiset.coe_eq_coe, hsum hc hbc, hsum hd hbd, hcore]

/-- A tree whose sums have been extracted; the reductions `xs` are bound there. -/
structure Finished (factors : Index → List Index) (used : List String) (t : Tree)
    (xs : List Reduction) (d : Draft) : Prop where
  isScoped : d.Scoped factors used
  closed : ∀ x, ¬ Free x d
  expand : d.expand = t
  bound : d.bound.Perm xs

/-- The temporaries of a region are bound where the region ends, as low as they can be. -/
theorem gives_finish {t : Tree} {w₁ w₂ : Workspace Memory} {new : NodeId} {f : Draft}
    {floats after : List (Reduction × Draft)}
    (h : Replaced factors used scopes [] [t] w [new] w₁ [f] floats after)
    (harena : w₂.arena = w₁.arena) (hevents : w₂.events = w₁.events) :
    (bindTemporaries w₁.memory.region.pending new).Gives w₂ fun id' w' => ∃ d,
      Finished factors used t (held Draft.bound Prod.fst [f] floats) d ∧ Lowest (inOrder w') d ∧
        w'.arena.Unfolds id' d.toTree ∧ Grows w₂ w' ∧ w'.memory = w₂.memory := by
  have hclosed := h.closed
  have htemps := h.pending
  have hbody := h.body
  rw [← harena] at htemps hbody
  refine (gives_bindTemporaries hclosed.stocked hclosed.placeable htemps hbody).mono ?_
  rintro id' w' ⟨d, hd, hun, hgrows, hmem⟩
  have hexpand : d.expand = t := by
    rw [← expand_core, hd.core, expand_core, expand_bindIn]
    simpa using h.expand
  have hbound := bound_perm hd.isScoped hclosed.isScoped (by rw [hd.core]) hd.bindings
    (hclosed.perm.map _)
  have horder : inOrder w' = inOrder w₁ := by
    rw [inOrder, hgrows.minted, hevents]
    rfl
  have hlow : Low (inOrder w₁) d := by
    refine hd.low.mono ?_
    rw [cores, List.map_map]
    exact h.state.sorted
  refine ⟨d, ⟨hd.isScoped, hd.closed, hexpand, hbound.trans (bound_bindIn f floats)⟩, ?_, hun,
    hgrows, hmem⟩
  rw [horder]
  refine .intro hlow fun r hr => ?_
  have hregion : r ∈ (bindIn floats f).regions :=
    (hd.isScoped.mem_regions_congr hclosed.isScoped (by rw [hd.core]) hd.bindings
      (hclosed.perm.map _)).1 hr
  rcases mem_regions_bindIn.1 hregion with ⟨b, hb, hr⟩ | hr
  · exact h.state.lowest b (h.drafted.mem_after_of_mem_floats hb) r hr
  · exact h.lowest f (by simp) r hr

theorem givesIf_region {α : Type} {body : NodeId} {t : Tree} (hv : Redrafts sure factors used visit t)
    (hstate : State factors used before w) (hscopes : Numbered scopes w.memory.lastScope)
    (hbody : w.arena.FormedIf sure body t) {rest : NodeId → PassM Memory α}
    {Q : α → Workspace Memory → Prop}
    (hrest : ∀ new xs d w', Finished factors used t xs d → Lowest (inOrder w') d →
      Advances w w' xs → w'.memory.region = w.memory.region → w'.arena.Unfolds new d.toTree →
        (rest new).GivesIf sure w' Q) :
    (do
      let outer ← exchangeRegion .empty
      let r ← visit body scopes
      let inner ← exchangeRegion outer
      let new ← bindTemporaries inner.pending r.1
      rest new : PassM Memory α).GivesIf sure w Q := by
  refine gives_exchangeRegion.bind_givesIf ?_
  rintro _ w₁ ⟨rfl, hw₁⟩
  have hinner : State factors used [] w₁ := .empty (by rw [hw₁, hstate.factors_eq]) (by rw [hw₁])
    (by simpa [hw₁] using hstate.used_reserved)
  have henter : Advances w w₁ [] := .of_grows (by rw [hw₁]; exact .refl _) (by rw [hw₁])
    (by simp [hw₁]) (by rw [hw₁])
  refine (hv hinner (by simpa [hw₁] using hscopes) (by simpa [hw₁] using hbody)).bind ?_
  rintro ⟨new, passed⟩ w₂ ⟨-, f, floats, after, h⟩
  refine gives_exchangeRegion.bind_givesIf ?_
  rintro _ w₃ ⟨rfl, hw₃⟩
  refine (gives_finish h (by rw [hw₃]) (by rw [hw₃])).bind_givesIf ?_
  rintro new' w₄ ⟨d, hd, hlowest, hun, hgrows, hmem⟩
  have hleave : Advances w₂ w₄ [] := by
    refine .of_grows ?_ ?_ (by simp [hmem, hw₃]) (by rw [hmem, hw₃])
    · simpa [hw₃] using hgrows.arena
    · simpa [hw₃] using hgrows.extracted
  refine hrest new' _ d w₄ hd hlowest ((henter.trans h.advances).grow hleave) ?_ hun
  rw [hmem, hw₃]

theorem givesIf_visitRecipe {r : Recipe} {t : Tree} (hv : Redrafts sure factors used visit t)
    (hstate : State factors used before w) (hscopes : Numbered scopes w.memory.lastScope)
    (hnode : w.arena.get id = .ok (.recipe r)) (hbody : w.arena.FormedIf sure r.body t) :
    (visitRecipe r visit id scopes).GivesIf sure w fun q w' => q.2 = scopes ∧ ∃ f floats after,
      Replaced factors used scopes before [.node (.recipe r.indices r.transpose) [t]] w [q.1] w' [f]
        floats after := by
  refine givesIf_region hv hstate hscopes hbody ?_
  intro body xs d w₁ hd hlowest hadvances hregion hun
  have hbodies : List.Forall₂ w₁.arena.Unfolds (Node.recipe { r with body }).children [d.toTree] :=
    .cons hun .nil
  refine (gives_addUnless hbodies fun hsame => ?_).bind_givesIf ?_
  · subst hsame
    exact .of_get (hadvances.arena.get hnode) hbodies
  rintro id' w₂ ⟨hid', hext, hw₂⟩
  have hlog : extractions w₂.events = extractions w₁.events := by rw [hw₂]
  have hmemory : w₂.memory = w₁.memory := by rw [hw₂]
  have hgrow : Advances w₁ w₂ [] := .of_grows hext hlog (by simp [hmemory]) (by rw [hmemory])
  have hall : Advances w w₂ xs := hadvances.grow hgrow
  have hstate' : State factors used before w₂ := hstate.mono hall (by rw [hmemory, hregion])
  have hdrafted : Drafted factors used scopes w.memory.lastScope before before
      [.node (.recipe r.indices r.transpose) [d]] [] :=
    .recipe hstate.nodup hd.isScoped hd.closed
  refine givesIf_pure ⟨rfl, _, _, _, hdrafted, ?_, ?_, hstate', hall.perm ?_, ?_⟩
  · rw [List.map_singleton, Draft.expand, expandAll_eq, List.map_singleton, hd.expand]
  · exact .cons hid' .nil
  · simpa [held, Draft.bound, boundAll_eq] using hd.bound.symm
  · simpa [regions] using hlowest.mono hgrow.sorted

/-! ### Whole trees -/

/-- Whatever a tree is made of, the rule replaces its sums, if it may go so deep. -/
theorem redrafts_transformWithin (t : Tree) : ∀ {depth : Nat}, t.height ≤ depth →
    (∀ y ∈ t.names, y ∈ used) → Redrafts sure factors used (rule.transformWithin depth) t := by
  induction t using Tree.induct with
  | node shape ts ih =>
    intro depth hdepth hnames id scopes before w hstate hscopes hid
    obtain ⟨depth, rfl, hheight⟩ := Tree.height_le_iff.1 hdepth
    have hv : ∀ u ∈ ts, Redrafts sure factors used (rule.transformWithin depth) u := by
      intro u hu
      refine ih u hu (hheight u hu) fun y hy => hnames y ?_
      exact List.mem_append_right _ (Tree.mem_namesAll.2 ⟨u, hu, hy⟩)
    have hshape : ∀ y ∈ shape.names, y ∈ used := fun y hy =>
      hnames y (List.mem_append_left _ hy)
    have hi : sure → ∀ i ∈ shape.indices, w.arena.Resolves i := fun hsure i hi =>
      hid.resolves hsure i (List.mem_append_left _ hi)
    obtain ⟨node, hnode, rfl, hids⟩ := hid.node
    refine Rule.givesIf_transformWithin hnode ?_
    cases node with
    | indexSum indices body =>
      obtain _ | ⟨hbody, _ | _⟩ := hids
      refine givesIf_visitSum (hv _ (by simp)) hstate hscopes hnode hid hbody hi fun y hy => ?_
      exact hnames y (List.mem_append_right _ (Tree.mem_namesAll.2 ⟨_, by simp, hy⟩))
    | forAll indices body =>
      obtain _ | ⟨hbody, _ | _⟩ := hids
      exact givesIf_visitLoop (hv _ (by simp)) hstate hscopes hnode rfl hbody (.inl rfl) hi
    | letIn bindings body => exact givesIf_visitLet hv hstate hscopes hnode hids hshape
    | recipe r =>
      obtain _ | ⟨hbody, _ | _⟩ := hids
      exact givesIf_visitRecipe (hv _ (by simp)) hstate hscopes hnode hbody
    | _ =>
      refine givesIf_rebuild hv hstate hscopes hnode hids hshape (fun k => ?_)
        (by simp [Node.shape])
      exact binder_eq rfl k

/-- In a well-formed tree the rule succeeds. -/
theorem visits_transformWithin (t : Tree) {depth : Nat} (hdepth : t.height ≤ depth)
    (hnames : ∀ y ∈ t.names, y ∈ used) : Visits factors used (rule.transformWithin depth) t :=
  fun hstate hscopes hid =>
    have h : Redrafts True factors used (rule.transformWithin depth) t :=
      redrafts_transformWithin t hdepth hnames
    (h hstate hscopes ⟨hid.unfolds, fun _ => hid.resolves⟩).gives trivial

end Extraction

end TensorRecipe
