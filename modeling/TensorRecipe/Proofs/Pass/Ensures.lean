import TensorRecipe.Proofs.Pass.Composition

/-!
# What steps ensure if they succeed

`steps.Ensures w Q` says that if steps begun in the workspace `w` succeed, `Q` holds of their answer
and of the workspace they leave.  Nothing need be known of the tree a pass works on, so this also
says what a pass does where handles name nothing.  The rules follow those of `Gives`; that of
`Rule.rebuild` takes an invariant of the workspace and a relation between old and new handles, which
lasts while the workspace grows (`Growth`).  `GivesIf` is for steps that succeed where indices resolve
and ensure something everywhere.
-/

namespace TensorRecipe

namespace PassM

variable {ω α β : Type}

/-- If the steps succeed, the answer and the workspace left have a property. -/
def Ensures (steps : PassM ω α) (w : Workspace ω) (Q : α → Workspace ω → Prop) : Prop :=
  ∀ x w', steps w = .ok x w' → Q x w'

variable {w : Workspace ω} {Q : α → Workspace ω → Prop} {R : β → Workspace ω → Prop}

theorem Gives.ensures {steps : PassM ω α} (h : steps.Gives w Q) : steps.Ensures w Q := by
  obtain ⟨x, w', hrun, hx⟩ := h
  intro y w'' hrun'
  obtain ⟨rfl, rfl⟩ : x = y ∧ w' = w'' := by simpa [hrun] using hrun'
  exact hx

theorem Ensures.of_start {steps : PassM ω α} {a : Arena} {memory : ω}
    (h : steps.Ensures ⟨a, [], memory⟩ Q) {x : α} {w' : Workspace ω}
    (hok : steps.start a memory = .ok x w') : Q x w' :=
  h x w' hok

theorem ensures_pure {x : α} (h : Q x w) : (pure x : PassM ω α).Ensures w Q :=
  (gives_pure h).ensures

theorem ensures_throw {fault : Fault} : (throw fault : PassM ω α).Ensures w Q :=
  fun _ _ h => nomatch h

theorem Ensures.mono {steps : PassM ω α} (h : steps.Ensures w Q) {Q' : α → Workspace ω → Prop}
    (hQ : ∀ x w', Q x w' → Q' x w') : steps.Ensures w Q' :=
  fun x w' hrun => hQ x w' (h x w' hrun)

theorem Ensures.and {steps : PassM ω α} (h : steps.Ensures w Q) {Q' : α → Workspace ω → Prop}
    (h' : steps.Ensures w Q') : steps.Ensures w fun x w' => Q x w' ∧ Q' x w' :=
  fun x w' hrun => ⟨h x w' hrun, h' x w' hrun⟩

theorem Ensures.bind {steps : PassM ω α} {f : α → PassM ω β} (h : steps.Ensures w Q)
    (hf : ∀ x w', Q x w' → (f x).Ensures w' R) : (steps >>= f).Ensures w R := by
  intro y w'' hrun
  obtain ⟨x, w', hx, hy⟩ := ok_of_bind_eq_ok hrun
  exact hf x w' (h x w' hx) y w'' hy

theorem of_ask_eq_ok {look : Arena → Except Fault α} {x : α} {w' : Workspace ω}
    (h : ask look w = .ok x w') : look w.arena = .ok x ∧ w' = w := by
  simp only [ask] at h
  split at h
  · next hx =>
    cases h
    exact ⟨hx, rfl⟩
  · cases h

theorem ensures_ask_bind {look : Arena → Except Fault α} {f : α → PassM ω β}
    (hf : ∀ x, look w.arena = .ok x → (f x).Ensures w R) : (ask look >>= f).Ensures w R := by
  intro y w'' hrun
  obtain ⟨x, w', hask, hy⟩ := ok_of_bind_eq_ok hrun
  obtain ⟨hx, rfl⟩ := of_ask_eq_ok hask
  exact hf x hx y w'' hy

theorem ensures_logIf (condition : Prop) [Decidable condition] (event : Event) :
    (logIf condition event).Ensures w fun _ w' => w'.arena = w.arena ∧
      (w'.events = w.events ∨ w'.events = event :: w.events) := by
  unfold logIf
  split
  · exact gives_log.ensures.mono fun _ _ hw => by simp [hw]
  · exact ensures_pure ⟨rfl, .inl rfl⟩

/-- Whether a node is made anew or not. -/
theorem gives_addUnless_get (unchanged : Prop) [Decidable unchanged] (id : NodeId) (node : Node) :
    (addUnless unchanged id node).Gives w fun id' w' =>
      w.arena.Extends w'.arena ∧ w' = { w with arena := w'.arena } ∧
        (unchanged ∧ id' = id ∨ ¬ unchanged ∧ w'.arena.get id' = .ok node) := by
  unfold addUnless
  split
  · next h => exact gives_pure ⟨.refl _, rfl, .inl ⟨h, rfl⟩⟩
  · next h =>
    exact gives_addNode.mono fun id' w' ⟨hid, hw⟩ => by
      subst hid hw
      exact ⟨.addNode _ _, rfl, .inr ⟨h, Arena.get_nextId_addNode _ _⟩⟩

/-- The answer names the node, and is the old handle where nothing changed. -/
theorem ensures_addUnless {unchanged : Prop} [Decidable unchanged] {id : NodeId} {node : Node}
    (hn : unchanged → w.arena.get id = .ok node) :
    (addUnless unchanged id node).Ensures w fun id' w' =>
      w.arena.Extends w'.arena ∧ w' = { w with arena := w'.arena } ∧
        w'.arena.get id' = .ok node ∧ (unchanged → id' = id) := by
  refine (gives_addUnless_get _ _ _).ensures.mono fun id' w' ⟨hext, hw', hid'⟩ => ⟨hext, hw', ?_⟩
  rcases hid' with ⟨h, rfl⟩ | ⟨h, hnew⟩
  · exact ⟨hext.get (hn h), fun _ => rfl⟩
  · exact ⟨hnew, fun h' => absurd h' h⟩

theorem gives_addUnless_same {unchanged : Prop} [Decidable unchanged] {id : NodeId} {node : Node}
    (h : unchanged) : (addUnless unchanged id node).Gives w fun id' w' => id' = id ∧ w' = w := by
  rw [addUnless, if_pos h]
  exact gives_pure ⟨rfl, rfl⟩

theorem ensures_setChildren {id : NodeId} {node : Node} {new : List NodeId}
    (hlen : new.length = node.children.length) : (setChildren id node new).Ensures w fun id' w' =>
      w.arena.Extends w'.arena ∧ w' = { w with arena := w'.arena } ∧
        (new = node.children ∧ id' = id ∨
          new ≠ node.children ∧ w'.arena.get id' = .ok (node.replaceChildren new)) := by
  rw [setChildren_eq hlen]
  exact (gives_addUnless_get _ _ _).ensures

theorem gives_setChildren_same {id : NodeId} {node : Node} :
    (setChildren id node node.children).Gives w fun id' w' => id' = id ∧ w' = w := by
  rw [setChildren, if_pos rfl]
  exact gives_pure ⟨rfl, rfl⟩

theorem ensures_setChildren_get {id : NodeId} {node : Node} {new : List NodeId}
    (hn : w.arena.get id = .ok node) (hlen : new.length = node.children.length) :
    (setChildren id node new).Ensures w fun id' w' =>
      w.arena.Extends w'.arena ∧ w' = { w with arena := w'.arena } ∧ ∃ node',
        w'.arena.get id' = .ok node' ∧ node'.shape = node.shape ∧ node'.children = new ∧
          (new = node.children → id' = id) := by
  refine (ensures_setChildren hlen).mono fun id' w' ⟨hext, hw', hid'⟩ => ⟨hext, hw', ?_⟩
  rcases hid' with ⟨rfl, rfl⟩ | ⟨hne, hnew⟩
  · exact ⟨node, hext.get hn, rfl, rfl, fun _ => rfl⟩
  · exact ⟨_, hnew, Node.shape_replaceChildren hlen, Node.children_replaceChildren hlen,
      fun hsame => absurd hsame hne⟩

theorem of_within_eq_ok {ω' : Type} {memory : ω'} {steps : PassM ω' α} {r : α × ω'}
    {w' : Workspace ω} (h : within memory steps w = .ok r w') :
    ∃ v, steps ⟨w.arena, w.events, memory⟩ = .ok r.1 v ∧ r.2 = v.memory ∧
      w' = ⟨v.arena, v.events, w.memory⟩ := by
  simp only [within] at h
  split at h
  · next hsteps =>
    cases h
    exact ⟨_, hsteps, rfl, rfl⟩
  · cases h

theorem ensures_within {ω' : Type} {memory : ω'} {steps : PassM ω' α}
    {Q : α → Workspace ω' → Prop} (h : steps.Ensures ⟨w.arena, w.events, memory⟩ Q) :
    (within memory steps).Ensures w fun r w' =>
      ∃ v, Q r.1 v ∧ w' = ⟨v.arena, v.events, w.memory⟩ := by
  intro r w' hrun
  obtain ⟨v, hsteps, -, hw'⟩ := of_within_eq_ok hrun
  exact ⟨v, h _ _ hsteps, hw'⟩

/-! ### Success on a promise -/

/-- If the steps succeed, the answer and the workspace left have a property; and they do succeed if
`sure` holds. -/
structure GivesIf (sure : Prop) (steps : PassM ω α) (w : Workspace ω) (Q : α → Workspace ω → Prop) :
    Prop where
  ensures : steps.Ensures w Q
  succeeds : sure → ∃ x w', steps w = .ok x w'

section

variable {sure : Prop}

theorem Gives.givesIf {steps : PassM ω α} (h : steps.Gives w Q) : GivesIf sure steps w Q :=
  ⟨h.ensures, fun _ => by
    obtain ⟨x, w', hrun, -⟩ := h
    exact ⟨x, w', hrun⟩⟩

theorem GivesIf.gives {steps : PassM ω α} (h : GivesIf sure steps w Q) (hsure : sure) :
    steps.Gives w Q := by
  obtain ⟨x, w', hrun⟩ := h.succeeds hsure
  exact ⟨x, w', hrun, h.ensures x w' hrun⟩

theorem givesIf_pure {x : α} (h : Q x w) : GivesIf sure (pure x) w Q := (gives_pure h).givesIf

theorem GivesIf.mono {steps : PassM ω α} (h : GivesIf sure steps w Q) {Q' : α → Workspace ω → Prop}
    (hQ : ∀ x w', Q x w' → Q' x w') : GivesIf sure steps w Q' :=
  ⟨h.ensures.mono hQ, h.succeeds⟩

theorem GivesIf.bind {steps : PassM ω α} {f : α → PassM ω β} (h : GivesIf sure steps w Q)
    (hf : ∀ x w', Q x w' → GivesIf sure (f x) w' R) : GivesIf sure (steps >>= f) w R :=
  ⟨h.ensures.bind fun x w' hx => (hf x w' hx).ensures, fun hsure => by
    obtain ⟨y, w'', hrun, -⟩ := (h.gives hsure).bind fun x w' hx => (hf x w' hx).gives hsure
    exact ⟨y, w'', hrun⟩⟩

theorem Gives.bind_givesIf {steps : PassM ω α} {f : α → PassM ω β} (h : steps.Gives w Q)
    (hf : ∀ x w', Q x w' → GivesIf sure (f x) w' R) : GivesIf sure (steps >>= f) w R :=
  h.givesIf.bind hf

theorem givesIf_ask_bind {look : Arena → Except Fault α} {f : α → PassM ω β}
    (hlook : sure → ∃ x, look w.arena = .ok x)
    (hf : ∀ x, look w.arena = .ok x → GivesIf sure (f x) w R) : GivesIf sure (ask look >>= f) w R :=
  ⟨ensures_ask_bind fun x hx => (hf x hx).ensures, fun hsure => by
    obtain ⟨x, hx⟩ := hlook hsure
    obtain ⟨y, w', hrun, -⟩ := gives_ask_bind hx ((hf x hx).gives hsure)
    exact ⟨y, w', hrun⟩⟩

end

end PassM

open PassM

variable {ω τ : Type}

/-- A way in which workspaces grow from visit to visit, and a relation between old and new handles
that lasts while they do. -/
structure Growth (G : Workspace ω → Workspace ω → Prop) (R : Workspace ω → NodeId → NodeId → Prop) :
    Prop where
  refl : ∀ w, G w w
  trans : ∀ {w v u}, G w v → G v u → G w u
  arena : ∀ {w v}, G w v → w.arena.Extends v.arena
  extend : ∀ {w b}, w.arena.Extends b → G w { w with arena := b }
  mono : ∀ {w v id new}, G w v → R w id new → R v id new

/-- The arena grows, and handles need not be related. -/
theorem Growth.extends : Growth (ω := ω) (fun w v => w.arena.Extends v.arena) fun _ _ _ => True :=
  ⟨fun _ => .refl _, fun h h' => h.trans h', fun h => h, fun h => h, fun _ h => h⟩

section

variable {visit : Visit ω τ} {I : Workspace ω → τ → Prop} {G : Workspace ω → Workspace ω → Prop}
  {R : Workspace ω → NodeId → NodeId → Prop} (hG : Growth G R)

include hG

/-- Transforming several trees keeps what each visit keeps, and relates each handle to its new
one. -/
theorem Visit.ensures_all : ∀ {ids : List NodeId} {passed : τ} {w : Workspace ω},
    (∀ id ∈ ids, ∀ passed w, I w passed → (visit id passed).Ensures w fun r w' =>
      G w w' ∧ I w' r.2 ∧ R w' id r.1) → I w passed →
    (visit.all ids passed).Ensures w fun r w' =>
      G w w' ∧ I w' r.2 ∧ List.Forall₂ (R w') ids r.1
  | [], _, _, _, hI => ensures_pure ⟨hG.refl _, hI, .nil⟩
  | id :: ids, passed, w, hvisit, hI => by
    refine (hvisit id (by simp) passed w hI).bind fun r w₁ ⟨hw₁, hI₁, hR₁⟩ => ?_
    have hrest := ensures_all (w := w₁)
      (fun id (hid : id ∈ ids) => hvisit id (List.mem_cons_of_mem _ hid)) hI₁
    refine hrest.bind fun rs w₂ ⟨hw₂, hI₂, hR₂⟩ => ?_
    exact ensures_pure ⟨hG.trans hw₁ hw₂, hI₂, .cons (hG.mono hw₂ hR₁) hR₂⟩

/-- A node is rebuilt over its transformed children, unless none of them changed. -/
theorem Rule.ensures_rebuild
    (hadd : ∀ w passed b, w.arena.Extends b → I w passed → I { w with arena := b } passed)
    {id : NodeId} {node : Node} {passed : τ} {w : Workspace ω} (hn : w.arena.get id = .ok node)
    (hvisit : ∀ id ∈ node.children, ∀ passed w, I w passed → (visit id passed).Ensures w fun r w' =>
      G w w' ∧ I w' r.2 ∧ R w' id r.1) (hI : I w passed) :
    (Rule.rebuild visit id node passed).Ensures w fun r w' =>
      G w w' ∧ I w' r.2 ∧ ∃ new, w'.arena.get r.1 = .ok new ∧
        new.shape = node.shape ∧ List.Forall₂ (R w') node.children new.children ∧
          (new.children = node.children → r.1 = id) := by
  refine (Visit.ensures_all hG hvisit hI).bind fun r w₁ ⟨hw₁, hI₁, hR₁⟩ => ?_
  refine (ensures_setChildren_get ((hG.arena hw₁).get hn) hR₁.length_eq.symm).bind ?_
  rintro id' w₂ ⟨hext₂, hw₂, new, hnew, hshape, hchildren, hsame⟩
  have hgrows : G w₁ w₂ := hw₂ ▸ hG.extend hext₂
  refine ensures_pure ⟨hG.trans hw₁ hgrows, ?_, new, hnew, hshape, ?_, hchildren ▸ hsame⟩
  · rw [hw₂]
    exact hadd _ _ _ hext₂ hI₁
  · rw [hchildren]
    exact hR₁.imp fun _ _ h => hG.mono hgrows h

end

/-- Where every visit answers the handle it is given, so does transforming several trees. -/
theorem Visit.ensures_all_same {visit : Visit ω τ} {I : Workspace ω → τ → Prop} :
    ∀ {ids : List NodeId} {passed : τ} {w : Workspace ω},
      (∀ id ∈ ids, ∀ passed w, I w passed → (visit id passed).Ensures w fun r w' =>
        r.1 = id ∧ I w' r.2) → I w passed →
      (visit.all ids passed).Ensures w fun r w' => r.1 = ids ∧ I w' r.2
  | [], _, _, _, hI => ensures_pure ⟨rfl, hI⟩
  | id :: ids, passed, w, hvisit, hI => by
    refine (hvisit id (by simp) passed w hI).bind ?_
    rintro ⟨_, passed₁⟩ w₁ ⟨rfl, hI₁⟩
    refine (ensures_all_same (fun id hid => hvisit id (List.mem_cons_of_mem _ hid)) hI₁).bind ?_
    rintro ⟨_, passed₂⟩ w₂ ⟨rfl, hI₂⟩
    exact ensures_pure ⟨rfl, hI₂⟩

theorem Rule.ensures_rebuild_same {visit : Visit ω τ} {I : Workspace ω → τ → Prop} {id : NodeId}
    {node : Node} {passed : τ} {w : Workspace ω}
    (hvisit : ∀ id ∈ node.children, ∀ passed w, I w passed → (visit id passed).Ensures w
      fun r w' => r.1 = id ∧ I w' r.2) (hI : I w passed) :
    (Rule.rebuild visit id node passed).Ensures w fun r w' => r.1 = id ∧ I w' r.2 := by
  refine (Visit.ensures_all_same hvisit hI).bind ?_
  rintro ⟨_, passed'⟩ w₁ ⟨rfl, hI₁⟩
  exact gives_setChildren_same.ensures.bind fun _ _ ⟨hid, hw⟩ => ensures_pure ⟨hid, hw ▸ hI₁⟩

theorem Rule.ensures_transformWithin {rule : Rule ω τ} {depth : Nat} {id : NodeId} {passed : τ}
    {w : Workspace ω} {Q : NodeId × τ → Workspace ω → Prop}
    (h : ∀ node, w.arena.get id = .ok node →
      (rule (rule.transformWithin depth) id node passed).Ensures w Q) :
    (rule.transformWithin (depth + 1) id passed).Ensures w Q :=
  ensures_ask_bind h

theorem Rule.givesIf_transformWithin {rule : Rule ω τ} {depth : Nat} {id : NodeId} {passed : τ}
    {w : Workspace ω} {node : Node} (hn : w.arena.get id = .ok node) {sure : Prop}
    {Q : NodeId × τ → Workspace ω → Prop}
    (h : GivesIf sure (rule (rule.transformWithin depth) id node passed) w Q) :
    GivesIf sure (rule.transformWithin (depth + 1) id passed) w Q := by
  refine givesIf_ask_bind (fun _ => ⟨node, hn⟩) fun node' hn' => ?_
  rwa [← Except.ok.inj (hn.symm.trans hn')]

theorem Rule.ensures_transform {rule : Rule ω τ} {id : NodeId} {passed : τ} {w : Workspace ω}
    {Q : NodeId × τ → Workspace ω → Prop}
    (h : ∀ depth, (rule.transformWithin depth id passed).Ensures w Q) :
    (rule.transform id passed).Ensures w Q :=
  ensures_ask_bind fun depth _ => h depth

end TensorRecipe
