import TensorRecipe.Pass.Rule
import TensorRecipe.Proofs.Tree.Indices

/-!
# Rules for the steps of passes

`steps.Gives w Q` says that steps begun in the workspace `w` succeed, and that `Q` holds of their
answer and of the workspace they leave.  `steps.Decides E w P Q` says that they do so just when `P`
holds, and stop at a fault with `E` otherwise.  There is one rule for each way to build steps, so that
no proof about a pass looks into its monad.
-/

namespace TensorRecipe

namespace PassM

variable {ω α β : Type}

/-- The steps succeed, and the answer and the workspace left have a property. -/
def Gives (steps : PassM ω α) (w : Workspace ω) (Q : α → Workspace ω → Prop) : Prop :=
  ∃ x w', steps w = .ok x w' ∧ Q x w'

/-- The steps stop at a fault that has a property. -/
def Fails (steps : PassM ω α) (E : Fault → Prop) (w : Workspace ω) : Prop :=
  ∃ fault w', steps w = .error fault w' ∧ E fault

/-- The steps succeed just on a condition, and else stop at a fault that has a property. -/
def Decides (steps : PassM ω α) (E : Fault → Prop) (w : Workspace ω) (P : Prop)
    (Q : α → Workspace ω → Prop) : Prop :=
  (P → steps.Gives w Q) ∧ (¬ P → steps.Fails E w)

variable {E : Fault → Prop} {w : Workspace ω} {Q : α → Workspace ω → Prop}
  {R : β → Workspace ω → Prop}

/-! ### Success -/

theorem gives_pure {x : α} (h : Q x w) : (pure x : PassM ω α).Gives w Q := ⟨x, w, rfl, h⟩

theorem Gives.mono {steps : PassM ω α} (h : steps.Gives w Q) {Q' : α → Workspace ω → Prop}
    (hQ : ∀ x w', Q x w' → Q' x w') : steps.Gives w Q' := by
  obtain ⟨x, w', hrun, hx⟩ := h
  exact ⟨x, w', hrun, hQ x w' hx⟩

theorem bind_of_ok {steps : PassM ω α} {f : α → PassM ω β} {x : α} {w' : Workspace ω}
    (h : steps w = .ok x w') : (steps >>= f) w = f x w' := by
  show EStateM.bind steps f w = _
  simp only [EStateM.bind, h]

theorem bind_of_error {steps : PassM ω α} {f : α → PassM ω β} {fault : Fault} {w' : Workspace ω}
    (h : steps w = .error fault w') : (steps >>= f) w = .error fault w' := by
  show EStateM.bind steps f w = _
  simp only [EStateM.bind, h]

theorem ok_of_bind_eq_ok {steps : PassM ω α} {f : α → PassM ω β} {y : β}
    {w w'' : Workspace ω} (h : (steps >>= f) w = .ok y w'') :
    ∃ x w', steps w = .ok x w' ∧ f x w' = .ok y w'' := by
  cases hrun : steps w with
  | ok x w' => exact ⟨x, w', rfl, by rwa [bind_of_ok hrun] at h⟩
  | error fault w' => simp [bind_of_error hrun] at h

theorem Gives.bind {steps : PassM ω α} {f : α → PassM ω β} (h : steps.Gives w Q)
    (hf : ∀ x w', Q x w' → (f x).Gives w' R) : (steps >>= f).Gives w R := by
  obtain ⟨x, w', hrun, hx⟩ := h
  obtain ⟨y, w'', hrun', hy⟩ := hf x w' hx
  exact ⟨y, w'', by rw [bind_of_ok hrun, hrun'], hy⟩

theorem ask_bind_of_ok {look : Arena → Except Fault α} {x : α} {f : α → PassM ω β}
    (h : look w.arena = .ok x) : (ask look >>= f) w = f x w :=
  bind_of_ok (by simp only [ask, h])

theorem gives_ask_bind {look : Arena → Except Fault α} {x : α} {f : α → PassM ω β}
    (h : look w.arena = .ok x) (hf : (f x).Gives w R) : (ask look >>= f).Gives w R := by
  obtain ⟨y, w', hrun, hy⟩ := hf
  exact ⟨y, w', by rw [ask_bind_of_ok h, hrun], hy⟩

theorem gives_addNode {node : Node} :
    (addNode node).Gives w fun id w' =>
      id = w.arena.nextId ∧ w' = { w with arena := w.arena.addNode node } :=
  ⟨_, _, rfl, rfl, rfl⟩

theorem gives_log {event : Event} :
    (log event).Gives w fun _ w' => w' = { w with events := event :: w.events } :=
  ⟨_, _, rfl, rfl⟩

theorem gives_getMemory : (getMemory : PassM ω ω).Gives w fun x w' => x = w.memory ∧ w' = w :=
  ⟨_, _, rfl, rfl, rfl⟩

theorem gives_remember {change : ω → ω} :
    (remember change).Gives w fun _ w' => w' = { w with memory := change w.memory } :=
  ⟨_, _, rfl, rfl⟩

/-- Another pass works on the same arena and log, with a memory of its own. -/
theorem gives_within {ω' : Type} {memory : ω'} {steps : PassM ω' α}
    {Q : α → Workspace ω' → Prop} (h : steps.Gives ⟨w.arena, w.events, memory⟩ Q) :
    (within memory steps).Gives w fun r w' =>
      ∃ v, Q r.1 v ∧ w' = ⟨v.arena, v.events, w.memory⟩ := by
  obtain ⟨x, v, hrun, hx⟩ := h
  exact ⟨(x, v.memory), _, by simp only [within, hrun], v, hx, rfl⟩

/-- Whether a node is made anew or not, the answer has the unfolding of the new node, if the old
handle has it in case it is kept. -/
theorem gives_addUnless {unchanged : Prop} [Decidable unchanged] {id : NodeId} {node : Node}
    {children : List Tree} (hnew : List.Forall₂ w.arena.Unfolds node.children children)
    (hold : unchanged → w.arena.Unfolds id (.node node.shape children)) :
    (addUnless unchanged id node).Gives w fun id' w' =>
      w'.arena.Unfolds id' (.node node.shape children) ∧ w.arena.Extends w'.arena ∧
        w' = { w with arena := w'.arena } := by
  unfold addUnless
  split
  · next h => exact gives_pure ⟨hold h, .refl _, rfl⟩
  · exact gives_addNode.mono fun id' w' ⟨hid, hw⟩ => by
      subst hid hw
      exact ⟨Arena.unfolds_addNode hnew, .addNode _ _, rfl⟩

theorem setChildren_eq {id : NodeId} {node : Node} {new : List NodeId}
    (h : new.length = node.children.length) : (setChildren id node new : PassM ω NodeId) =
      addUnless (new = node.children) id (node.replaceChildren new) := by
  unfold setChildren addUnless Node.setChildren
  rw [if_pos h]
  rfl

/-- A node whose children were transformed has their unfoldings below it. -/
theorem gives_setChildren {id : NodeId} {node : Node} {new : List NodeId} {children : List Tree}
    (hn : w.arena.get id = .ok node) (hlen : new.length = node.children.length)
    (hnew : List.Forall₂ w.arena.Unfolds new children) :
    (setChildren id node new).Gives w fun id' w' =>
      w'.arena.Unfolds id' (.node node.shape children) ∧ w.arena.Extends w'.arena ∧
        w' = { w with arena := w'.arena } := by
  rw [setChildren_eq hlen, ← Node.shape_replaceChildren hlen]
  refine gives_addUnless (by rwa [Node.children_replaceChildren hlen]) ?_
  rintro rfl
  rw [Node.shape_replaceChildren hlen]
  exact .of_get hn hnew

/-! ### Success on a condition -/

theorem Gives.bind_fails {steps : PassM ω α} {f : α → PassM ω β} (h : steps.Gives w Q)
    (hf : ∀ x w', Q x w' → (f x).Fails E w') : (steps >>= f).Fails E w := by
  obtain ⟨x, w', hrun, hx⟩ := h
  obtain ⟨fault, w'', hfail, hE⟩ := hf x w' hx
  exact ⟨fault, w'', by rw [bind_of_ok hrun, hfail], hE⟩

theorem fails_ask_bind {look : Arena → Except Fault α} {x : α} {f : α → PassM ω β}
    (h : look w.arena = .ok x) (hf : (f x).Fails E w) : (ask look >>= f).Fails E w := by
  obtain ⟨fault, w', hrun, hE⟩ := hf
  exact ⟨fault, w', by rw [ask_bind_of_ok h, hrun], hE⟩

theorem Gives.decides {steps : PassM ω α} (h : steps.Gives w Q) : steps.Decides E w True Q :=
  ⟨fun _ => h, fun hn => absurd trivial hn⟩

theorem Decides.congr {steps : PassM ω α} {P P' : Prop} (h : steps.Decides E w P Q) (hP : P ↔ P') :
    steps.Decides E w P' Q := by
  rwa [← propext hP]

theorem Decides.bind {steps : PassM ω α} {f : α → PassM ω β} {P P' : Prop}
    (h : steps.Decides E w P Q) (hf : ∀ x w', Q x w' → (f x).Decides E w' P' R) :
    (steps >>= f).Decides E w (P ∧ P') R := by
  constructor
  · rintro ⟨hP, hP'⟩
    exact (h.1 hP).bind fun x w' hx => (hf x w' hx).1 hP'
  · intro hno
    by_cases hP : P
    · exact (h.1 hP).bind_fails fun x w' hx => (hf x w' hx).2 fun hP' => hno ⟨hP, hP'⟩
    · obtain ⟨fault, w', hrun, hE⟩ := h.2 hP
      exact ⟨fault, w', bind_of_error hrun, hE⟩

theorem Decides.bind_gives {steps : PassM ω α} {f : α → PassM ω β} {P : Prop}
    (h : steps.Decides E w P Q) (hf : ∀ x w', Q x w' → (f x).Gives w' R) :
    (steps >>= f).Decides E w P R :=
  (h.bind fun x w' hx => (hf x w' hx).decides).congr (and_iff_left trivial)

theorem Gives.bind_decides {steps : PassM ω α} {f : α → PassM ω β} {P : Prop}
    (h : steps.Gives w Q) (hf : ∀ x w', Q x w' → (f x).Decides E w' P R) :
    (steps >>= f).Decides E w P R :=
  (h.decides.bind hf).congr (and_iff_right trivial)

theorem decides_ask_bind {look : Arena → Except Fault α} {x : α} {f : α → PassM ω β} {P : Prop}
    (h : look w.arena = .ok x) (hf : (f x).Decides E w P R) : (ask look >>= f).Decides E w P R :=
  ⟨fun hP => gives_ask_bind h (hf.1 hP), fun hP => fails_ask_bind h (hf.2 hP)⟩

theorem decides_within {ω' : Type} {memory : ω'} {steps : PassM ω' α} {P : Prop}
    {Q : α → Workspace ω' → Prop} (h : steps.Decides E ⟨w.arena, w.events, memory⟩ P Q) :
    (within memory steps).Decides E w P fun r w' =>
      ∃ v, Q r.1 v ∧ w' = ⟨v.arena, v.events, w.memory⟩ := by
  refine ⟨fun hP => gives_within (h.1 hP), fun hP => ?_⟩
  obtain ⟨fault, v, hrun, hE⟩ := h.2 hP
  exact ⟨fault, ⟨v.arena, v.events, w.memory⟩, by simp only [within, hrun], hE⟩

/-- Steps that succeed just on a condition, and what then holds of what they give. -/
theorem Decides.ok_iff {steps : PassM ω α} {P : Prop} (h : steps.Decides E w P Q) :
    ((∃ x w', steps w = .ok x w') ↔ P) ∧ ∀ x w', steps w = .ok x w' → Q x w' := by
  by_cases hP : P
  · obtain ⟨x, w', hrun, hx⟩ := h.1 hP
    refine ⟨⟨fun _ => hP, fun _ => ⟨x, w', hrun⟩⟩, fun y w'' hrun' => ?_⟩
    obtain ⟨rfl, rfl⟩ : x = y ∧ w' = w'' := by simpa [hrun] using hrun'
    exact hx
  · obtain ⟨fault, w', hrun, -⟩ := h.2 hP
    simp [hrun, hP]

/-! ### Runs -/

theorem Gives.start {steps : PassM ω α} {a : Arena} {memory : ω}
    (h : steps.Gives ⟨a, [], memory⟩ Q) : ∃ x w', steps.start a memory = .ok x w' ∧ Q x w' := h

/-- The answer and the arena left, if a run succeeded. -/
def outcome? : EStateM.Result Fault (Workspace ω) α → Option (α × Arena)
  | .ok x w => some (x, w.arena)
  | .error _ _ => none

theorem exists_ok_of_outcome? {result : EStateM.Result Fault (Workspace ω) α} {x : α} {b : Arena}
    (h : outcome? result = some (x, b)) : ∃ w, result = .ok x w ∧ w.arena = b := by
  cases result with
  | ok y w =>
    simp only [outcome?, Option.some.injEq, Prod.mk.injEq] at h
    exact ⟨w, by rw [h.1], h.2⟩
  | error fault w => simp [outcome?] at h

end PassM

namespace Rule

variable {ω τ : Type}

theorem gives_transformWithin {rule : Rule ω τ} {depth : Nat} {id : NodeId} {passed : τ}
    {w : Workspace ω} {node : Node} (hn : w.arena.get id = .ok node)
    {Q : NodeId × τ → Workspace ω → Prop}
    (h : (rule (rule.transformWithin depth) id node passed).Gives w Q) :
    (rule.transformWithin (depth + 1) id passed).Gives w Q :=
  PassM.gives_ask_bind hn h

theorem decides_transformWithin {rule : Rule ω τ} {depth : Nat} {id : NodeId} {passed : τ}
    {w : Workspace ω} {node : Node} (hn : w.arena.get id = .ok node) {E : Fault → Prop} {P : Prop}
    {Q : NodeId × τ → Workspace ω → Prop}
    (h : (rule (rule.transformWithin depth) id node passed).Decides E w P Q) :
    (rule.transformWithin (depth + 1) id passed).Decides E w P Q :=
  PassM.decides_ask_bind hn h

end Rule

end TensorRecipe
