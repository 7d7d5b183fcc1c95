import TensorRecipe.LoopBinding
import TensorRecipe.Proofs.Pass.Steps

/-!
# Binding by a pass of its own

`IgnoresMarks` says of steps that they do the same whatever is marked: they go through and mark
nothing, or they stop and mark one key more, or none.  Binding is such (`ignoresMarks_bind`).  So
nothing depends on whether it marks in the table at hand, or in a table of its own that is put into
the other in the end (`LoopBinding.bindFresh_eq`).
-/

namespace TensorRecipe

open PassM

/-- What steps come to that are begun with an arena and a log, whatever is marked by then. -/
inductive Alike {α : Type} (steps : PassM Marks α) (a : Arena) (events : List Event) : Prop
  | ok (x : α) (b : Arena) (more : List Event)
    (run : ∀ m, steps ⟨a, events, m⟩ = .ok x ⟨b, more, m⟩)
  | error (fault : Fault) (b : Arena) (more : List Event) (key : Option Key)
    (run : ∀ m, steps ⟨a, events, m⟩ = .error fault ⟨b, more, key.elim m m.mark⟩)

/-- The steps do the same whatever is marked. -/
def IgnoresMarks {α : Type} (steps : PassM Marks α) : Prop := ∀ a events, Alike steps a events

/-! ### Steps -/

section

variable {α β : Type}

theorem ignoresMarks_pure (x : α) : IgnoresMarks (pure x) :=
  fun a events => .ok x a events fun _ => rfl

theorem ignoresMarks_throw (fault : Fault) : IgnoresMarks (throw fault : PassM Marks α) :=
  fun a events => .error fault a events none fun _ => rfl

theorem ignoresMarks_addNode (node : Node) : IgnoresMarks (addNode node) :=
  fun a events => .ok a.nextId (a.addNode node) events fun _ => rfl

theorem ignoresMarks_log (event : Event) : IgnoresMarks (log event) :=
  fun a events => .ok () a (event :: events) fun _ => rfl

theorem ignoresMarks_ask (look : Arena → Except Fault α) : IgnoresMarks (ask look) := by
  intro a events
  cases hlook : look a with
  | ok x => exact .ok x a events fun m => by simp only [ask, hlook]
  | error fault => exact .error fault a events none fun m => by simp only [ask, hlook, Option.elim]

theorem IgnoresMarks.bind {steps : PassM Marks α} {f : α → PassM Marks β} (h : IgnoresMarks steps)
    (hf : ∀ x, IgnoresMarks (f x)) : IgnoresMarks (steps >>= f) := by
  intro a events
  cases h a events with
  | error fault b more key run =>
    exact .error fault b more key fun m => bind_of_error (run m)
  | ok x b more run =>
    cases hf x b more with
    | ok y c all run' => exact .ok y c all fun m => (bind_of_ok (run m)).trans (run' m)
    | error fault c all key run' =>
      exact .error fault c all key fun m => (bind_of_ok (run m)).trans (run' m)

theorem ignoresMarks_mapM {f : α → PassM Marks β} (h : ∀ x, IgnoresMarks (f x)) :
    ∀ xs : List α, IgnoresMarks (xs.mapM f)
  | [] => ignoresMarks_pure []
  | x :: xs => by
    rw [List.mapM_cons]
    exact (h x).bind fun y => (ignoresMarks_mapM h xs).bind fun ys => ignoresMarks_pure (y :: ys)

theorem ignoresMarks_addUnless (unchanged : Prop) [Decidable unchanged] (id : NodeId)
    (node : Node) : IgnoresMarks (addUnless unchanged id node) := by
  unfold addUnless
  split
  · exact ignoresMarks_pure id
  · exact ignoresMarks_addNode node

theorem ignoresMarks_setChildren (id : NodeId) (node : Node) (children : List NodeId) :
    IgnoresMarks (setChildren id node children) := by
  unfold setChildren
  split
  · exact ignoresMarks_pure id
  · exact (ignoresMarks_ask _).bind ignoresMarks_addNode

/-- The steps stop, at the same fault whatever is marked, and mark nothing. -/
def Stops (steps : PassM Marks α) : Prop :=
  ∀ a events, ∃ fault b more, ∀ m, steps ⟨a, events, m⟩ = .error fault ⟨b, more, m⟩

theorem stops_throw (fault : Fault) : Stops (throw fault : PassM Marks α) :=
  fun a events => ⟨fault, a, events, fun _ => rfl⟩

theorem Stops.log_bind {event : Event} {steps : PassM Marks α} (h : Stops steps) :
    Stops (log event >>= fun _ => steps) := by
  intro a events
  obtain ⟨fault, b, more, run⟩ := h a (event :: events)
  exact ⟨fault, b, more, fun m => run m⟩

theorem Stops.ask_bind {look : Arena → Except Fault α} {f : α → PassM Marks β}
    (h : ∀ x, Stops (f x)) : Stops (ask look >>= f) := by
  intro a events
  cases hlook : look a with
  | error fault =>
    exact ⟨fault, a, events, fun m => bind_of_error (by simp only [ask, hlook])⟩
  | ok x =>
    obtain ⟨fault, b, more, run⟩ := h x a events
    exact ⟨fault, b, more, fun m => (bind_of_ok (by simp only [ask, hlook])).trans (run m)⟩

theorem Stops.ignoresMarks_mark {key : Key} {steps : PassM Marks α} (h : Stops steps) :
    IgnoresMarks (remember (·.mark key) >>= fun _ => steps) := by
  intro a events
  obtain ⟨fault, b, more, run⟩ := h a events
  exact .error fault b more (some key) fun m => run (m.mark key)

end

namespace LoopBinding

/-! ### The pass -/

/-- The one step that marks is followed by steps that stop in any case, so that nothing is marked
after it. -/
theorem ignoresMarks_refuse (mismatch : Mismatch) (declared : List Index) :
    IgnoresMarks (refuse mismatch declared) := by
  refine Stops.ignoresMarks_mark (Stops.ask_bind fun info => Stops.ask_bind fun texts => ?_)
  exact (stops_throw _).log_bind

theorem ignoresMarks_transpose (declared loops : List Index) :
    IgnoresMarks (transpose declared loops) := by
  refine (ignoresMarks_ask _).bind fun declared => (ignoresMarks_ask _).bind fun loops => ?_
  split
  · exact ignoresMarks_pure _
  · exact ignoresMarks_refuse _ _

section

variable {visit : Visit Marks LoopNest} (hv : ∀ id nest, IgnoresMarks (visit id nest))
include hv

theorem ignoresMarks_all : ∀ (ids : List NodeId) (nest : LoopNest),
    IgnoresMarks (visit.all ids nest)
  | [], _ => ignoresMarks_pure _
  | id :: ids, nest => (hv id nest).bind fun r => (ignoresMarks_all ids r.2).bind fun _ =>
    ignoresMarks_pure _

theorem ignoresMarks_rebuild (id : NodeId) (node : Node) (nest : LoopNest) :
    IgnoresMarks (Rule.rebuild visit id node nest) :=
  (ignoresMarks_all hv node.children nest).bind fun _ =>
    (ignoresMarks_setChildren id node _).bind fun _ => ignoresMarks_pure _

theorem ignoresMarks_bindRecipe (r : Recipe) (id : NodeId) (nest : LoopNest) :
    IgnoresMarks (bindRecipe r visit id nest) :=
  (hv r.body _).bind fun _ => (ignoresMarks_transpose _ _).bind fun _ =>
    (ignoresMarks_log _).bind fun _ => (ignoresMarks_addUnless _ _ _).bind fun _ =>
      (ignoresMarks_addNode _).bind fun _ => ignoresMarks_pure _

theorem ignoresMarks_enterLoop (build : List Index → NodeId → Node) (indices : List Index)
    (body id : NodeId) (nest : LoopNest) :
    IgnoresMarks (enterLoop build indices body visit id nest) :=
  (hv body _).bind fun _ => (ignoresMarks_addUnless _ _ _).bind fun _ => ignoresMarks_pure _

theorem ignoresMarks_bindLet (bindings : List Binding) (body id : NodeId) (nest : LoopNest) :
    IgnoresMarks (bindLet bindings body visit id nest) := by
  have hvalue : ∀ b, IgnoresMarks (bindValue visit nest.above b) := fun b =>
    (hv b.value _).bind fun _ => ignoresMarks_pure _
  exact (ignoresMarks_mapM hvalue bindings).bind fun _ => (hv body nest).bind fun _ =>
    (ignoresMarks_addUnless _ _ _).bind fun _ => ignoresMarks_pure _

theorem ignoresMarks_rule (id : NodeId) (node : Node) (nest : LoopNest) :
    IgnoresMarks (rule visit id node nest) := by
  cases node with
  | recipe r => exact ignoresMarks_bindRecipe hv r id nest
  | forAll indices body | indexSum indices body =>
    exact (ignoresMarks_enterLoop hv _ indices body id nest).bind fun _ => ignoresMarks_pure _
  | letIn bindings body => exact ignoresMarks_bindLet hv bindings body id nest
  | _ => exact ignoresMarks_rebuild hv _ _ _

end

theorem ignoresMarks_transformWithin : ∀ (depth : Nat) (id : NodeId) (nest : LoopNest),
    IgnoresMarks (rule.transformWithin depth id nest)
  | 0, _, _ => ignoresMarks_throw _
  | depth + 1, id, nest => (ignoresMarks_ask _).bind fun node =>
    ignoresMarks_rule (ignoresMarks_transformWithin depth) id node nest

theorem ignoresMarks_bind (root : NodeId) : IgnoresMarks (bind root) := by
  refine IgnoresMarks.bind ?_ fun _ => ignoresMarks_pure _
  exact (ignoresMarks_ask _).bind fun depth => ignoresMarks_transformWithin depth root .empty

/-- To bind by a pass of its own is to bind. -/
theorem bindFresh_eq (root : NodeId) : bindFresh root = bind root := by
  funext ⟨a, events, m⟩
  cases ignoresMarks_bind root a events with
  | ok out b more run =>
    rw [bindFresh, aside, run, run]
    rfl
  | error fault b more key run =>
    rw [bindFresh, aside, run, run]
    cases key <;> rfl

end LoopBinding

end TensorRecipe
