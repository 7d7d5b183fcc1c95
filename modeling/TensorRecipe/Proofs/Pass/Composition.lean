import TensorRecipe.LoopBinding
import TensorRecipe.Pass.Variables
import TensorRecipe.Proofs.Pass.Arity
import TensorRecipe.Substitution

/-!
# What passes are composed of

`Composed steps` says that steps of a pass are put together from the ways to build steps, and that
none of them puts another number of children into a node than it has.  There is one lemma for each
function of a pass.  What every way to build steps keeps, all passes keep: they do not stop because
of a number of children (`Composed.keepsArity`), and whether they give an answer or stop at a fault,
they leave all that was in the arena and in the log (`Composed.extends_of_leaves`,
`Composed.suffix_of_leaves`).
-/

namespace TensorRecipe

namespace PassM

variable {ω α β : Type}

/-- These steps are put together from the ways to build steps. -/
inductive Composed : {ω α : Type} → PassM ω α → Prop
  | pure {ω α : Type} (x : α) : Composed (pure x : PassM ω α)
  | throw {ω α : Type} {fault : Fault} (code : fault.report.code ≠ .mismatchedArity) :
    Composed (throw fault : PassM ω α)
  | bind {ω α β : Type} {steps : PassM ω α} {f : α → PassM ω β} (first : Composed steps)
    (next : ∀ x w w', steps w = .ok x w' → Composed (f x)) : Composed (steps >>= f)
  | ask {ω α : Type} {look : Arena → Except Fault α} (lookup : ∀ a, IsLookup (look a)) :
    Composed (ask look : PassM ω α)
  | addNode {ω : Type} (node : Node) : Composed (addNode node : PassM ω NodeId)
  | log {ω : Type} (event : Event) : Composed (log event : PassM ω Unit)
  | getMemory {ω : Type} : Composed (getMemory : PassM ω ω)
  | remember {ω : Type} (change : ω → ω) : Composed (remember change : PassM ω Unit)
  | walk {ω : Type} (visitor : Arena → Visitor ω) (root : NodeId) : Composed (walk visitor root)
  | within {ω ω' α : Type} {memory : ω'} {steps : PassM ω' α} (inner : Composed steps) :
    Composed (within memory steps : PassM ω (α × ω'))

/-- Begun in a workspace, the steps leave another, be it with an answer or at a fault. -/
def Leaves (steps : PassM ω α) (w w' : Workspace ω) : Prop :=
  (∃ x, steps w = .ok x w') ∨ ∃ fault, steps w = .error fault w'

namespace Composed

theorem keepsArity {steps : PassM ω α} (h : Composed steps) : KeepsArity steps := by
  induction h with
  | pure x => exact keepsArity_pure x
  | throw code => exact keepsArity_throw code
  | bind _ _ ih ihs => exact ih.bind ihs
  | @ask _ _ look lookup =>
    intro w fault w' hrun
    unfold PassM.ask at hrun
    split at hrun
    · cases hrun
    · next fault' hlook =>
      cases hrun
      exact lookup _ _ hlook
  | addNode | log | getMemory | remember => exact fun _ _ _ hrun => nomatch hrun
  | walk visitor root =>
    intro w fault w' hrun
    simp only [PassM.walk] at hrun
    split at hrun
    · cases hrun
    · next hwalk =>
      cases hrun
      exact (visitor w.arena).keepsArity_walkWithin _ _ _ _ _ _ hwalk
  | within _ ih =>
    intro w fault w' hrun
    simp only [PassM.within] at hrun
    split at hrun
    · cases hrun
    · next hsteps =>
      cases hrun
      exact ih _ _ _ hsteps

/-- What holds from one arena and log to the next whenever a node is appended or an event logged,
and lasts, holds from where a pass begins to where it ends. -/
theorem of_leaves {R : Arena → List Event → Arena → List Event → Prop}
    (refl : ∀ a events, R a events a events)
    (trans : ∀ {a events b more c all}, R a events b more → R b more c all → R a events c all)
    (node : ∀ a events node, R a events (a.addNode node) events)
    (event : ∀ a events event, R a events a (event :: events)) {steps : PassM ω α}
    (h : Composed steps) {w w' : Workspace ω} (hleaves : steps.Leaves w w') :
    R w.arena w.events w'.arena w'.events := by
  induction h with
  | pure | throw | getMemory | remember =>
    obtain ⟨_, hrun⟩ | ⟨_, hrun⟩ := hleaves <;> cases hrun
    exact refl _ _
  | addNode n =>
    obtain ⟨_, hrun⟩ | ⟨_, hrun⟩ := hleaves <;> cases hrun
    exact node _ _ n
  | log e =>
    obtain ⟨_, hrun⟩ | ⟨_, hrun⟩ := hleaves <;> cases hrun
    exact event _ _ e
  | @bind _ _ _ steps f _ _ ih ihs =>
    cases hfirst : steps w with
    | error fault w₁ =>
      rw [Leaves, bind_of_error hfirst] at hleaves
      obtain ⟨_, hrun⟩ | ⟨_, hrun⟩ := hleaves <;> cases hrun
      exact ih (.inr ⟨fault, hfirst⟩)
    | ok x w₁ =>
      rw [Leaves, bind_of_ok hfirst] at hleaves
      exact trans (ih (.inl ⟨x, hfirst⟩)) (ihs x w w₁ hfirst hleaves)
  | @ask _ _ look _ =>
    have hw : w' = w := by
      simp only [Leaves, PassM.ask] at hleaves
      split at hleaves <;> obtain ⟨_, hrun⟩ | ⟨_, hrun⟩ := hleaves <;> cases hrun <;> rfl
    exact hw ▸ refl _ _
  | walk visitor root =>
    have hw : w'.arena = w.arena ∧ w'.events = w.events := by
      simp only [Leaves, PassM.walk] at hleaves
      split at hleaves <;> obtain ⟨_, hrun⟩ | ⟨_, hrun⟩ := hleaves <;> cases hrun <;> simp
    rw [hw.1, hw.2]
    exact refl _ _
  | @within _ _ _ memory steps _ ih =>
    obtain ⟨v, hv, harena, hevents⟩ : ∃ v, steps.Leaves ⟨w.arena, w.events, memory⟩ v ∧
        w'.arena = v.arena ∧ w'.events = v.events := by
      simp only [Leaves, PassM.within] at hleaves
      split at hleaves <;> obtain ⟨_, hrun⟩ | ⟨_, hrun⟩ := hleaves <;> cases hrun
      · next hsteps => exact ⟨_, .inl ⟨_, hsteps⟩, rfl, rfl⟩
      · next hsteps => exact ⟨_, .inr ⟨_, hsteps⟩, rfl, rfl⟩
    rw [harena, hevents]
    exact ih hv

theorem extends_of_leaves {steps : PassM ω α} (h : Composed steps) {w w' : Workspace ω}
    (hleaves : steps.Leaves w w') : w.arena.Extends w'.arena :=
  of_leaves (R := fun a _ b _ => a.Extends b) (fun a _ => .refl a) Arena.Extends.trans
    (fun a _ node => .addNode a node) (fun a _ _ => .refl a) h hleaves

theorem suffix_of_leaves {steps : PassM ω α} (h : Composed steps) {w w' : Workspace ω}
    (hleaves : steps.Leaves w w') : w.events <:+ w'.events :=
  of_leaves (R := fun _ events _ more => events <:+ more) (fun _ _ => List.suffix_rfl)
    List.IsSuffix.trans (fun _ _ _ => List.suffix_rfl) (fun _ _ event => List.suffix_cons event _) h
    hleaves

/-- As `Composed.bind`, where nothing need be known of the answer. -/
theorem seq {steps : PassM ω α} {f : α → PassM ω β} (h : Composed steps)
    (hf : ∀ x, Composed (f x)) : Composed (steps >>= f) :=
  h.bind fun x _ _ _ => hf x

theorem mapM {f : α → PassM ω β} (h : ∀ x, Composed (f x)) :
    ∀ xs : List α, Composed (xs.mapM f)
  | [] => .pure _
  | x :: xs => by
    rw [List.mapM_cons]
    exact (h x).seq fun y => (mapM h xs).seq fun ys => .pure (y :: ys)

theorem addUnless (unchanged : Prop) [Decidable unchanged] (id : NodeId) (node : Node) :
    Composed (addUnless unchanged id node : PassM ω NodeId) := by
  unfold PassM.addUnless
  split
  · exact .pure id
  · exact .addNode node

/-- Here the number of children is checked. -/
theorem setChildren (id : NodeId) {node : Node} {new : List NodeId}
    (h : new.length = node.children.length) :
    Composed (setChildren id node new : PassM ω NodeId) := by
  rw [setChildren_eq h]
  exact .addUnless _ _ _

theorem logIf (condition : Prop) [Decidable condition] (event : Event) :
    Composed (logIf condition event : PassM ω Unit) := by
  unfold PassM.logIf
  split
  · exact .log event
  · exact .pure ()

end Composed

end PassM
open PassM

/-! ### Rules -/

section

variable {ω τ : Type}

theorem Visit.length_all {visit : Visit ω τ} :
    ∀ {ids : List NodeId} {passed : τ} {w w' : Workspace ω} {r : List NodeId × τ},
      visit.all ids passed w = .ok r w' → r.1.length = ids.length
  | [], _, _, _, _, h => by
    cases h
    rfl
  | id :: ids, passed, w, w', r, h => by
    obtain ⟨⟨new, passed₁⟩, w₁, -, h⟩ := ok_of_bind_eq_ok h
    obtain ⟨⟨news, passed₂⟩, w₂, hall, h⟩ := ok_of_bind_eq_ok h
    cases h
    exact congrArg (· + 1) (length_all hall)

variable {visit : Visit ω τ} (hv : ∀ id passed, Composed (visit id passed))
include hv

theorem Visit.composed_all : ∀ ids passed, Composed (visit.all ids passed)
  | [], _ => .pure _
  | id :: ids, passed => (hv id passed).seq fun r =>
    (composed_all ids r.2).seq fun _ => .pure _

theorem Rule.composed_rebuild (id : NodeId) (node : Node) (passed : τ) :
    Composed (Rule.rebuild visit id node passed) := by
  refine (Visit.composed_all hv node.children passed).bind fun r w w' hall => ?_
  exact (Composed.setChildren id (Visit.length_all hall)).seq fun _ => .pure _

omit hv

/-- Where each use of a rule is composed of steps, so is a whole transformation. -/
theorem Rule.composed_transform {rule : Rule ω τ}
    (h : ∀ visit, (∀ id passed, Composed (visit id passed)) →
      ∀ id node passed, Composed (rule visit id node passed)) (root : NodeId) (passed : τ) :
    Composed (rule.transform root passed) := by
  have hwithin : ∀ depth id passed, Composed (rule.transformWithin depth id passed) := by
    intro depth
    induction depth with
    | zero => exact fun _ _ => .throw nofun
    | succ depth ih =>
      exact fun id passed => (Composed.ask fun a => a.isLookup_get id).seq fun node =>
        h _ ih id node passed
  exact (Composed.ask fun a => isLookup_ok _).seq fun depth => hwithin depth root passed

theorem composed_identity (root : NodeId) : Composed (Rule.identity.transform root ()) :=
  Rule.composed_transform (fun _ hv => Rule.composed_rebuild hv) root ()

theorem keepsArity_identity (root : NodeId) : KeepsArity (Rule.identity.transform root ()) :=
  (composed_identity root).keepsArity

theorem composed_renameVariables (step : String → τ → String × τ) (root : NodeId) (passed : τ) :
    Composed ((Rule.renameVariables step).transform root passed) := by
  refine Rule.composed_transform (fun visit hv id node passed => ?_) root passed
  cases node with
  | var name => exact (Composed.addNode _).seq fun _ => .pure _
  | _ => exact Rule.composed_rebuild hv _ _ _

end

/-! ### Substitution -/

namespace Substitution

variable (s : Substitution)

theorem isLookup_renamed (a : Arena) (i : Index) : IsLookup (s.renamed a i) := by
  unfold renamed
  split
  · exact isLookup_ok _
  · refine (a.isLookup_get _).bind fun node => ?_
    split <;> exact isLookup_ok _

theorem isLookup_renameGroup (group : List Index) (a : Arena) :
    IsLookup (s.renameGroup group a) :=
  (isLookup_mapM (s.isLookup_renamed a) group).bind fun _ => isLookup_ok _

theorem isLookup_renameGroups (g : IndexDeclaration) (a : Arena) : IsLookup (s.renameGroups g a) :=
  (s.isLookup_renameGroup g.domain a).bind fun _ => (s.isLookup_renameGroup g.basis a).bind fun _ =>
    (s.isLookup_renameGroup g.point a).bind fun _ => isLookup_ok _

theorem isLookup_renameScope (scope : List Index) (a : Arena) : IsLookup (s.renameScope scope a) :=
  (isLookup_mapM (s.isLookup_renamed a) scope).bind fun _ => isLookup_ok _

theorem isLookup_keptTranspose (r : Recipe) (indices : IndexDeclaration) (a : Arena) :
    IsLookup (keptTranspose r indices a) := by
  unfold keptTranspose
  split
  · exact isLookup_ok _
  · exact (a.isLookup_flatten _).bind fun _ => (a.isLookup_flatten _).bind fun _ => isLookup_ok _

variable {visit : Visit Unit Unit} (hv : ∀ id passed, Composed (visit id passed))
include hv

theorem composed_renameLoop (build : List Index → NodeId → Node) (indices : List Index)
    (body id : NodeId) : Composed (s.renameLoop build indices body visit id) := by
  unfold renameLoop
  refine (Composed.ask (s.isLookup_renameScope indices)).seq fun renamed => ?_
  split
  · exact Rule.composed_rebuild hv _ _ _
  · exact (hv body ()).seq fun _ => (Composed.addNode _).seq fun _ => .pure _

theorem composed_renameRecipe (r : Recipe) (id : NodeId) :
    Composed (s.renameRecipe r visit id) := by
  unfold renameRecipe
  refine (Composed.ask (s.isLookup_renameGroups r.indices)).seq fun indices => ?_
  refine (hv r.body ()).seq fun ⟨body, _⟩ => ?_
  dsimp only
  split
  · exact .pure _
  · exact (Composed.ask (isLookup_keptTranspose r indices)).seq fun _ =>
      (Composed.addNode _).seq fun _ => .pure _

theorem composed_rule (id : NodeId) (node : Node) (passed : Unit) :
    Composed (s.rule visit id node passed) := by
  cases node with
  | index i => exact .pure _
  | recipe r => exact s.composed_renameRecipe hv r id
  | forAll indices body => exact s.composed_renameLoop hv _ indices body id
  | indexSum indices body => exact s.composed_renameLoop hv _ indices body id
  | _ => exact Rule.composed_rebuild hv _ _ _

omit hv

theorem composed_substitution (root : NodeId) : Composed (s.apply root) :=
  (Rule.composed_transform (fun _ hv => s.composed_rule hv) root ()).seq fun _ => .pure _

theorem keepsArity_substitution (root : NodeId) : KeepsArity (s.apply root) :=
  (s.composed_substitution root).keepsArity

end Substitution

/-! ### Binding -/

namespace LoopBinding

theorem composed_transpose (declared loops : List Index) :
    Composed (transpose declared loops) := by
  refine (Composed.ask fun a => a.isLookup_flatten declared).seq fun declared => ?_
  refine (Composed.ask fun a => a.isLookup_flatten loops).seq fun loops => ?_
  split
  · exact .pure _
  · next mismatch _ =>
    refine (Composed.remember _).seq fun _ => ?_
    refine (Composed.ask fun a => a.isLookup_indexInfo _).seq fun info => ?_
    refine (Composed.ask fun a => ?_).seq fun _ => (Composed.log _).seq fun _ => ?_
    · exact (isLookup_mapM a.isLookup_indexInfo _).bind fun _ => isLookup_ok _
    · exact .throw (by cases mismatch <;> exact nofun)

variable {visit : Visit Marks LoopNest} (hv : ∀ id nest, Composed (visit id nest))
include hv

theorem composed_bindRecipe (r : Recipe) (id : NodeId) (nest : LoopNest) :
    Composed (bindRecipe r visit id nest) :=
  (hv r.body _).seq fun _ => (composed_transpose _ _).seq fun _ => (Composed.log _).seq fun _ =>
    (Composed.addUnless _ _ _).seq fun _ => (Composed.addNode _).seq fun _ => .pure _

theorem composed_enterLoop (build : List Index → NodeId → Node) (indices : List Index)
    (body id : NodeId) (nest : LoopNest) :
    Composed (enterLoop build indices body visit id nest) :=
  (hv body _).seq fun _ => (Composed.addUnless _ _ _).seq fun _ => .pure _

theorem composed_bindLet (bindings : List Binding) (body id : NodeId) (nest : LoopNest) :
    Composed (bindLet bindings body visit id nest) := by
  have hvalue : ∀ b, Composed (bindValue visit nest.above b) := fun b =>
    (hv b.value _).seq fun _ => .pure _
  exact (Composed.mapM hvalue bindings).seq fun _ => (hv body nest).seq fun _ =>
    (Composed.addUnless _ _ _).seq fun _ => .pure _

theorem composed_rule (id : NodeId) (node : Node) (nest : LoopNest) :
    Composed (rule visit id node nest) := by
  cases node with
  | recipe r => exact composed_bindRecipe hv r id nest
  | forAll indices body =>
    exact (composed_enterLoop hv _ indices body id nest).seq fun _ => .pure _
  | indexSum indices body =>
    exact (composed_enterLoop hv _ indices body id nest).seq fun _ => .pure _
  | letIn bindings body => exact composed_bindLet hv bindings body id nest
  | _ => exact Rule.composed_rebuild hv _ _ _

omit hv

theorem composed_bind (root : NodeId) : Composed (bind root) :=
  (Rule.composed_transform (fun _ hv => composed_rule hv) root _).seq fun _ => .pure _

theorem keepsArity_bind (root : NodeId) : KeepsArity (bind root) :=
  (composed_bind root).keepsArity

end LoopBinding

end TensorRecipe
