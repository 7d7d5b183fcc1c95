import TensorRecipe.Extraction.Plan
import TensorRecipe.Proofs.Pass.Ensures

/-!
# What placing logs

Whenever placing notes that a temporary has its place, it logs that it has placed it, and it logs
nothing else; what is left over at the end of a region has no part in this (`ensures_place_logs`).
-/

namespace TensorRecipe

namespace Extraction

open PassM

/-- The names of the temporaries that have been placed, the newest first. -/
def placements (events : List Event) : List String :=
  events.filterMap fun
    | .placed name _ => some name
    | _ => none

theorem placements_append (events more : List Event) :
    placements (events ++ more) = placements events ++ placements more :=
  List.filterMap_append

/-- The log of the placing of some temporaries. -/
structure LogsPlacing (names : List String) (events : List Event) : Prop where
  placed : ∀ e ∈ events, ∃ name around, e = .placed name around
  names : (placements events).Perm names

namespace LogsPlacing

theorem nil : LogsPlacing [] [] := ⟨by simp, .nil⟩

theorem append {names more : List String} {events later : List Event}
    (h : LogsPlacing names events) (h' : LogsPlacing more later) :
    LogsPlacing (names ++ more) (later ++ events) := by
  refine ⟨fun e he => (List.mem_append.1 he).elim (h'.placed e) (h.placed e), ?_⟩
  rw [placements_append]
  exact (h'.names.append h.names).trans List.perm_append_comm

theorem perm {names names' : List String} {events : List Event} (h : LogsPlacing names events)
    (hperm : names.Perm names') : LogsPlacing names' events := ⟨h.placed, h.names.trans hperm⟩

end LogsPlacing

/-- Some numbers have been noted, and just their temporaries have been logged as placed. -/
def Plan.Logs (p : Plan) (w w' : Workspace (List Nat)) : Prop :=
  ∃ here events, w'.memory.Perm (here ++ w.memory) ∧ w'.events = events ++ w.events ∧
    LogsPlacing (here.filterMap fun t => (p.temporaries[t]?).map Temporary.name) events

namespace Plan

variable {p : Plan} {place : NodeId → PlaceM (NodeId × Tally)} {w w' w'' : Workspace (List Nat)}

theorem Logs.refl (w : Workspace (List Nat)) : p.Logs w w := ⟨[], [], .refl _, rfl, .nil⟩

theorem Logs.trans (h : p.Logs w w') (h' : p.Logs w' w'') : p.Logs w w'' := by
  obtain ⟨here, events, hmemory, hevents, hlogs⟩ := h
  obtain ⟨here', events', hmemory', hevents', hlogs'⟩ := h'
  refine ⟨here ++ here', events' ++ events, ?_, ?_, ?_⟩
  · refine hmemory'.trans ((hmemory.append_left _).trans ?_)
    rw [← List.append_assoc]
    exact List.perm_append_comm.append_right _
  · rw [hevents', hevents, List.append_assoc]
  · rw [List.filterMap_append]
    exact hlogs.append hlogs'

theorem Logs.of_arena {b : Arena} (hw : w' = { w with arena := b }) : p.Logs w w' := by
  subst hw
  exact ⟨[], [], .refl _, rfl, .nil⟩

theorem ensures_addUnless_logs {unchanged : Prop} [Decidable unchanged] {id : NodeId} {node : Node} :
    (addUnless unchanged id node).Ensures w fun _ w' => p.Logs w w' :=
  (gives_addUnless_get _ _ _).ensures.mono fun _ _ ⟨_, hw, _⟩ => .of_arena hw

theorem ensures_setChildren_logs {id : NodeId} {node : Node} {news : List NodeId} :
    (setChildren id node news).Ensures w fun _ w' => p.Logs w w' := by
  unfold setChildren
  split
  · exact ensures_pure (.refl w)
  · refine ensures_ask_bind fun new _ => gives_addNode.ensures.mono ?_
    rintro _ w' ⟨-, hw⟩
    exact .of_arena hw

section

variable (hplace : ∀ id w, (place id).Ensures w fun _ w' => p.Logs w w')

include hplace

theorem ensures_placeChildren_logs : ∀ (ids : List NodeId) {w : Workspace (List Nat)},
    (placeChildren place ids).Ensures w fun _ w' => p.Logs w w'
  | [], _ => ensures_pure (.refl _)
  | id :: ids, w => by
    refine (hplace id w).bind fun r w₁ h₁ => ?_
    refine (ensures_placeChildren_logs ids).bind fun rs w₂ h₂ => ?_
    exact ensures_pure (h₁.trans h₂)

theorem ensures_placeValues_logs (around : NodeId) :
    ∀ (ts : List Nat) (uses : Tally) {w : Workspace (List Nat)},
      (p.placeValues place around ts uses).Ensures w fun _ w' => p.Logs w w'
  | [], _, _ => ensures_pure (.refl _)
  | t :: ts, uses, w => by
    unfold placeValues
    refine gives_remember.ensures.bind ?_
    rintro _ w₁ rfl
    split
    · next hnone =>
      refine (ensures_placeValues_logs around ts uses).mono fun _ w₂ h₂ => Logs.trans ?_ h₂
      exact ⟨[t], [], .refl _, rfl, by simpa [hnone] using LogsPlacing.nil⟩
    · next temporary ht =>
      refine (hplace temporary.value _).bind fun r w₂ h₂ => ?_
      refine gives_log.ensures.bind ?_
      rintro _ w₃ rfl
      refine (ensures_placeValues_logs around ts _).bind fun rs w₄ h₄ => ensures_pure ?_
      -- the number is noted before the value is placed, and the temporary is logged after
      obtain ⟨here, events, hmemory, hevents, hlogs⟩ := h₂
      refine Logs.trans ?_ h₄
      refine ⟨t :: here, .placed temporary.name around :: events, ?_, by simp [hevents], ?_⟩
      · exact hmemory.trans List.perm_middle
      · have hone : LogsPlacing [temporary.name] [.placed temporary.name around] :=
          ⟨by simp, by simp [placements]⟩
        have := hlogs.append hone
        refine this.perm ?_
        rw [List.filterMap_cons, ht]
        exact List.perm_append_comm

theorem ensures_placeComplete_logs (around : NodeId) :
    ∀ (rounds : Nat) (uses : Tally) {w : Workspace (List Nat)},
      (p.placeComplete place around rounds uses).Ensures w fun _ w' => p.Logs w w'
  | 0, _, _ => ensures_pure (.refl _)
  | rounds + 1, uses, w => by
    unfold placeComplete
    refine gives_getMemory.ensures.bind ?_
    rintro _ w₁ ⟨rfl, rfl⟩
    split
    · exact ensures_pure (.refl _)
    · refine (ensures_placeValues_logs hplace around _ uses).bind fun r w₂ h₂ => ?_
      refine (ensures_placeComplete_logs around rounds _).bind fun rs w₃ h₃ => ?_
      exact ensures_pure (h₂.trans h₃)

theorem ensures_bindComplete_logs (id : NodeId) (uses : Tally) :
    (p.bindComplete place id uses).Ensures w fun _ w' => p.Logs w w' := by
  refine (ensures_placeComplete_logs hplace id _ uses).bind fun r w₁ h₁ => ?_
  exact ensures_addUnless_logs.bind fun _ w₂ h₂ => ensures_pure (h₁.trans h₂)

end

theorem ensures_placeWithin_logs : ∀ (depth : Nat) (isBody : Bool) (id : NodeId)
    (w : Workspace (List Nat)), (p.placeWithin depth isBody id).Ensures w fun _ w' => p.Logs w w'
  | 0, _, _, _ => ensures_throw
  | depth + 1, isBody, id, w => by
    have hvalue := ensures_placeWithin_logs depth false
    refine ensures_ask_bind fun node _ => ?_
    split
    · split
      · exact ensures_bindComplete_logs hvalue _ _
      · exact ensures_pure (.refl w)
    · refine (ensures_placeChildren_logs (ensures_placeWithin_logs depth _) _).bind
        fun r w₁ h₁ => ?_
      refine (ensures_setChildren_logs (p := p)).bind fun id' w₂ h₂ => ?_
      exact (ensures_bindComplete_logs hvalue id' r.2).mono fun _ w₃ h₃ => h₁.trans (h₂.trans h₃)

theorem ensures_place_logs (isBody : Bool) (id : NodeId) :
    (p.place isBody id).Ensures w fun _ w' => p.Logs w w' :=
  ensures_ask_bind fun _ _ => ensures_placeWithin_logs _ isBody id w

end Plan

end Extraction

end TensorRecipe
