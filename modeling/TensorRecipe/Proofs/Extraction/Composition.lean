import TensorRecipe.Proofs.LoopBinding.Fresh
import TensorRecipe.Proofs.Pass.Composition
import TensorRecipe.Schedule

/-!
# What extraction is composed of

Placing puts as many children into a node as it takes out, and so does the replacement of sums.
Main statements: extraction and scheduling are composed of the steps of passes (`composed_extract`,
`composed_schedule`), and so they keep arities.
-/

namespace TensorRecipe

open PassM

namespace Extraction

theorem isLookup_bindingSerial (scopes : List Scope) (sum : NodeId) (a : Arena) :
    IsLookup (bindingSerial scopes sum a) := by
  have hindices : IsLookup (indicesRead sum a) := (a.isLookup_freeWithin _ _ _).bind fun _ =>
    (a.isLookup_flatten _).bind fun _ => isLookup_ok _
  have hnames : IsLookup (namesRead sum a) := by
    unfold namesRead
    split
    · exact isLookup_ok _
    · next hwalk =>
      exact isLookup_error (Visitor.keepsArity_walkWithin _ _ _ _ _ _ _ hwalk)
  exact hindices.bind fun _ => hnames.bind fun _ => isLookup_ok _

theorem composed_openScope (indices : List Index) (names : List String) (scopes : List Scope) :
    Composed (openScope indices names scopes) :=
  (Composed.ask fun a => a.isLookup_flatten indices).seq fun _ => (Composed.remember _).seq
    fun _ => Composed.getMemory.seq fun _ => .pure _

theorem composed_exchangeRegion (region : Region) : Composed (exchangeRegion region) :=
  Composed.getMemory.seq fun _ => (Composed.remember _).seq fun _ => .pure _

/-! ### Placing -/

namespace Plan

theorem isLookup_countWithin (temporaries : List Temporary) (a : Arena) :
    ∀ (depth : Nat) (id : NodeId), IsLookup (countWithin temporaries a depth id)
  | 0, _ => isLookup_error nofun
  | depth + 1, id => by
    unfold countWithin
    refine (a.isLookup_get id).bind fun node => ?_
    split
    · exact isLookup_ok _
    · exact (isLookup_mapM (isLookup_countWithin temporaries a depth) _).bind fun _ =>
        isLookup_ok _

theorem isLookup_ofRegion (temporaries : List Temporary) (body : NodeId) (a : Arena) :
    IsLookup (ofRegion temporaries body a) :=
  (isLookup_mapM (isLookup_countWithin temporaries a _) _).bind fun _ => isLookup_ok _

variable {p : Plan} {place : NodeId → PlaceM (NodeId × Tally)}

theorem length_placeChildren :
    ∀ {ids : List NodeId} {w w' : Workspace (List Nat)} {r : List NodeId × Tally},
      placeChildren place ids w = .ok r w' → r.1.length = ids.length
  | [], _, _, _, h => by
    cases h
    rfl
  | id :: ids, w, w', r, h => by
    obtain ⟨⟨new, uses⟩, w₁, -, h⟩ := ok_of_bind_eq_ok h
    obtain ⟨⟨news, more⟩, w₂, hrest, h⟩ := ok_of_bind_eq_ok h
    cases h
    exact congrArg (· + 1) (length_placeChildren hrest)

section

variable (hp : ∀ id, Composed (place id))
include hp

theorem composed_placeValues (around : NodeId) :
    ∀ (ts : List Nat) (uses : Tally), Composed (p.placeValues place around ts uses)
  | [], _ => .pure _
  | t :: ts, uses => by
    unfold placeValues
    refine (Composed.remember _).seq fun _ => ?_
    split
    · exact composed_placeValues around ts uses
    · exact (hp _).seq fun _ => (Composed.log _).seq fun _ =>
        (composed_placeValues around ts _).seq fun _ => .pure _

theorem composed_placeComplete (around : NodeId) :
    ∀ (rounds : Nat) (uses : Tally), Composed (p.placeComplete place around rounds uses)
  | 0, _ => .pure _
  | rounds + 1, uses => by
    unfold placeComplete
    refine Composed.getMemory.seq fun placed => ?_
    split
    · exact .pure _
    · exact (composed_placeValues hp around _ uses).seq fun _ =>
        (composed_placeComplete around rounds _).seq fun _ => .pure _

theorem composed_bindComplete (id : NodeId) (uses : Tally) :
    Composed (p.bindComplete place id uses) :=
  (composed_placeComplete hp id _ uses).seq fun _ => (Composed.addUnless _ _ _).seq fun _ => .pure _

theorem composed_placeChildren : ∀ ids, Composed (placeChildren place ids)
  | [] => .pure _
  | id :: ids => (hp id).seq fun _ => (composed_placeChildren ids).seq fun _ => .pure _

end

theorem composed_placeWithin (p : Plan) :
    ∀ (depth : Nat) (isBody : Bool) (id : NodeId), Composed (p.placeWithin depth isBody id)
  | 0, _, _ => .throw nofun
  | depth + 1, isBody, id => by
    have hvalue := composed_placeWithin p depth false
    unfold placeWithin
    refine (Composed.ask fun a => a.isLookup_get id).seq fun node => ?_
    split
    · split
      · exact composed_bindComplete hvalue _ _
      · exact .pure _
    · refine (composed_placeChildren (composed_placeWithin p depth _) _).bind
        fun r w w' hchildren => ?_
      exact (Composed.setChildren id (length_placeChildren hchildren)).seq fun _ =>
        composed_bindComplete hvalue _ _

theorem composed_place (p : Plan) (isBody : Bool) (id : NodeId) : Composed (p.place isBody id) :=
  (Composed.ask fun _ => isLookup_ok _).seq fun _ => p.composed_placeWithin _ isBody id

theorem composed_placeLeftOver (p : Plan) (warnUnused : Bool) :
    ∀ ts, Composed (p.placeLeftOver warnUnused ts)
  | [] => .pure _
  | (temporary, t) :: ts => by
    unfold placeLeftOver
    refine Composed.getMemory.seq fun placed => ?_
    split
    · exact composed_placeLeftOver p warnUnused ts
    · exact (Composed.remember _).seq fun _ => (Composed.logIf _ _).seq fun _ =>
        (p.composed_place _ _).seq fun _ => (composed_placeLeftOver p warnUnused ts).seq fun _ =>
          .pure _

theorem composed_placeAll (p : Plan) (warnUnused : Bool) (body : NodeId) :
    Composed (p.placeAll warnUnused body) :=
  (p.composed_place _ _).seq fun _ => (p.composed_placeLeftOver warnUnused _).seq fun _ =>
    .addUnless _ _ _

end Plan

theorem composed_bindTemporaries (temporaries : List Temporary) (body : NodeId) :
    Composed (bindTemporaries temporaries body) := by
  unfold bindTemporaries
  split
  · exact .pure _
  · exact Composed.getMemory.seq fun _ =>
      (Composed.ask (Plan.isLookup_ofRegion temporaries body)).seq fun p =>
        (Composed.within (p.composed_placeAll _ body)).seq fun _ => .pure _

/-! ### Replacing sums -/

variable {visit : ScopedVisit} (hv : ∀ id scopes, Composed (visit id scopes))
include hv

theorem composed_visitLoop (indices : List Index) (id : NodeId) (node : Node)
    (scopes : List Scope) : Composed (visitLoop indices visit id node scopes) :=
  (composed_openScope _ _ _).seq fun _ => (Rule.composed_rebuild hv _ _ _).seq fun _ => .pure _

theorem composed_extractSum (indices : List Index) (body id : NodeId) (serial : Nat)
    (scopes : List Scope) : Composed (extractSum indices body visit id serial scopes) := by
  have hfresh : Composed freshName := Composed.getMemory.seq fun _ =>
    (Composed.remember _).seq fun _ => .pure _
  exact (composed_openScope _ _ _).seq fun _ => (hv body _).seq fun _ =>
    (Composed.addUnless _ _ _).seq fun _ => hfresh.seq fun _ => (Composed.log _).seq fun _ =>
      (Composed.remember _).seq fun _ => .addNode _

theorem composed_visitSum (indices : List Index) (body id : NodeId) (scopes : List Scope) :
    Composed (visitSum indices body visit id scopes) := by
  unfold visitSum
  refine Composed.getMemory.seq fun m => ?_
  split
  · exact composed_visitLoop hv indices id _ scopes
  · refine (Composed.ask (isLookup_bindingSerial scopes id)).seq fun serial => ?_
    split
    · exact (Composed.addNode _).seq fun _ => .pure _
    · exact (composed_extractSum hv indices body id serial scopes).seq fun _ => .pure _

theorem composed_visitValues (scopes : List Scope) :
    ∀ (bindings : List Binding) (names : List String),
      Composed (visitValues visit scopes bindings names)
  | [], _ => .pure _
  | b :: bindings, _ => (composed_openScope _ _ _).seq fun _ => (hv b.value _).seq fun _ =>
    (composed_visitValues scopes bindings _).seq fun _ => .pure _

theorem composed_visitLet (bindings : List Binding) (body id : NodeId) (scopes : List Scope) :
    Composed (visitLet bindings body visit id scopes) :=
  (composed_visitValues hv scopes bindings []).seq fun _ => (composed_openScope _ _ _).seq
    fun _ => (hv body _).seq fun _ => (Composed.addUnless _ _ _).seq fun _ => .pure _

theorem composed_visitRecipe (r : Recipe) (id : NodeId) (scopes : List Scope) :
    Composed (visitRecipe r visit id scopes) :=
  (composed_exchangeRegion _).seq fun _ => (hv r.body scopes).seq fun _ =>
    (composed_exchangeRegion _).seq fun _ => (composed_bindTemporaries _ _).seq fun _ =>
      (Composed.addUnless _ _ _).seq fun _ => .pure _

theorem composed_rule (id : NodeId) (node : Node) (scopes : List Scope) :
    Composed (rule visit id node scopes) := by
  cases node with
  | indexSum indices body => exact composed_visitSum hv indices body id scopes
  | forAll indices body => exact composed_visitLoop hv indices id _ scopes
  | letIn bindings body => exact composed_visitLet hv bindings body id scopes
  | recipe r => exact composed_visitRecipe hv r id scopes
  | _ => exact Rule.composed_rebuild hv _ _ _

omit hv

theorem composed_replaceSums (root : NodeId) : Composed (replaceSums root) :=
  (Rule.composed_transform (fun _ hv => composed_rule hv) root []).seq fun _ => .pure _

theorem composed_extract (root : NodeId) : Composed (extract root) :=
  (Composed.walk _ root).seq fun _ => (composed_replaceSums root).seq fun id =>
    (composed_exchangeRegion _).seq fun region => composed_bindTemporaries region.pending id

theorem keepsArity_extract (root : NodeId) : KeepsArity (extract root) :=
  (composed_extract root).keepsArity

end Extraction

theorem composed_schedule (options : Extraction.Options) (root : NodeId) :
    Composed (schedule options root) := by
  have hbind : Composed (LoopBinding.bindFresh root) :=
    LoopBinding.bindFresh_eq root ▸ LoopBinding.composed_bind root
  exact (Composed.log _).seq fun _ => (Composed.within hbind).seq fun r =>
    (Composed.log _).seq fun _ => (Composed.within (Extraction.composed_extract r.1)).seq fun _ =>
      .pure _

theorem keepsArity_schedule (options : Extraction.Options) (root : NodeId) :
    KeepsArity (schedule options root) :=
  (composed_schedule options root).keepsArity

end TensorRecipe
