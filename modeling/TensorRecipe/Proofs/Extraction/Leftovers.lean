import TensorRecipe.Proofs.Extraction.Composition
import TensorRecipe.Proofs.Extraction.Fulfilment
import TensorRecipe.Proofs.Extraction.Placements
import TensorRecipe.Proofs.Extraction.Preservation
import TensorRecipe.Proofs.Pass.Outcomes

/-!
# What calls leave behind

A call that fails stops where it is: what waits for its place in the region it is in waits there
still when the next call begins.  However calls end, two things hold of the memory they leave
(`Memory.Orderly`): a sum is known just where its temporary is pending, and the names of what is
pending are taken.  And whatever is pending was so before, or a name has been minted for it since
(`Passes`); a call that succeeds besides takes nothing away from what was pending and mints names
that were not taken (`Proceeds`).

Main statements: `Memory.Served.orderly` for a memory that has served any calls, and
`pending_eq_nil_of_minted_eq_nil`.
-/

namespace TensorRecipe

/-! ### Walks however they end -/

namespace Visitor

variable {σ α β : Type} {collect : Visited → σ → σ} {a : Arena}

/-- However the steps of a walk end, the memory then comes of visits one after another. -/
def Collects (collect : Visited → σ → σ) (steps : Walk σ α) : Prop :=
  ∀ memory, ∃ visits : List Visited,
    memoryOf (steps memory) = visits.foldl (fun memory v => collect v memory) memory

theorem collects_pure (x : α) : Collects collect (pure x : Walk σ α) := fun _ => ⟨[], rfl⟩

theorem collects_throw (fault : Fault) : Collects collect (throw fault : Walk σ α) :=
  fun _ => ⟨[], rfl⟩

theorem Collects.bind {steps : Walk σ α} {f : α → Walk σ β} (h : Collects collect steps)
    (hf : ∀ x, Collects collect (f x)) : Collects collect (steps >>= f) := by
  intro memory
  obtain ⟨visits, hvisits⟩ := h memory
  change ∃ _, memoryOf (EStateM.bind steps f memory) = _
  unfold EStateM.bind
  cases hrun : steps memory with
  | ok x m =>
    obtain ⟨more, hmore⟩ := hf x m
    rw [hrun] at hvisits
    exact ⟨visits ++ more, by rw [List.foldl_append, ← hvisits]; exact hmore⟩
  | error fault m =>
    rw [hrun] at hvisits
    exact ⟨visits, hvisits⟩

theorem collects_ofExcept (result : Except Fault α) :
    Collects collect (MonadExcept.ofExcept result : Walk σ α) := by
  cases result with
  | ok x => exact collects_pure x
  | error fault => exact collects_throw fault

theorem Collects.forM {f : α → Walk σ Unit} (h : ∀ x, Collects collect (f x)) :
    ∀ xs : List α, Collects collect (xs.forM f)
  | [] => collects_pure ()
  | x :: xs => (h x).bind fun _ => Collects.forM h xs

theorem collects_enter (visited : Visited) :
    Collects collect (modifyGet ((gather collect).enter visited) : Walk σ Bool) :=
  fun _ => ⟨[visited], rfl⟩

theorem collects_leave (visited : Visited) :
    Collects collect (modify ((gather collect).leave visited) : Walk σ Unit) :=
  fun _ => ⟨[], rfl⟩

theorem collects_visitIndex (i : Index) : Collects collect ((gather collect).visitIndex a i) := by
  refine (collects_ofExcept (a.indexInfo i)).bind fun info => ?_
  refine (collects_enter _).bind fun entered => ?_
  split
  · exact collects_leave _
  · exact collects_pure ()

theorem collects_walkWithin :
    ∀ (depth : Nat) (id : NodeId), Collects collect ((gather collect).walkWithin a depth id)
  | 0, _ => collects_throw .cyclic
  | depth + 1, id => by
    unfold walkWithin
    refine (collects_ofExcept (a.get id)).bind fun node => ?_
    refine (collects_enter _).bind fun entered => ?_
    split
    · refine (Collects.forM collects_visitIndex _).bind fun _ => ?_
      exact (Collects.forM (collects_walkWithin depth) _).bind fun _ => collects_leave _
    · exact collects_pure ()

end Visitor

namespace Extraction

open PassM

/-! ### Memories -/

/-- In the region that is open, a sum is known just where its temporary is pending, and the names of
what is pending are taken. -/
structure Memory.Orderly (m : Memory) : Prop where
  known : m.region.known.map Prod.snd = (m.region.pending.map Temporary.name).reverse
  reserved : ∀ s ∈ m.region.pending, s.name ∈ m.namer.reserved

namespace Memory.Orderly

variable {m m' : Memory}

theorem ofOptions (options : Options) : (Memory.ofOptions options).Orderly :=
  ⟨rfl, by simp [Memory.ofOptions, Region.empty]⟩

theorem of_region_eq (h : m.Orderly) (hregion : m'.region = m.region)
    (hreserved : ∀ x ∈ m.namer.reserved, x ∈ m'.namer.reserved) : m'.Orderly := by
  refine ⟨?_, ?_⟩ <;> rw [hregion]
  · exact h.known
  · exact fun s hs => hreserved _ (h.reserved s hs)

theorem region_eq_empty (h : m.Orderly) (hpending : m.region.pending = []) :
    m.region = .empty := by
  have hknown : m.region.known = [] := by simpa [hpending] using h.known
  cases hm : m.region with
  | mk known pending =>
    rw [hm] at hknown hpending
    simp only at hknown hpending
    rw [hknown, hpending]
    rfl

end Memory.Orderly

/-- However it ends: no name has been given back, and whatever is pending was so before or has had a
name minted for it. -/
structure Passes (w w' : Workspace Memory) : Prop where
  orderly : w'.memory.Orderly
  reserved : ∀ x ∈ w.memory.namer.reserved, x ∈ w'.memory.namer.reserved
  logged : minted w.events ⊆ minted w'.events
  pending : ∀ s ∈ w'.memory.region.pending,
    s ∈ w.memory.region.pending ∨ s.name ∈ minted w'.events

/-- If it succeeds: names are minted afresh, and what was pending is so still. -/
structure Proceeds (w w' : Workspace Memory) : Prop extends Passes w w' where
  fresh : ∀ x ∈ minted w'.events, x ∈ minted w.events ∨ x ∉ w.memory.namer.reserved
  kept : w.memory.region.pending <+: w'.memory.region.pending

section

variable {w w' w'' : Workspace Memory}

theorem Passes.trans (h : Passes w w') (h' : Passes w' w'') : Passes w w'' := by
  refine ⟨h'.orderly, fun x hx => h'.reserved x (h.reserved x hx),
    fun x hx => h'.logged (h.logged hx), fun s hs => ?_⟩
  rcases h'.pending s hs with hs | hs
  · exact (h.pending s hs).imp_right fun hs => h'.logged hs
  · exact .inr hs

theorem Proceeds.trans (h : Proceeds w w') (h' : Proceeds w' w'') : Proceeds w w'' := by
  refine ⟨h.toPasses.trans h'.toPasses, fun x hx => ?_, h.kept.trans h'.kept⟩
  rcases h'.fresh x hx with hx | hx
  · exact h.fresh x hx
  · exact .inr fun hmem => hx (h.reserved x hmem)

theorem Proceeds.of_region_eq (h : w.memory.Orderly)
    (hregion : w'.memory.region = w.memory.region)
    (hreserved : ∀ x ∈ w.memory.namer.reserved, x ∈ w'.memory.namer.reserved)
    (hminted : minted w'.events = minted w.events) : Proceeds w w' := by
  refine ⟨⟨h.of_region_eq hregion hreserved, hreserved, ?_, ?_⟩, ?_, ?_⟩
  · rw [hminted]
    exact fun _ hx => hx
  · rw [hregion]
    exact fun s hs => .inl hs
  · rw [hminted]
    exact fun x hx => .inl hx
  · rw [hregion]

theorem Proceeds.refl (h : w.memory.Orderly) : Proceeds w w :=
  .of_region_eq h rfl (fun _ hx => hx) rfl

theorem Proceeds.of_mints (h : w.memory.Orderly) {name : String} {key : NodeId × Nat}
    {value : NodeId} (hm : Mints w w' name key value) : Proceeds w w' := by
  have hreserved : ∀ x ∈ w.memory.namer.reserved, x ∈ w'.memory.namer.reserved := fun x hx => by
    rw [hm.reserved]
    exact List.mem_cons_of_mem _ hx
  have hpending : w'.memory.region.pending = w.memory.region.pending ++ [⟨name, value⟩] := by
    rw [hm.region]
    rfl
  have hsince : ∀ s ∈ w'.memory.region.pending,
      s ∈ w.memory.region.pending ∨ s.name = name := fun s hs => by
    rw [hpending] at hs
    refine (List.mem_append.1 hs).imp_right fun hs => ?_
    rw [List.mem_singleton.1 hs]
  refine ⟨⟨⟨?_, fun s hs => ?_⟩, hreserved, ?_, fun s hs => ?_⟩, fun x hx => ?_, ?_⟩
  · rw [hpending, hm.region, List.map_append, List.reverse_append, ← h.known]
    rfl
  · rcases hsince s hs with hs | hs
    · exact hreserved _ (h.reserved s hs)
    · rw [hm.reserved, hs]
      exact List.mem_cons_self
  · rw [hm.minted]
    exact List.subset_cons_self _ _
  · rw [hm.minted]
    refine (hsince s hs).imp_right fun hs => ?_
    rw [hs]
    exact List.mem_cons_self
  · rw [hm.minted] at hx
    rcases List.mem_cons.1 hx with rfl | hx
    · exact .inr hm.fresh
    · exact .inl hx
  · rw [hpending]
    exact List.prefix_append _ _

end

/-! ### Steps -/

/-- However the steps end, the memory stays orderly. -/
def KeepsOrder {α : Type} (steps : PassM Memory α) : Prop :=
  ∀ w, w.memory.Orderly → steps.Ends w (fun _ w' => Proceeds w w') fun _ w' => Passes w w'

section

variable {α β : Type}

theorem keepsOrder_pure (x : α) : KeepsOrder (pure x : PassM Memory α) := fun w h =>
  have hpure : (pure x : PassM Memory α).Gives w fun _ w' => Proceeds w w' := gives_pure (.refl h)
  hpure.ends

theorem keepsOrder_throw (fault : Fault) : KeepsOrder (throw fault : PassM Memory α) := fun _ h =>
  ends_throw (Proceeds.refl h).toPasses

theorem KeepsOrder.bind {steps : PassM Memory α} {f : α → PassM Memory β} (h : KeepsOrder steps)
    (hf : ∀ x, KeepsOrder (f x)) : KeepsOrder (steps >>= f) := fun w hw =>
  (h w hw).bind fun x _ hx => (hf x _ hx.orderly).mono (fun _ _ => hx.trans) fun _ _ =>
    hx.toPasses.trans

theorem keepsOrder_ask (look : Arena → Except Fault α) :
    KeepsOrder (ask look : PassM Memory α) := fun w hw => by
  have hrefl := Proceeds.refl hw
  unfold ask
  refine ⟨fun x w' hrun => ?_, fun fault w' hrun => ?_⟩ <;> split at hrun <;> cases hrun
  · exact hrefl
  · exact hrefl.toPasses

theorem keepsOrder_addNode (node : Node) : KeepsOrder (addNode node : PassM Memory NodeId) := by
  intro w hw
  refine (gives_addNode.mono ?_).ends
  rintro _ w' ⟨-, rfl⟩
  exact .of_region_eq hw rfl (fun _ hx => hx) rfl

theorem keepsOrder_addUnless (unchanged : Prop) [Decidable unchanged] (id : NodeId) (node : Node) :
    KeepsOrder (addUnless unchanged id node : PassM Memory NodeId) := by
  unfold addUnless
  split
  · exact keepsOrder_pure id
  · exact keepsOrder_addNode node

theorem keepsOrder_setChildren (id : NodeId) (node : Node) (news : List NodeId) :
    KeepsOrder (setChildren id node news : PassM Memory NodeId) := by
  unfold setChildren
  split
  · exact keepsOrder_pure id
  · exact (keepsOrder_ask _).bind fun new => keepsOrder_addNode new

theorem keepsOrder_openScope (indices : List Index) (names : List String) (scopes : List Scope) :
    KeepsOrder (openScope indices names scopes) := by
  refine (keepsOrder_ask _).bind fun factors w hw => ?_
  refine (gives_remember.bind ?_).ends
  rintro _ w₁ rfl
  refine gives_getMemory.bind ?_
  rintro m _ ⟨-, rfl⟩
  exact gives_pure (.of_region_eq hw rfl (fun _ hx => hx) rfl)

theorem keepsOrder_survey (root : NodeId) :
    KeepsOrder (PassM.walk (fun a => Visitor.gather (Memory.survey a)) root) := by
  intro w hw
  have hcollects : Visitor.Collects (Memory.survey w.arena)
      ((Visitor.gather (Memory.survey w.arena)).walk w.arena root) :=
    Visitor.collects_walkWithin _ root
  obtain ⟨visits, hvisits⟩ := hcollects w.memory
  have hreserves := (Memory.reserves_foldl_survey w.arena visits w.memory).1
  rw [← hvisits] at hreserves
  have hend : ∀ m, Memory.Reserves w.memory m → Proceeds w { w with memory := m } := fun m hm =>
    .of_region_eq hw hm.region hm.reserved rfl
  refine ⟨fun x w' hrun => ?_, fun fault w' hrun => ?_⟩ <;> simp only [PassM.walk] at hrun <;>
    split at hrun <;> cases hrun
  · next hwalk =>
    rw [hwalk] at hreserves
    exact hend _ hreserves
  · next hwalk =>
    rw [hwalk] at hreserves
    exact (hend _ hreserves).toPasses

/-! ### Placing -/

theorem Plan.Logs.minted_eq {p : Plan} {w w' : Workspace (List Nat)} (h : p.Logs w w') :
    minted w'.events = minted w.events := by
  obtain ⟨_, events, -, hevents, hlogs⟩ := h
  have hnone : minted events = [] := by
    refine List.filterMap_eq_nil_iff.2 fun e he => ?_
    obtain ⟨name, around, rfl⟩ := hlogs.placed e he
    rfl
  have happend : minted (events ++ w.events) = minted events ++ minted w.events :=
    List.filterMap_append
  rw [hevents, happend, hnone, List.nil_append]

theorem Plan.ensures_placeLeftOver_minted {p : Plan} (warnUnused : Bool) :
    ∀ (ts : List (Temporary × Nat)) {w : Workspace (List Nat)},
      (p.placeLeftOver warnUnused ts).Ensures w fun _ w' => minted w'.events = minted w.events
  | [], _ => ensures_pure rfl
  | (temporary, t) :: ts, w => by
    unfold placeLeftOver
    refine gives_getMemory.ensures.bind ?_
    rintro _ v ⟨rfl, rfl⟩
    split
    · exact ensures_placeLeftOver_minted warnUnused ts
    · refine gives_remember.ensures.bind ?_
      rintro _ w₁ rfl
      refine (ensures_logIf _ _).bind ?_
      rintro _ w₂ ⟨-, hevents⟩
      have hw₂ : minted w₂.events = minted v.events := by
        rcases hevents with hevents | hevents <;> rw [hevents]
        rfl
      refine (p.ensures_place_logs false temporary.value).bind fun r w₃ hlogs => ?_
      refine (ensures_placeLeftOver_minted warnUnused ts).bind fun _ w₄ hw₄ => ?_
      exact ensures_pure (hw₄.trans (hlogs.minted_eq.trans hw₂))

theorem Plan.ensures_placeAll_minted {p : Plan} (warnUnused : Bool) (body : NodeId)
    {w : Workspace (List Nat)} : (p.placeAll warnUnused body).Ensures w fun _ w' =>
      minted w'.events = minted w.events := by
  refine (p.ensures_place_logs true body).bind fun r w₁ hlogs => ?_
  refine (ensures_placeLeftOver_minted warnUnused _).bind fun bindings w₂ hw₂ => ?_
  refine (gives_addUnless_get _ _ _).ensures.mono fun _ w₃ ⟨_, hw₃, _⟩ => ?_
  rw [hw₃]
  exact hw₂.trans hlogs.minted_eq

theorem minted_subset {events more : List Event} (h : events <:+ more) :
    minted events ⊆ minted more :=
  (h.sublist.filterMap _).subset

theorem keepsOrder_bindTemporaries (temporaries : List Temporary) (body : NodeId) :
    KeepsOrder (bindTemporaries temporaries body) := by
  unfold bindTemporaries
  split
  · exact keepsOrder_pure body
  · refine KeepsOrder.bind (fun w hw => ?_) fun m => (keepsOrder_ask _).bind fun plan =>
      KeepsOrder.bind (fun w hw => ⟨fun r w' hrun => ?_, fun fault w' hrun => ?_⟩) fun _ =>
        keepsOrder_pure _
    · refine (gives_getMemory.mono ?_).ends
      rintro _ w' ⟨-, rfl⟩
      exact .refl hw
    · obtain ⟨v, hv, -, rfl⟩ := of_within_eq_ok hrun
      exact .of_region_eq hw rfl (fun _ hx => hx) (plan.ensures_placeAll_minted _ _ _ _ hv)
    · have hgrows := (Composed.within (plan.composed_placeAll m.options.warnUnused body)
        ).suffix_of_leaves (.inr ⟨fault, hrun⟩)
      have hmemory : w'.memory = w.memory := by
        simp only [within] at hrun
        split at hrun <;> cases hrun
        rfl
      refine ⟨?_, ?_, minted_subset hgrows, ?_⟩ <;> rw [hmemory]
      · exact hw
      · exact fun _ hx => hx
      · exact fun s hs => .inl hs

end

/-! ### Visits -/

section

variable {visit : ScopedVisit} (hv : ∀ id scopes, KeepsOrder (visit id scopes))
include hv

theorem Visit.keepsOrder_all : ∀ ids scopes, KeepsOrder (visit.all ids scopes)
  | [], _ => keepsOrder_pure _
  | id :: ids, scopes => (hv id scopes).bind fun r =>
    (Visit.keepsOrder_all ids r.2).bind fun _ => keepsOrder_pure _

theorem keepsOrder_rebuild (id : NodeId) (node : Node) (scopes : List Scope) :
    KeepsOrder (Rule.rebuild visit id node scopes) :=
  (Visit.keepsOrder_all hv node.children scopes).bind fun _ =>
    (keepsOrder_setChildren _ _ _).bind fun _ => keepsOrder_pure _

theorem keepsOrder_visitLoop (indices : List Index) (id : NodeId) (node : Node)
    (scopes : List Scope) : KeepsOrder (visitLoop indices visit id node scopes) :=
  (keepsOrder_openScope _ _ _).bind fun _ => (keepsOrder_rebuild hv _ _ _).bind fun _ =>
    keepsOrder_pure _

theorem keepsOrder_extractSum (indices : List Index) (body id : NodeId) (serial : Nat)
    (scopes : List Scope) : KeepsOrder (extractSum indices body visit id serial scopes) := by
  refine (keepsOrder_openScope _ _ _).bind fun inner => (hv body inner).bind fun r =>
    (keepsOrder_addUnless _ _ _).bind fun value w hw => ?_
  refine (gives_mint.mono ?_).ends
  rintro new w' ⟨name, hm, -⟩
  exact .of_mints hw hm

theorem keepsOrder_visitSum (indices : List Index) (body id : NodeId) (scopes : List Scope) :
    KeepsOrder (visitSum indices body visit id scopes) := by
  intro w hw
  refine gives_getMemory.ends.bind ?_
  rintro _ v ⟨rfl, rfl⟩
  split
  · exact keepsOrder_visitLoop hv indices id _ scopes v hw
  · refine (keepsOrder_ask _).bind (fun serial => ?_) v hw
    split
    · exact (keepsOrder_addNode _).bind fun _ => keepsOrder_pure _
    · exact (keepsOrder_extractSum hv indices body id serial scopes).bind fun _ =>
        keepsOrder_pure _

theorem keepsOrder_visitValues (scopes : List Scope) :
    ∀ (bindings : List Binding) (names : List String),
      KeepsOrder (visitValues visit scopes bindings names)
  | [], _ => keepsOrder_pure _
  | b :: bindings, _ => (keepsOrder_openScope _ _ _).bind fun _ => (hv b.value _).bind fun _ =>
    (keepsOrder_visitValues scopes bindings _).bind fun _ => keepsOrder_pure _

theorem keepsOrder_visitLet (bindings : List Binding) (body id : NodeId) (scopes : List Scope) :
    KeepsOrder (visitLet bindings body visit id scopes) :=
  (keepsOrder_visitValues hv scopes bindings []).bind fun _ => (keepsOrder_openScope _ _ _).bind
    fun _ => (hv body _).bind fun _ => (keepsOrder_addUnless _ _ _).bind fun _ => keepsOrder_pure _

/-- In the body of a recipe nothing is pending at first.  If the visit stops there, what is pending
outside is lost; else it is pending again afterwards. -/
theorem keepsOrder_visitRecipe (r : Recipe) (id : NodeId) (scopes : List Scope) :
    KeepsOrder (visitRecipe r visit id scopes) := by
  intro w hw
  refine gives_exchangeRegion.ends.bind ?_
  rintro _ w₁ ⟨rfl, rfl⟩
  have hempty : Memory.Orderly { w.memory with region := .empty } := ⟨rfl, by simp [Region.empty]⟩
  refine ((hv r.body scopes _ hempty).mono (fun _ _ h => h) fun _ w₂ h => ?_).bind ?_
  · refine ⟨h.orderly, h.reserved, h.logged, fun s hs => .inr ?_⟩
    exact (h.pending s hs).resolve_left (by simp [Region.empty])
  rintro q w₂ h
  refine gives_exchangeRegion.ends.bind ?_
  rintro _ w₃ ⟨rfl, rfl⟩
  have hback : Proceeds w { w₂ with memory := { w₂.memory with region := w.memory.region } } :=
    ⟨⟨hw.of_region_eq rfl h.reserved, h.reserved, h.logged, fun _ hs => .inl hs⟩, h.fresh,
      List.prefix_rfl⟩
  have hrest : KeepsOrder (do
      let body ← bindTemporaries w₂.memory.region.pending q.1
      let id ← PassM.addUnless (body = r.body) id (.recipe { r with body })
      return (id, scopes) : PassM Memory (NodeId × List Scope)) :=
    (keepsOrder_bindTemporaries _ _).bind fun _ => (keepsOrder_addUnless _ _ _).bind fun _ =>
      keepsOrder_pure _
  exact (hrest _ hback.orderly).mono (fun _ _ => hback.trans) fun _ _ => hback.toPasses.trans

theorem keepsOrder_rule (id : NodeId) (node : Node) (scopes : List Scope) :
    KeepsOrder (rule visit id node scopes) := by
  cases node with
  | indexSum indices body => exact keepsOrder_visitSum hv indices body id scopes
  | forAll indices body => exact keepsOrder_visitLoop hv indices id _ scopes
  | letIn bindings body => exact keepsOrder_visitLet hv bindings body id scopes
  | recipe r => exact keepsOrder_visitRecipe hv r id scopes
  | _ => exact keepsOrder_rebuild hv _ _ _

end

/-! ### Calls -/

theorem keepsOrder_transformWithin :
    ∀ depth id scopes, KeepsOrder (rule.transformWithin depth id scopes)
  | 0, _, _ => keepsOrder_throw .cyclic
  | depth + 1, id, scopes => (keepsOrder_ask _).bind fun node =>
    keepsOrder_rule (keepsOrder_transformWithin depth) id node scopes

theorem keepsOrder_replaceSums (root : NodeId) : KeepsOrder (replaceSums root) :=
  ((keepsOrder_ask _).bind fun depth => keepsOrder_transformWithin depth root []).bind
    fun _ => keepsOrder_pure _

/-- However a call ends, it leaves an orderly memory.  If it succeeds, nothing is pending any more:
what was pending when it began is bound in the result, and the names it has minted are others. -/
theorem ends_extract (root : NodeId) {w : Workspace Memory} (hw : w.memory.Orderly) :
    (extract root).Ends w (fun out w' => Passes w w' ∧ w'.memory.region.pending = [] ∧
        (∀ s ∈ w.memory.region.pending, w'.arena.Binds out s.name) ∧
        ∀ x ∈ minted w'.events, x ∈ minted w.events ∨ x ∉ w.memory.namer.reserved)
      fun _ w' => Passes w w' := by
  refine (keepsOrder_survey root w hw).bind ?_
  rintro _ w₁ h₁
  refine ((keepsOrder_replaceSums root w₁ h₁.orderly).mono (fun _ _ => h₁.trans)
    fun _ _ => h₁.toPasses.trans).bind ?_
  rintro id w₂ h₂
  refine gives_exchangeRegion.ends.bind ?_
  rintro _ w₃ ⟨rfl, rfl⟩
  have h₃ : Passes w { w₂ with memory := { w₂.memory with region := .empty } } :=
    ⟨⟨rfl, by simp [Region.empty]⟩, h₂.reserved, h₂.logged, by simp [Region.empty]⟩
  have hplaced := keepsOrder_bindTemporaries w₂.memory.region.pending id _ h₃.orderly
  refine ⟨fun out w' hrun => ?_, fun fault w' hrun => h₃.trans (hplaced.error _ _ hrun)⟩
  have h₄ := hplaced.ok _ _ hrun
  refine ⟨h₃.trans h₄.toPasses, ?_, fun s hs => ?_, fun x hx => ?_⟩
  · rw [memory_bindTemporaries hrun]
    rfl
  · exact ensures_bindTemporaries_binds _ _ _ _ hrun s (h₂.kept.subset hs)
  · rcases h₄.fresh x hx with hx | hx
    · exact h₂.fresh x hx
    · exact .inr fun hmem => hx (h₂.reserved x hmem)

/-- A memory that has served calls, of which any may have failed, and replacements of sums without
their placing. -/
inductive Memory.Served : Memory → Prop where
  | fresh (options : Options) : Served (.ofOptions options)
  | call {root : NodeId} {w w' : Workspace Memory} (before : Served w.memory)
    (run : (extract root).Leaves w w') : Served w'.memory
  | replacement {root : NodeId} {w w' : Workspace Memory} (before : Served w.memory)
    (run : (replaceSums root).Leaves w w') : Served w'.memory

theorem Memory.Served.orderly {m : Memory} (h : m.Served) : m.Orderly := by
  induction h with
  | fresh options => exact .ofOptions options
  | @call root w w' _ run ih =>
    have hends := ends_extract root ih
    obtain ⟨_, hrun⟩ | ⟨_, hrun⟩ := run
    · exact (hends.ok _ _ hrun).1.orderly
    · exact (hends.error _ _ hrun).orderly
  | @replacement root w w' _ run ih =>
    have hends := keepsOrder_replaceSums root w ih
    obtain ⟨_, hrun⟩ | ⟨_, hrun⟩ := run
    · exact (hends.ok _ _ hrun).orderly
    · exact (hends.error _ _ hrun).orderly

/-- A call that fails before it has minted a name leaves nothing behind. -/
theorem pending_eq_nil_of_minted_eq_nil {root : NodeId} {w w' : Workspace Memory} {fault : Fault}
    (hm : w.memory.Served) (hpending : w.memory.region.pending = [])
    (hfails : extract root w = .error fault w') (hminted : minted w'.events = []) :
    w'.memory.region.pending = [] := by
  refine List.eq_nil_iff_forall_not_mem.2 fun s hs => ?_
  rcases ((ends_extract root hm.orderly).error _ _ hfails).pending s hs with hs | hs
  · simp [hpending] at hs
  · simp [hminted] at hs

end Extraction

end TensorRecipe
