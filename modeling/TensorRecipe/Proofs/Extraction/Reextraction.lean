import TensorRecipe.Proofs.Extraction.BoundSums
import TensorRecipe.Proofs.Schedule

/-!
# Extracting twice

Where lets bind every sum of a tree, there is nothing to extract: each rule answers the handle it is
given and adds no node (`ensures_extract_same`).  If no sum that a let binds stands exposed as well,
extraction leaves such a tree, so that extracting it again changes nothing (`extract_extract`).
-/

namespace TensorRecipe

namespace Extraction

open Draft PassM

/-! ### Trees with nothing to extract -/

/-- The arena is the same, and so are the sums that lets bind and the temporaries. -/
structure Unchanged (w w' : Workspace Memory) : Prop where
  arena : w'.arena = w.arena
  bound : w'.memory.bound = w.memory.bound
  region : w'.memory.region = w.memory.region

namespace Unchanged

theorem refl (w : Workspace Memory) : Unchanged w w := ⟨rfl, rfl, rfl⟩

theorem trans {w w' w'' : Workspace Memory} (h : Unchanged w w') (h' : Unchanged w' w'') :
    Unchanged w w'' :=
  ⟨h'.arena.trans h.arena, h'.bound.trans h.bound, h'.region.trans h.region⟩

theorem settled {w w' : Workspace Memory} (h : Unchanged w w') {id : NodeId}
    (hs : w.arena.Settled (· ∈ w.memory.bound) id) : w'.arena.Settled (· ∈ w'.memory.bound) id := by
  rwa [h.arena, h.bound]

theorem get {w w' : Workspace Memory} (h : Unchanged w w') {id : NodeId} {node : Node}
    (hn : w.arena.get id = .ok node) : w'.arena.get id = .ok node := by
  rwa [h.arena]

end Unchanged

/-- The visit leaves every tree as it is whose sums are bound by lets. -/
def Leaves (visit : ScopedVisit) : Prop :=
  ∀ {id : NodeId} {scopes : List Scope} {w : Workspace Memory},
    w.arena.Settled (· ∈ w.memory.bound) id → (visit id scopes).Ensures w fun r w' =>
      r.1 = id ∧ Unchanged w w'

variable {visit : ScopedVisit} {w : Workspace Memory} {scopes : List Scope} {id : NodeId}

theorem unchanged_openScope {indices : List Index} {names : List String} :
    (openScope indices names scopes).Ensures w fun _ w' => Unchanged w w' := by
  refine ensures_ask_bind fun factors _ => ?_
  refine gives_remember.ensures.bind ?_
  rintro _ w₁ rfl
  refine gives_getMemory.ensures.bind ?_
  rintro m _ ⟨-, rfl⟩
  exact ensures_pure ⟨rfl, rfl, rfl⟩

section

variable (hv : Leaves visit) (hs : w.arena.Settled (· ∈ w.memory.bound) id)

include hv hs

theorem ensures_rebuild_same {node : Node} (hn : w.arena.get id = .ok node) :
    (Rule.rebuild visit id node scopes).Ensures w fun r w' => r.1 = id ∧ Unchanged w w' := by
  refine Rule.ensures_rebuild_same (I := fun v _ => Unchanged w v) (fun c hc passed v hwv => ?_)
    (.refl w)
  refine (hv (hwv.settled (hs.child ⟨node, hn, hc⟩))).mono fun r v' ⟨hr, hvv'⟩ => ?_
  exact ⟨hr, hwv.trans hvv'⟩

theorem ensures_visitLoop_same {node : Node} {indices : List Index}
    (hn : w.arena.get id = .ok node) : (visitLoop indices visit id node scopes).Ensures w
      fun r w' => r.1 = id ∧ Unchanged w w' := by
  refine unchanged_openScope.bind fun inner w₁ hw₁ => ?_
  refine (ensures_rebuild_same hv (hw₁.settled hs) (hw₁.get hn)).bind ?_
  rintro ⟨_, _⟩ w₂ ⟨rfl, hw₂⟩
  exact ensures_pure ⟨rfl, hw₁.trans hw₂⟩

theorem ensures_visitSum_same {indices : List Index} {body : NodeId}
    (hn : w.arena.get id = .ok (.indexSum indices body)) :
    (visitSum indices body visit id scopes).Ensures w fun r w' => r.1 = id ∧ Unchanged w w' := by
  refine gives_getMemory.ensures.bind ?_
  rintro _ _ ⟨rfl, rfl⟩
  rw [if_pos (hs id .refl ⟨_, _, hn⟩)]
  exact ensures_visitLoop_same hv hs hn

omit hs in
theorem ensures_visitValues_same : ∀ (bindings : List Binding) (names : List String)
    {w : Workspace Memory}, (∀ b ∈ bindings, w.arena.Settled (· ∈ w.memory.bound) b.value) →
      (visitValues visit scopes bindings names).Ensures w fun r w' =>
        r.1 = bindings ∧ Unchanged w w'
  | [], _, _, _ => ensures_pure ⟨rfl, .refl _⟩
  | b :: bindings, names, w, hs => by
    refine unchanged_openScope.bind fun inner w₁ hw₁ => ?_
    refine (hv (hw₁.settled (hs b (by simp)))).bind ?_
    rintro ⟨_, _⟩ w₂ ⟨rfl, hw₂⟩
    have hw := hw₁.trans hw₂
    refine (ensures_visitValues_same bindings (b.name :: names)
      fun c hc => hw.settled (hs c (List.mem_cons_of_mem _ hc))).bind ?_
    rintro ⟨_, _⟩ w₃ ⟨rfl, hw₃⟩
    exact ensures_pure ⟨rfl, hw.trans hw₃⟩

theorem ensures_visitLet_same {bindings : List Binding} {body : NodeId}
    (hn : w.arena.get id = .ok (.letIn bindings body)) :
    (visitLet bindings body visit id scopes).Ensures w fun r w' => r.1 = id ∧ Unchanged w w' := by
  refine (ensures_visitValues_same hv bindings [] fun b hb => hs.child
    ⟨_, hn, List.mem_append_left _ (List.mem_map_of_mem hb)⟩).bind ?_
  rintro ⟨_, names⟩ w₁ ⟨rfl, hw₁⟩
  refine unchanged_openScope.bind fun inner w₂ hw₂ => ?_
  have hbody : w.arena.Child id body := ⟨_, hn, by simp [Node.children]⟩
  refine (hv ((hw₁.trans hw₂).settled (hs.child hbody))).bind ?_
  rintro ⟨_, _⟩ w₃ ⟨rfl, hw₃⟩
  refine (gives_addUnless_same ⟨rfl, rfl⟩).ensures.bind ?_
  rintro _ _ ⟨rfl, rfl⟩
  exact ensures_pure ⟨rfl, (hw₁.trans hw₂).trans hw₃⟩

/-- Where nothing is pending there is nothing to bind. -/
theorem ensures_visitRecipe_same {r : Recipe} (hn : w.arena.get id = .ok (.recipe r)) :
    (visitRecipe r visit id scopes).Ensures w fun q w' => q.1 = id ∧ Unchanged w w' := by
  refine gives_exchangeRegion.ensures.bind ?_
  rintro _ w₁ ⟨rfl, rfl⟩
  have hbody : w.arena.Child id r.body := ⟨_, hn, by simp [Node.children]⟩
  refine Ensures.bind (hv (w := { w with memory := { w.memory with region := .empty } })
    (hs.child hbody)) ?_
  rintro ⟨_, _⟩ w₂ ⟨rfl, hw₂⟩
  refine gives_exchangeRegion.ensures.bind ?_
  rintro _ w₃ ⟨rfl, rfl⟩
  dsimp only
  rw [hw₂.region]
  refine (ensures_pure (Q := fun x v => x = r.body ∧ v = _) ⟨rfl, rfl⟩).bind ?_
  rintro _ _ ⟨rfl, rfl⟩
  refine (gives_addUnless_same rfl).ensures.bind ?_
  rintro _ _ ⟨rfl, rfl⟩
  exact ensures_pure ⟨rfl, hw₂.arena, hw₂.bound, rfl⟩

end

theorem leaves_transformWithin : ∀ depth, Leaves (rule.transformWithin depth)
  | 0, _, _, _, _ => ensures_throw
  | depth + 1, id, scopes, w, hs => by
    have hv : Leaves (rule.transformWithin depth) := leaves_transformWithin depth
    refine Rule.ensures_transformWithin fun node hn => ?_
    cases node with
    | indexSum indices body => exact ensures_visitSum_same hv hs hn
    | forAll indices body => exact ensures_visitLoop_same hv hs hn
    | letIn bindings body => exact ensures_visitLet_same hv hs hn
    | recipe r => exact ensures_visitRecipe_same hv hs hn
    | _ => exact ensures_rebuild_same hv hs hn

theorem ensures_extract_same {a : Arena} {root : NodeId} {t : Tree} (options : Options)
    (h : a.WellFormed root t)
    (hsums : ∀ s, a.Reaches root s → a.IsSum s → a.IsLetValue root s) :
    (extract root).Ensures ⟨a, [], .ofOptions options⟩ fun out w' =>
      out = root ∧ w'.arena = a := by
  have hsurvey := (gives_survey (w := ⟨a, [], .ofOptions options⟩) h).ensures.and ensures_survey
  refine hsurvey.bind fun _ w₁ ⟨⟨harena, _, hreserves, _⟩, hbound⟩ => ?_
  have hs : w₁.arena.Settled (· ∈ w₁.memory.bound) root := by
    rw [harena]
    exact fun s hs hsum => (hbound s).2 (.inr ⟨hsums s hs hsum, hsum⟩)
  have hreplace : (replaceSums root).Ensures w₁ fun new w₂ => new = root ∧ Unchanged w₁ w₂ :=
    (Rule.ensures_transform fun depth => leaves_transformWithin depth hs).bind
      fun _ _ hr => ensures_pure hr
  refine hreplace.bind ?_
  rintro _ w₂ ⟨rfl, hw₂⟩
  refine gives_exchangeRegion.ensures.bind ?_
  rintro _ w₃ ⟨rfl, rfl⟩
  rw [hw₂.region, hreserves.region]
  exact ensures_pure ⟨rfl, hw₂.arena.trans harena⟩

/-! ### What extraction leaves -/

theorem not_isSum_of_bindsFresh {factors : Index → List Index} {used order : List String}
    {d : Draft} (hlowest : d.Lowest order) (hs : d.Scoped factors used) (hapart : d.Apart)
    {b : Arena} {out id c : NodeId} {node : Node} (hun : b.Unfolds out d.toTree)
    (hid : b.Reaches out id) (hn : b.get id = .ok node) (hc : c ∈ node.exposed)
    (hfresh : node.BindsFresh used) : ¬ b.IsSum c := by
  rintro ⟨is, e, hsum⟩
  obtain ⟨x, hx, hfresh⟩ := hfresh
  cases node with
  | letIn bindings body =>
    obtain rfl := List.mem_singleton.1 hc
    obtain ⟨⟨_, _⟩, hu, hwithin⟩ := hun.exists_within hid
    obtain ⟨_, hn', rfl, hchildren⟩ := hu.get
    obtain rfl := Except.ok.inj (hn.symm.trans hn')
    obtain ⟨values, ⟨_, _⟩, rfl, -, hbody⟩ := Arena.exists_append_singleton hchildren
    obtain ⟨_, hsum', rfl, hinner⟩ := hbody.get
    obtain rfl := Except.ok.inj (hsum.symm.trans hsum')
    obtain _ | ⟨-, _ | _⟩ := hinner
    exact hlowest.not_within_letAround_sum hs hapart ⟨x, hx, hfresh⟩ values is _ hwithin
  | _ => cases hx

/-- Where no sum that a let binds stands exposed as well, lets bind all sums once they have been
extracted. -/
theorem gives_extract_bound {a : Arena} {root : NodeId} {t : Tree} (options : Options)
    (h : a.WellFormed root t)
    (hexposed : ∀ c, a.IsSum c → a.IsLetValue root c → ¬ a.Exposes root c) :
    (extract root).Gives ⟨a, [], .ofOptions options⟩ fun out w' =>
      (∃ u, w'.arena.WellFormed out u) ∧
        ∀ s, w'.arena.Reaches out s → w'.arena.IsSum s → w'.arena.IsLetValue out s := by
  obtain ⟨out, w', hok, xs, d, hd, hlowest, hadvances, hun⟩ :=
    gives_extract_lowest (w := ⟨a, [], .ofOptions options⟩) h rfl
  obtain ⟨out', w'', hok', hwf⟩ := gives_extract_wellFormed
    (w := ⟨a, [], .ofOptions options⟩) h (.fresh options)
  obtain ⟨rfl, rfl⟩ : out = out' ∧ w' = w'' := by simpa [hok] using hok'
  have hdoubled := ensures_extract_doubled options h
    (fun c hexp hlet hsum => absurd hexp (hexposed c hsum hlet)) out w' hok
  refine ⟨out, w', hok, hwf, fun s hs hsum => ?_⟩
  have hapart : d.Apart :=
    ⟨((hd.bound.map _).nodup_iff).2 hadvances.nodup, fun x hx => absurd hx (hd.closed x)⟩
  rcases hdoubled.1.sum_cases hs hsum with rfl | hlet | ⟨hlet, hsum', hexp⟩ |
    ⟨id, node, hid, hn, hc, hfresh⟩
  · exact absurd hsum hdoubled.2
  · exact hlet
  · exact absurd hexp (hexposed s hsum' hlet)
  · exact absurd hsum
      (not_isSum_of_bindsFresh hlowest hd.isScoped hapart hun hid hn hc hfresh)

/-- Extraction is idempotent where no sum that a let binds stands exposed as well: extracting what
it makes of a tree answers the same handle and adds no node. -/
theorem extract_extract {a : Arena} {root : NodeId} {t : Tree} (options : Options)
    (h : a.WellFormed root t)
    (hexposed : ∀ c, a.IsSum c → a.IsLetValue root c → ¬ a.Exposes root c) :
    ∃ out w, (extract root).start a (.ofOptions options) = .ok out w ∧
      ∀ options', ∃ w', (extract out).start w.arena (.ofOptions options') = .ok out w' ∧
        w'.arena = w.arena := by
  obtain ⟨out, w, hok, ⟨u, hu⟩, hsums⟩ := gives_extract_bound options h hexposed
  refine ⟨out, w, hok, fun options' => ?_⟩
  obtain ⟨out', w', hok', -⟩ := gives_extract_wellFormed (w := ⟨w.arena, [], .ofOptions options'⟩)
    hu (.fresh options')
  obtain ⟨rfl, harena⟩ := ensures_extract_same options' hu hsums out' w' hok'
  exact ⟨w', hok', harena⟩

/-- A sum that a let binds, and one beside its name. -/
def halfBound : Arena where
  nodes := #[.index ⟨0⟩, .indexSum [⟨0⟩] ⟨0⟩, .var "x", .indexSum [⟨1⟩] ⟨2⟩,
    .operator .sum [⟨2⟩, ⟨3⟩], .letIn [⟨"x", ⟨1⟩⟩] ⟨4⟩]
  indices := #[⟨"j", 2, .domain, []⟩, ⟨"k", 3, .domain, []⟩]

theorem wellFormed_halfBound : ∃ t, halfBound.WellFormed ⟨5⟩ t := by
  have hvar : halfBound.Unfolds ⟨2⟩ (.node (.var "x") []) := ⟨_, rfl, rfl, trivial⟩
  have hinner : halfBound.Unfolds ⟨1⟩ (.node (.indexSum [⟨0⟩]) [.node (.index ⟨0⟩) []]) :=
    ⟨_, rfl, rfl, ⟨_, rfl, rfl, trivial⟩, trivial⟩
  have hbody : halfBound.Unfolds ⟨4⟩ (.node (.operator .sum)
      [.node (.var "x") [], .node (.indexSum [⟨1⟩]) [.node (.var "x") []]]) :=
    ⟨_, rfl, rfl, hvar, ⟨_, rfl, rfl, hvar, trivial⟩, trivial⟩
  have hj : halfBound.Resolves ⟨0⟩ := .intro rfl (by simp [halfBound])
  have hk : halfBound.Resolves ⟨1⟩ := .intro rfl (by simp [halfBound])
  refine ⟨.node (.letIn ["x"]) [_, _], ⟨_, rfl, rfl, hinner, hbody, trivial⟩, ?_⟩
  simp [Tree.indices, Tree.indicesAll, Shape.indices, hj, hk]

/-- The sum beside the name becomes the value of a let as well, and there it ends. -/
theorem extract_extract_halfBound :
    ∃ out w, (extract ⟨5⟩).start halfBound (.ofOptions .default) = .ok out w ∧
      w.arena.size = 11 ∧ ∃ w', (extract out).start w.arena (.ofOptions .default) = .ok out w' ∧
        w'.arena = w.arena := by
  obtain ⟨t, ht⟩ := wellFormed_halfBound
  have hvalues : ∀ node ∈ halfBound.nodes.toList, ∀ c ∈ node.letValues, c = ⟨1⟩ := by decide
  have hexposed : ∀ node ∈ halfBound.nodes.toList, ⟨1⟩ ∉ node.exposed := by decide
  obtain ⟨out, w, hok, hagain⟩ := extract_extract .default ht fun c _ hlet hexp => by
    obtain ⟨node, hn, hc⟩ := hlet.exists_mem
    obtain rfl := hvalues node hn c hc
    rcases hexp with hroot | ⟨_, node', -, hn', hc'⟩
    · cases hroot
    · exact hexposed node' (Array.mem_toList_iff.2 (Array.mem_of_getElem?
        (Arena.get_eq_ok.1 hn'))) hc'
  have hresult : (outcome? ((extract ⟨5⟩).start halfBound (.ofOptions .default))).map
      (fun r => r.2.size) = some 11 := by decide +kernel
  refine ⟨out, w, hok, ?_, hagain .default⟩
  simpa [hok, outcome?] using hresult

end Extraction

end TensorRecipe
