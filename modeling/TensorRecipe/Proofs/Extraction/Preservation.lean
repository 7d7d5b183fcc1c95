import TensorRecipe.Proofs.Extraction.Visits

/-!
# Extraction preserves meaning

Extraction of a well-formed tree succeeds, and its result is a closed draft of the tree
(`gives_extract`), for a memory in which no region is open.  So is every memory between calls that
have succeeded (`Memory.BetweenCalls`).  Hence the result means the same as the tree, however the
operations are interpreted (`denote_extract`).
-/

namespace TensorRecipe

namespace Extraction

open Draft PassM

/-! ### Whole trees -/

/-- Extraction makes a draft of a tree.  The names minted on the way are those bound in the draft, and
every let there is as low as it can be. -/
theorem gives_extract_lowest {root : NodeId} {t : Tree} {w : Workspace Memory}
    (h : w.arena.WellFormed root t) (hregion : w.memory.region = .empty) :
    (extract root).Gives w fun out w' => ∃ xs d, Finished w.arena.factors t.names t xs d ∧
      Lowest (inOrder w') d ∧ Advances w w' xs ∧ w'.arena.Unfolds out d.toTree := by
  refine (gives_survey h).bind ?_
  rintro _ w₁ ⟨harena₁, hevents₁, hreserves, hnames⟩
  have hsurvey : Advances w w₁ [] := by
    refine .of_grows ?_ (by rw [hevents₁]) hreserves.reserved hreserves.lastScope.ge
    rw [harena₁]
    exact .refl _
  have hstate : State w.arena.factors t.names [] w₁ :=
    .empty (by rw [harena₁]) (hreserves.region.trans hregion) hnames
  have hdepth : t.height ≤ Rule.maxDepth w₁.arena := by
    have hheight := h.unfolds.height_le
    rw [harena₁]
    unfold Rule.maxDepth
    omega
  have hreplace : (replaceSums root).Gives w₁ fun new w' => ∃ f floats after,
      Replaced w.arena.factors t.names [] [] [t] w₁ [new] w' [f] floats after := by
    have hvisits : Visits w.arena.factors t.names (rule.transformWithin _) t :=
      visits_transformWithin t hdepth fun _ hy => hy
    have htransform : (rule.transform root []).Gives w₁ _ :=
      gives_ask_bind rfl (hvisits hstate .nil (harena₁ ▸ h))
    refine htransform.bind ?_
    rintro ⟨new, scopes⟩ w' ⟨-, hnew⟩
    exact gives_pure hnew
  refine hreplace.bind ?_
  rintro new w₂ ⟨f, floats, after, hf⟩
  refine gives_exchangeRegion.bind ?_
  rintro _ w₃ ⟨rfl, hw₃⟩
  refine (gives_finish hf (by rw [hw₃]) (by rw [hw₃])).mono ?_
  rintro out w₄ ⟨d, hd, hlowest, hun, hgrows, hmem⟩
  have hplace : Advances w₂ w₄ [] := by
    refine .of_grows ?_ ?_ (by simp [hmem, hw₃]) (by rw [hmem, hw₃])
    · simpa [hw₃] using hgrows.arena
    · simpa [hw₃] using hgrows.extracted
  exact ⟨_, d, hd, hlowest, (hsurvey.trans hf.advances).grow hplace, hun⟩

theorem gives_extract {root : NodeId} {t : Tree} {w : Workspace Memory}
    (h : w.arena.WellFormed root t) (hregion : w.memory.region = .empty) :
    (extract root).Gives w fun out w' => ∃ xs d, Finished w.arena.factors t.names t xs d ∧
      Advances w w' xs ∧ w'.arena.Unfolds out d.toTree :=
  (gives_extract_lowest h hregion).mono fun _ _ ⟨xs, d, hd, _, hadvances, hun⟩ =>
    ⟨xs, d, hd, hadvances, hun⟩

/-! ### Calls one after another -/

/-- A memory that has served calls, all of which have succeeded. -/
inductive Memory.BetweenCalls : Memory → Prop where
  | fresh (options : Options) : BetweenCalls (.ofOptions options)
  | call {root out : NodeId} {w w' : Workspace Memory} (before : BetweenCalls w.memory)
    (ok : extract root w = .ok out w') : BetweenCalls w'.memory

theorem memory_of_within {ω ω' α : Type} {memory : ω'} {steps : PassM ω' α} {r : α × ω'}
    {w w' : Workspace ω} (h : within memory steps w = .ok r w') : w'.memory = w.memory := by
  obtain ⟨arena, events, outer⟩ := w
  simp only [within] at h
  split at h
  · cases h
    rfl
  · cases h

theorem memory_bindTemporaries {temporaries : List Temporary} {body out : NodeId}
    {w w' : Workspace Memory} (h : bindTemporaries temporaries body w = .ok out w') :
    w'.memory = w.memory := by
  unfold bindTemporaries at h
  split at h
  · cases h
    rfl
  · obtain ⟨m, w₁, hm, h⟩ := ok_of_bind_eq_ok h
    obtain ⟨plan, w₂, hplan, h⟩ := ok_of_bind_eq_ok h
    obtain ⟨⟨new, placed⟩, w₃, hwithin, h⟩ := ok_of_bind_eq_ok h
    obtain ⟨-, rfl⟩ : new = out ∧ w₃ = w' := by simpa [pure, EStateM.pure] using h
    have h₁ : w₁ = w := by cases hm; rfl
    have h₂ : w₂.memory = w₁.memory := by
      unfold ask at hplan
      split at hplan <;> cases hplan
      rfl
    rw [memory_of_within hwithin, h₂, h₁]

theorem Memory.BetweenCalls.region_eq {m : Memory} (h : m.BetweenCalls) : m.region = .empty := by
  cases h with
  | fresh options => rfl
  | call before ok =>
    obtain ⟨_, w₁, -, ok⟩ := ok_of_bind_eq_ok ok
    obtain ⟨id, w₂, -, ok⟩ := ok_of_bind_eq_ok ok
    obtain ⟨region, w₃, hregion, ok⟩ := ok_of_bind_eq_ok ok
    rw [memory_bindTemporaries ok]
    cases hregion
    rfl

/-! ### Meanings -/

/-- What extraction returns means the same as the tree it is given. -/
theorem denote_extract {root : NodeId} {t : Tree} {w : Workspace Memory}
    (h : w.arena.WellFormed root t) (hm : w.memory.BetweenCalls) :
    ∃ out w' u, extract root w = .ok out w' ∧ w'.arena.Unfolds out u ∧
      ∀ {V D : Type*} (ι : Interpretation V D) (ρ : Env V D),
        u.denote ι w'.arena.factors ρ = t.denote ι w.arena.factors ρ := by
  obtain ⟨out, w', hok, xs, d, hd, hadvances, hun⟩ := gives_extract h hm.region_eq
  refine ⟨out, w', d.toTree, hok, hun, fun ι ρ => ?_⟩
  have hfactors : ∀ i, ∀ f ∈ w.arena.factors i, w.arena.factors f = [f] := w.arena.factors_scalar
  rw [Arena.factors_congr hadvances.arena.indices, hd.isScoped.denote_toTree hfactors hd.closed,
    hd.expand]

/-- A sum that is met twice. -/
def repeated : Arena where
  nodes := #[.index ⟨0⟩, .indexSum [⟨0⟩] ⟨0⟩, .operator .sum [⟨1⟩, ⟨1⟩]]
  indices := #[⟨"i", 2, .domain, []⟩]

theorem wellFormed_repeated :
    repeated.WellFormed ⟨2⟩ (.node (.operator .sum)
      [.node (.indexSum [⟨0⟩]) [.node (.index ⟨0⟩) []],
        .node (.indexSum [⟨0⟩]) [.node (.index ⟨0⟩) []]]) := by
  have hindex : repeated.Unfolds ⟨0⟩ (.node (.index ⟨0⟩) []) := ⟨_, rfl, rfl, trivial⟩
  have hsum : repeated.Unfolds ⟨1⟩ (.node (.indexSum [⟨0⟩]) [.node (.index ⟨0⟩) []]) :=
    ⟨_, rfl, rfl, hindex, trivial⟩
  have hi : repeated.Resolves ⟨0⟩ := .intro rfl (by simp [repeated])
  refine ⟨⟨_, rfl, rfl, hsum, hsum, trivial⟩, ?_⟩
  simp [Tree.indices, Tree.indicesAll, Shape.indices, hi]

/-- The result adds up one value twice. -/
theorem denote_extract_repeated :
    ∃ out w' u, extract ⟨2⟩ ⟨repeated, [], .ofOptions .default⟩ = .ok out w' ∧
      w'.arena.Unfolds out u ∧ ∀ {V D : Type*} (ι : Interpretation V D) (ρ : Env V D),
        let value := ι.loop (.indexSum [⟨0⟩]) fun values => ι.index ⟨0⟩ [values ⟨0⟩]
        u.denote ι w'.arena.factors ρ = ι.node (.operator .sum) [value, value] := by
  obtain ⟨out, w', u, hok, hun, hdenote⟩ := denote_extract wellFormed_repeated
    (w := ⟨repeated, [], .ofOptions .default⟩) (.fresh .default)
  exact ⟨out, w', u, hok, hun, fun ι ρ => hdenote ι ρ⟩

end Extraction

end TensorRecipe
