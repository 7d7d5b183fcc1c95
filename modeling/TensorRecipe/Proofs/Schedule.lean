import TensorRecipe.Proofs.Extraction.Composition
import TensorRecipe.Proofs.Extraction.Hygiene
import TensorRecipe.Proofs.LoopBinding.Completeness

/-!
# Scheduling well-formed trees

Binding a well-formed tree stops at no fault but an index that no transpose can place; what it gives
is well formed again, and extraction of that succeeds.  So scheduling gives a well-formed tree, or
reports such an index (`schedule_wellFormed_or_unresolvable`).
-/

namespace TensorRecipe

open PassM

namespace Extraction

theorem gives_extract_wellFormed {root : NodeId} {t : Tree} {w : Workspace Memory}
    (h : w.arena.WellFormed root t) (hm : w.memory.BetweenCalls) :
    (extract root).Gives w fun out w' => ∃ u, w'.arena.WellFormed out u := by
  refine (gives_extract h hm.region_eq).mono ?_
  rintro out w' ⟨xs, d, hd, hadvances, hun⟩
  refine ⟨d.toTree, hun, fun i hi => (h.resolves i ?_).congr hadvances.arena.indices⟩
  rw [← hd.expand]
  exact hd.isScoped.mem_indices_expand hi

end Extraction

open LoopBinding (Unresolvable)

/-- Scheduling succeeds just when binding does. -/
theorem decides_schedule {options : Extraction.Options} {root : NodeId} {t : Tree}
    {w : Workspace Unit} (h : w.arena.WellFormed root t) :
    (schedule options root).Decides Unresolvable w (t.Bindable w.arena.factors [])
      fun r w' => ∃ u, w'.arena.WellFormed r.1 u := by
  refine gives_log.bind_decides ?_
  rintro _ w₁ rfl
  rw [LoopBinding.bindFresh_eq]
  have hbind : (within Marks.empty (LoopBinding.bind root)).Decides Unresolvable
      ⟨w.arena, .binding root :: w.events, w.memory⟩ (t.Bindable w.arena.factors []) _ :=
    decides_within (LoopBinding.decides_bind (w := ⟨w.arena, .binding root :: w.events, .empty⟩) h)
  refine hbind.bind_gives ?_
  rintro ⟨bound, marks⟩ w₂ ⟨v, ⟨hext, hun⟩, rfl⟩
  refine gives_log.bind ?_
  rintro _ w₃ rfl
  have hbound := LoopBinding.wellFormed_withLoops h hext hun
  have hextract := Extraction.gives_extract_wellFormed
    (w := ⟨v.arena, .extracting bound :: v.events, .ofOptions options⟩) hbound (.fresh options)
  refine (gives_within hextract).bind ?_
  rintro ⟨out, memory⟩ w₄ ⟨v', ⟨u, hu⟩, rfl⟩
  exact gives_pure ⟨u, hu⟩

/-- On a well-formed tree, scheduling gives a well-formed tree or reports an index that no transpose
can place, and once binding has succeeded so does extraction.  On no tree at all does a pass report a
wrong number of children. -/
theorem schedule_wellFormed_or_unresolvable :
    (∀ (w : Workspace Unit) (root : NodeId) (t : Tree) (options : Extraction.Options),
      w.arena.WellFormed root t →
        ((∃ r w' u, schedule options root w = .ok r w' ∧ w'.arena.WellFormed r.1 u) ∨
          ∃ fault w', schedule options root w = .error fault w' ∧
            fault.report.stage = .binding ∧ fault.report.code = .unresolvableIndex)) ∧
    (∀ (w w' : Workspace Marks) (root bound : NodeId) (t : Tree), w.arena.WellFormed root t →
      LoopBinding.bind root w = .ok bound w' →
        ∀ events m, Extraction.Memory.BetweenCalls m → ∃ out w'' u,
          Extraction.extract bound ⟨w'.arena, events, m⟩ = .ok out w'' ∧
            w''.arena.WellFormed out u) ∧
    ∀ (root : NodeId) (s : Substitution) (options : Extraction.Options),
      KeepsArity (Rule.identity.transform root ()) ∧ KeepsArity (s.apply root) ∧
        KeepsArity (LoopBinding.bind root) ∧ KeepsArity (Extraction.extract root) ∧
          KeepsArity (schedule options root) := by
  refine ⟨fun w root t options h => ?_, fun w w' root bound t h hok events m hm => ?_,
    fun root s options => ⟨keepsArity_identity root, s.keepsArity_substitution root,
      LoopBinding.keepsArity_bind root, Extraction.keepsArity_extract root,
      keepsArity_schedule options root⟩⟩
  · have hdecides : (schedule options root).Decides Unresolvable w
        (t.Bindable w.arena.factors []) _ := decides_schedule h
    by_cases hbindable : t.Bindable w.arena.factors []
    · obtain ⟨r, w', hok, u, hu⟩ := hdecides.1 hbindable
      exact .inl ⟨r, w', u, hok, hu⟩
    · exact .inr (hdecides.2 hbindable)
  · obtain ⟨hext, hun⟩ := (LoopBinding.decides_bind h).ok_iff.2 _ _ hok
    have hbound := LoopBinding.wellFormed_withLoops h hext hun
    obtain ⟨out, w'', hok', u, hu⟩ := Extraction.gives_extract_wellFormed
      (w := ⟨w'.arena, events, m⟩) hbound hm
    exact ⟨out, w'', u, hok', hu⟩

/-- A recipe over one scalar index, whose body loops over it twice. -/
def doublyLooped : Arena where
  nodes := #[.index ⟨0⟩, .forAll [⟨0⟩] ⟨0⟩, .forAll [⟨0⟩] ⟨1⟩, .recipe ⟨⟨[⟨0⟩], [], []⟩, ⟨2⟩, none⟩]
  indices := #[⟨"i", 2, .domain, []⟩]

theorem wellFormed_doublyLooped :
    doublyLooped.WellFormed ⟨3⟩ (.node (.recipe ⟨[⟨0⟩], [], []⟩ none)
      [.node (.forAll [⟨0⟩]) [.node (.forAll [⟨0⟩]) [.node (.index ⟨0⟩) []]]]) := by
  refine ⟨⟨_, rfl, rfl, ⟨_, rfl, rfl, ⟨_, rfl, rfl, ⟨_, rfl, rfl, trivial⟩, trivial⟩, trivial⟩,
    trivial⟩, ?_⟩
  have hi : doublyLooped.Resolves ⟨0⟩ := .intro rfl (by simp [doublyLooped])
  simp [Tree.indices, Tree.indicesAll, Shape.indices, IndexDeclaration.toList, hi]

/-- The half-looped recipe is scheduled, also in two steps; the doubly looped one is refused. -/
theorem schedule_halfLooped_doublyLooped :
    (∃ r w' u, (schedule .default ⟨2⟩).start LoopBinding.halfLooped () = .ok r w' ∧
      w'.arena.WellFormed r.1 u) ∧
    (∃ bound w' out w'' u, (LoopBinding.bind ⟨2⟩).start LoopBinding.halfLooped .empty =
        .ok bound w' ∧
      (Extraction.extract bound).start w'.arena (.ofOptions .default) = .ok out w'' ∧
        w''.arena.WellFormed out u) ∧
    ∃ fault w', (schedule .default ⟨3⟩).start doublyLooped () = .error fault w' ∧
      fault.report.stage = .binding ∧ fault.report.code = .unresolvableIndex := by
  have hok : ∀ fault w', (schedule .default ⟨2⟩).start LoopBinding.halfLooped () ≠
      .error fault w' := by
    have hrun : (match (schedule .default ⟨2⟩).start LoopBinding.halfLooped () with
      | .ok _ _ => true
      | .error _ _ => false) = true := by decide +kernel
    intro fault w' h
    simp [h] at hrun
  have hfails : ∀ r w', (schedule .default ⟨3⟩).start doublyLooped () ≠ .ok r w' := by
    have hrun : (match (schedule .default ⟨3⟩).start doublyLooped () with
      | .ok _ _ => false
      | .error _ _ => true) = true := by decide +kernel
    intro r w' h
    simp [h] at hrun
  obtain ⟨hall, hsteps, -⟩ := schedule_wellFormed_or_unresolvable
  refine ⟨?_, ?_, ?_⟩
  · obtain h | ⟨fault, w', h, -⟩ := hall ⟨_, [], ()⟩ _ _ .default
      LoopBinding.wellFormed_halfLooped
    · exact h
    · exact absurd h (hok fault w')
  · obtain ⟨bound, w', hbind, -⟩ := (LoopBinding.decides_bind
      (w := ⟨LoopBinding.halfLooped, [], .empty⟩) LoopBinding.wellFormed_halfLooped).1
        ⟨by simp [Tree.Bindable, Tree.BindableAll], by decide⟩
    obtain ⟨out, w'', u, hextract, hu⟩ := hsteps _ w' _ bound _ LoopBinding.wellFormed_halfLooped
      hbind [] _ (.fresh .default)
    exact ⟨bound, w', out, w'', u, hbind, hextract, hu⟩
  · obtain ⟨r, w', u, h, -⟩ | h := hall ⟨_, [], ()⟩ _ _ .default wellFormed_doublyLooped
    · exact absurd h (hfails r w')
    · exact h

end TensorRecipe
