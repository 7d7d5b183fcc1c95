import TensorRecipe.Proofs.LoopBinding.Transposition
import TensorRecipe.Proofs.Substitution.Loops

/-!
# Transposes under substitution

A transpose that substitution keeps is a rearrangement of as many positions as there are declared
scalar indices.  It is still the transpose of the loops where one map of scalar indices says what
becomes of the factors of every declared and every looped index (`transpose_apply`), as it does
where all these indices are scalar (`Relabels.of_scalar`).  Elsewhere it may not be: it is kept
whenever the declared indices fall into as many factors as before, also if an index that becomes no
index is made up for by one that becomes a composite index (`keeps_wrong_transpose`).
-/

namespace TensorRecipe

namespace Substitution

open PassM

variable {s : Substitution} {a : Arena} {φ : Index → Index}

/-- A map of scalar indices says what becomes of the factors of the declared and looped indices. -/
structure Relabels (s : Substitution) (a : Arena) (φ : Index → Index) (declared loops : List Index) :
    Prop where
  declared : ∀ i ∈ declared, ∀ j, s.renamed a i = .ok (some j) → a.factors j = (a.factors i).map φ
  looped : ∀ i ∈ loops, ∀ j, s.Renames a i j → a.factors j = (a.factors i).map φ

/-- The index that an index becomes, if it stays an index; else the index itself. -/
def relabel (s : Substitution) (a : Arena) (i : Index) : Index :=
  match s.renamed a i with
  | .ok (some j) => j
  | _ => i

/-- Where all declared and looped indices are scalar, and become scalar indices if indices at all. -/
theorem Relabels.of_scalar {declared loops : List Index}
    (hscalar : ∀ i ∈ declared ++ loops, a.factors i = [i])
    (hnew : ∀ i ∈ declared ++ loops, ∀ j, s.renamed a i = .ok (some j) → a.factors j = [j]) :
    ∃ φ, s.Relabels a φ declared loops := by
  refine ⟨s.relabel a, fun i hi j hj => ?_, fun i hi j hj => ?_⟩
  · have hi := List.mem_append_left loops hi
    simp [hscalar i hi, hnew i hi j hj, relabel, hj]
  · have hi := List.mem_append_right declared hi
    obtain ⟨name, hname, rfl⟩ := hj
    cases name with
    | none => simp [hscalar i hi, relabel, hname]
    | some j => simp [hscalar i hi, hnew i hi j hname, relabel, hname]

/-- Declared indices fall into no more factors than before, and where they fall into as many, none is
left out. -/
theorem factors_renamed {is : List Index} {names : List (Option Index)}
    (h : List.Forall₂ (s.renamed a · = .ok ·) is names) (hres : ∀ i ∈ is, a.Resolves i)
    (hφ : ∀ i ∈ is, ∀ j, s.renamed a i = .ok (some j) → a.factors j = (a.factors i).map φ) :
    ((names.filterMap id).flatMap a.factors).length ≤ (is.flatMap a.factors).length ∧
      (((names.filterMap id).flatMap a.factors).length = (is.flatMap a.factors).length →
        (names.filterMap id).flatMap a.factors = (is.flatMap a.factors).map φ) := by
  induction h with
  | nil => simp
  | @cons i name is names hname _ ih =>
    obtain ⟨hle, heq⟩ := ih (fun i hi => hres i (List.mem_cons_of_mem _ hi))
      fun i hi => hφ i (List.mem_cons_of_mem _ hi)
    cases name with
    | none =>
      have hpos := List.length_pos_of_ne_nil (hres i (by simp)).factors_ne_nil
      rw [List.filterMap_cons_none rfl, List.flatMap_cons, List.length_append]
      exact ⟨by omega, fun h => by omega⟩
    | some j =>
      have hj := hφ i (by simp) j hname
      rw [List.filterMap_cons_some (f := id) rfl, List.flatMap_cons, List.flatMap_cons,
        List.length_append, List.length_append, List.map_append, hj, List.length_map]
      exact ⟨by omega, fun h => by rw [heq (by omega)]⟩

theorem factors_renames {is js : List Index} (h : List.Forall₂ (s.Renames a) is js)
    (hφ : ∀ i ∈ is, ∀ j, s.Renames a i j → a.factors j = (a.factors i).map φ) :
    js.flatMap a.factors = (is.flatMap a.factors).map φ := by
  induction h with
  | nil => rfl
  | @cons i j is js hij _ ih =>
    rw [List.flatMap_cons, List.flatMap_cons, List.map_append, hφ i (by simp) j hij,
      ih fun i hi => hφ i (List.mem_cons_of_mem _ hi)]

theorem resolves_renames {is js : List Index} (h : List.Forall₂ (s.Renames a) is js)
    (hres : ∀ i ∈ is, a.Resolves i)
    (hφ : ∀ i ∈ is, ∀ j, s.Renames a i j → a.factors j = (a.factors i).map φ) :
    ∀ j ∈ js, a.Resolves j := by
  intro j hj
  obtain ⟨i, hi, hij⟩ := Arena.exists_of_mem_right h hj
  rw [Arena.resolves_iff_factors_ne_nil, hφ i hi j hij, ne_eq, List.map_eq_nil_iff]
  exact (hres i hi).factors_ne_nil

theorem ensures_apply {root : NodeId} {w : Workspace Unit} {Q : NodeId → Workspace Unit → Prop}
    (h : ∀ depth, (s.rule.transformWithin depth root ()).Ensures w fun p w' => Q p.1 w') :
    (s.apply root).Ensures w Q :=
  (Rule.ensures_transform h).bind fun _ _ hQ => ensures_pure hQ

/-- A transpose that is kept rearranges as many positions as there are declared scalar indices.  It is
the transpose of the loops that there are now, if one map says what becomes of the scalar indices and
no loop is put in at the end of the loops. -/
theorem transpose_apply {root last : NodeId} {r : Recipe} {p : List Nat} {loops D A : List Index}
    (hroot : a.get root = .ok (.recipe r)) (hp : r.transpose = some p)
    (hloops : a.Loops r.body loops last) (hD : a.flatten r.indices.toList = .ok D)
    (hA : a.flatten loops = .ok A) (hright : IsTranspose p D A) :
    (s.apply root).Ensures ⟨a, [], ()⟩ fun out w' =>
      ∃ new, w'.arena.get out = .ok (.recipe new) ∧ ∀ p', new.transpose = some p' →
        ∃ D', w'.arena.flatten new.indices.toList = .ok D' ∧ p'.Perm (List.range D'.length) ∧
          ∀ φ, s.Relabels a φ r.indices.toList loops → s.KeepsEnd a last →
            ∃ loops' last' A', w'.arena.Loops new.body loops' last' ∧
              w'.arena.flatten loops' = .ok A' ∧ IsTranspose p' D' A' := by
  obtain ⟨hresD, rfl⟩ := Arena.of_flatten_eq_ok hD
  obtain ⟨hresA, rfl⟩ := Arena.of_flatten_eq_ok hA
  have hbody : ∀ depth, (s.rule.transformWithin depth r.body ()).Ensures ⟨a, [], ()⟩ fun q w' =>
      a.Extends w'.arena ∧ (s.KeepsEnd a last → ∃ js last', List.Forall₂ (s.Renames a) loops js ∧
        w'.arena.Loops q.1 js last') := by
    intro depth
    by_cases hend : s.KeepsEnd a last
    · exact (ensures_loops hloops hend depth).mono fun _ _ ⟨hext, h⟩ => ⟨hext, fun _ => h⟩
    · exact (ensures_extends depth _ _).mono fun _ _ hext => ⟨hext, fun h => absurd h hend⟩
  refine ensures_apply fun depth => ?_
  cases depth with
  | zero => exact ensures_throw
  | succ depth =>
    refine Rule.ensures_transformWithin fun node hn => ?_
    obtain rfl : .recipe r = node := by simpa [hroot] using hn
    refine (ensures_renameRecipe (Q := fun id b => s.KeepsEnd a last → ∃ js last',
      List.Forall₂ (s.Renames a) loops js ∧ b.Loops id js last') ?_ hn (hbody depth)).mono ?_
    · intro b c id hbc h hend
      obtain ⟨js, last', hjs, hloops'⟩ := h hend
      exact ⟨js, last', hjs, hloops'.mono hbc⟩
    · rintro q w' ⟨hext, new, hnew, hloops', hg, hkept⟩
      refine ⟨new, hnew, fun p' hp' => ?_⟩
      rw [Arena.flatten_congr hext.indices]
      rcases hkept with rfl | hkept
      · obtain rfl : p = p' := by simpa [hp] using hp'
        refine ⟨_, hD, hright.perm, fun φ _ _ => ⟨loops, last, _, hloops.mono hext, ?_, hright⟩⟩
        rwa [Arena.flatten_congr hext.indices]
      · rw [hp', keptTranspose_congr hext.indices] at hkept
        obtain ⟨hp'', D', _, hD', hD₂, hlen⟩ := keptTranspose_eq_some hkept
        obtain rfl : p = p' := by simpa [hp] using hp''
        obtain rfl := Except.ok.inj (hD.symm.trans hD₂)
        refine ⟨D', hD', hlen ▸ hright.perm, fun φ hφ hend => ?_⟩
        obtain ⟨names, hnames, hindices⟩ := renameGroups_eq_ok hg
        obtain ⟨-, rfl⟩ := Arena.of_flatten_eq_ok hD'
        rw [hindices] at hlen
        obtain ⟨js, last', hjs, hloops'⟩ := hloops' hend
        refine ⟨js, last', js.flatMap a.factors, hloops', ?_, ?_⟩
        · rw [Arena.flatten_congr hext.indices]
          exact Arena.flatten_eq (resolves_renames hjs hresA hφ.looped)
        · rw [hindices, (factors_renamed hnames hresD hφ.declared).2 hlen,
            factors_renames hjs hφ.looped]
          exact hright.map φ

/-- Loops that nest the other way round than the indices are declared, and an index to rename one of
them to. -/
def crossed : Arena where
  nodes := #[.index ⟨0⟩, .forAll [⟨0⟩] ⟨0⟩, .forAll [⟨1⟩] ⟨1⟩,
    .recipe ⟨⟨[⟨0⟩, ⟨1⟩], [], []⟩, ⟨2⟩, some [1, 0]⟩, .index ⟨2⟩]
  indices := #[⟨"i", 2, .domain, []⟩, ⟨"j", 3, .domain, []⟩, ⟨"k", 2, .domain, []⟩]

/-- The same, where one of the indices has become the other. -/
def crossedAfter : Arena where
  nodes := crossed.nodes ++ #[.forAll [⟨2⟩] ⟨4⟩, .forAll [⟨1⟩] ⟨5⟩,
    .recipe ⟨⟨[⟨2⟩, ⟨1⟩], [], []⟩, ⟨6⟩, some [1, 0]⟩]
  indices := crossed.indices

/-- The transpose of crossed loops is kept when one of their indices is renamed, and is right. -/
theorem transpose_apply_crossed :
    ∃ out w' new D' loops' last' A',
      ((ofEntries [(⟨0⟩, ⟨4⟩)]).apply ⟨3⟩).start crossed () = .ok out w' ∧
      w'.arena.get out = .ok (.recipe new) ∧ new.transpose = some [1, 0] ∧
      w'.arena.flatten new.indices.toList = .ok D' ∧ w'.arena.Loops new.body loops' last' ∧
      w'.arena.flatten loops' = .ok A' ∧ IsTranspose [1, 0] D' A' := by
  have hinner : crossed.Loops ⟨1⟩ ([⟨0⟩] ++ []) ⟨0⟩ := .loop rfl (.last ⟨.index ⟨0⟩, rfl, by simp⟩)
  have hloops : crossed.Loops ⟨2⟩ ([⟨1⟩] ++ [⟨0⟩]) ⟨0⟩ := .loop rfl hinner
  have hright : IsTranspose [1, 0] [⟨0⟩, ⟨1⟩] [⟨1⟩, ⟨0⟩] := by decide
  have hfirst : (ofEntries [(⟨0⟩, ⟨4⟩)]).renamed crossed ⟨0⟩ = .ok (some ⟨2⟩) := rfl
  have hsecond : (ofEntries [(⟨0⟩, ⟨4⟩)]).renamed crossed ⟨1⟩ = .ok (some ⟨1⟩) := rfl
  obtain ⟨φ, hφ⟩ : ∃ φ, (ofEntries [(⟨0⟩, ⟨4⟩)]).Relabels crossed φ [⟨0⟩, ⟨1⟩] [⟨1⟩, ⟨0⟩] := by
    refine Relabels.of_scalar (by decide) fun i hi j hj => ?_
    obtain rfl | rfl : i = ⟨0⟩ ∨ i = ⟨1⟩ := by simp at hi; tauto
    · obtain rfl : ⟨2⟩ = j := by simpa [hfirst] using hj
      rfl
    · obtain rfl : ⟨1⟩ = j := by simpa [hsecond] using hj
      rfl
  have hend : (ofEntries [(⟨0⟩, ⟨4⟩)]).KeepsEnd crossed ⟨0⟩ := by
    intro i hi id hid
    obtain rfl : ⟨0⟩ = i := by simpa [crossed, Arena.get] using hi
    obtain rfl : ⟨4⟩ = id := by simpa [ofEntries] using hid
    exact ⟨.index ⟨2⟩, rfl, by simp⟩
  have hresult : outcome? (((ofEntries [(⟨0⟩, ⟨4⟩)]).apply ⟨3⟩).start crossed ()) =
      some (⟨7⟩, crossedAfter) := by decide +kernel
  obtain ⟨w', hrun, harena⟩ := exists_ok_of_outcome? hresult
  obtain ⟨new, hnew, hright'⟩ := transpose_apply (a := crossed)
    (r := ⟨⟨[⟨0⟩, ⟨1⟩], [], []⟩, ⟨2⟩, some [1, 0]⟩) rfl rfl hloops rfl rfl hright _ w' hrun
  have hkept : new.transpose = some [1, 0] := by
    rw [harena] at hnew
    cases hnew
    rfl
  obtain ⟨D', hD', -, hright'⟩ := hright' _ hkept
  obtain ⟨loops', last', A', hloops', hA', hright'⟩ := hright' φ hφ hend
  exact ⟨_, w', new, D', loops', last', A', hrun, hnew, hkept, hD', hloops', hA', hright'⟩

/-- Two loops, and a composite index of two factors. -/
def paired : Arena where
  nodes := #[.index ⟨0⟩, .forAll [⟨1⟩] ⟨0⟩, .forAll [⟨0⟩] ⟨1⟩,
    .recipe ⟨⟨[⟨0⟩, ⟨1⟩], [], []⟩, ⟨2⟩, some [0, 1]⟩, .var "u", .index ⟨4⟩]
  indices := #[⟨"i", 2, .domain, []⟩, ⟨"j", 3, .domain, []⟩, ⟨"a", 2, .domain, []⟩,
    ⟨"b", 2, .domain, []⟩, ⟨"ab", 4, .domain, [⟨2⟩, ⟨3⟩]⟩]

/-- The same, where the first index became a variable, and the second the composite index. -/
def pairedAfter : Arena where
  nodes := paired.nodes ++ #[.forAll [⟨4⟩] ⟨4⟩, .forAll [⟨0⟩] ⟨6⟩,
    .recipe ⟨⟨[⟨4⟩], [], []⟩, ⟨7⟩, some [0, 1]⟩]
  indices := paired.indices

/-- One of two declared indices becomes no index, and the other becomes a composite index: there are
as many declared scalar indices as before, but the loops run over one more, and the transpose of the
two is kept. -/
theorem keeps_wrong_transpose :
    paired.Loops ⟨2⟩ [⟨0⟩, ⟨1⟩] ⟨0⟩ ∧ IsTranspose [0, 1] [⟨0⟩, ⟨1⟩] [⟨0⟩, ⟨1⟩] ∧
    ∃ out w' new last',
      ((ofEntries [(⟨0⟩, ⟨4⟩), (⟨1⟩, ⟨5⟩)]).apply ⟨3⟩).start paired () = .ok out w' ∧
      w'.arena.get out = .ok (.recipe new) ∧ new.transpose = some [0, 1] ∧
      w'.arena.flatten new.indices.toList = .ok [⟨2⟩, ⟨3⟩] ∧
      w'.arena.Loops new.body [⟨0⟩, ⟨4⟩] last' ∧
      w'.arena.flatten [⟨0⟩, ⟨4⟩] = .ok [⟨0⟩, ⟨2⟩, ⟨3⟩] ∧
      ¬ IsTranspose [0, 1] [⟨2⟩, ⟨3⟩] [⟨0⟩, ⟨2⟩, ⟨3⟩] := by
  have hinner : paired.Loops ⟨1⟩ ([⟨1⟩] ++ []) ⟨0⟩ := .loop rfl (.last ⟨.index ⟨0⟩, rfl, by simp⟩)
  have hloops : paired.Loops ⟨2⟩ ([⟨0⟩] ++ [⟨1⟩]) ⟨0⟩ := .loop rfl hinner
  refine ⟨hloops, by decide, ?_⟩
  have hresult : outcome? (((ofEntries [(⟨0⟩, ⟨4⟩), (⟨1⟩, ⟨5⟩)]).apply ⟨3⟩).start paired ()) =
      some (⟨8⟩, pairedAfter) := by decide +kernel
  obtain ⟨w', hrun, harena⟩ := exists_ok_of_outcome? hresult
  refine ⟨⟨8⟩, w', ⟨⟨[⟨4⟩], [], []⟩, ⟨7⟩, some [0, 1]⟩, ⟨4⟩, hrun, ?_⟩
  rw [harena]
  have hrest : pairedAfter.Loops ⟨6⟩ ([⟨4⟩] ++ []) ⟨4⟩ :=
    .loop rfl (.last ⟨.var "u", rfl, by simp⟩)
  have hloops' : pairedAfter.Loops ⟨7⟩ ([⟨0⟩] ++ [⟨4⟩]) ⟨4⟩ := .loop rfl hrest
  exact ⟨rfl, rfl, rfl, hloops', rfl, by decide⟩

end Substitution

end TensorRecipe
