import TensorRecipe.Proofs.Tree.Indices

/-!
# Arenas built by calls for indices

`Arena.ofCalls` is the arena after calls for indices, beginning with the empty one.  A call for a
composite index whose factors are not all there fails and leaves the arena as it is.  So the factors
of every index come before it in the table, and its extent is the product of theirs
(`Arena.IsFactored`): one call keeps this, and hence any number of calls.

Main statement: how flattening and extents agree in every arena that is built so
(`Arena.consistent_ofCalls`).
-/

namespace TensorRecipe

/-- A call for a new index. -/
inductive IndexCall where
  | scalar (name : String) (extent : Nat) (role : IndexRole)
  | composite (name : String) (role : IndexRole) (factors : List Index)

/-- The factors that the call gives. -/
def IndexCall.factors : IndexCall → List Index
  | .scalar _ _ _ => []
  | .composite _ _ factors => factors

namespace Arena

/-- The answer to a call, and the arena after it. -/
def serve (a : Arena) : IndexCall → Except Fault Index × Arena
  | .scalar name extent role =>
    let (i, b) := a.addScalar name extent role
    (.ok i, b)
  | .composite name role factors =>
    match a.addComposite name role factors with
    | .ok (i, b) => (.ok i, b)
    | .error fault => (.error fault, a)

/-- The arena after calls, of which some may fail. -/
def ofCalls (calls : List IndexCall) : Arena :=
  calls.foldl (fun a call => (a.serve call).2) .empty

variable {a : Arena} {i : Index} {is : List Index} {info : IndexInfo}

/-- The table has an entry for the index. -/
def HasIndex (a : Arena) (i : Index) : Prop := ∃ info, a.indexInfo i = .ok info

theorem hasIndex_iff : a.HasIndex i ↔ i.pos < a.indices.size := by
  refine ⟨fun ⟨info, h⟩ => indexInfo_lt h, fun h => ⟨a.indices[i.pos], ?_⟩⟩
  rw [indexInfo, Array.getElem?_eq_getElem h]

theorem indexInfo_addIndex (a : Arena) (info : IndexInfo) (i : Index) :
    (a.addIndex info).indexInfo i = if i.pos = a.indices.size then .ok info else a.indexInfo i := by
  simp only [indexInfo, addIndex, Array.getElem?_push]
  by_cases hi : i.pos = a.indices.size <;> simp [hi]

theorem indexInfo_addIndex_nextIndex (a : Arena) (info : IndexInfo) :
    (a.addIndex info).indexInfo a.nextIndex = .ok info :=
  (indexInfo_addIndex a info _).trans (if_pos rfl)

theorem indexInfo_addIndex_of_known (info : IndexInfo) (h : a.HasIndex i) :
    (a.addIndex info).indexInfo i = a.indexInfo i := by
  rw [indexInfo_addIndex, if_neg (hasIndex_iff.1 h).ne]

/-! ### Extents -/

/-- The extent of an index, and 1 if there is no entry. -/
def extent (a : Arena) (i : Index) : Nat :=
  match a.indexInfo i with
  | .ok info => info.extent
  | .error _ => 1

theorem extent_eq (h : a.indexInfo i = .ok info) : a.extent i = info.extent := by
  rw [extent, h]

theorem extent_addIndex (info : IndexInfo) (h : i.pos < a.indices.size) :
    (a.addIndex info).extent i = a.extent i := by
  rw [extent, extent, indexInfo_addIndex_of_known _ (hasIndex_iff.2 h)]

theorem extentOf_eq (h : ∀ i ∈ is, a.HasIndex i) :
    a.extentOf is = .ok (is.map a.extent).prod := by
  obtain ⟨infos, hinfos⟩ := exists_forall₂ h
  have hmap : infos.map IndexInfo.extent = is.map a.extent := by
    induction hinfos with
    | nil => rfl
    | cons hi _ ih =>
      rw [List.map_cons, List.map_cons, ih fun i hi => h i (List.mem_cons_of_mem _ hi), extent_eq hi]
  have hfold : infos.foldl (fun extent info => extent * info.extent) 1 = (is.map a.extent).prod := by
    rw [← hmap, List.prod_eq_foldl, List.foldl_map]
  simp only [extentOf, mapM_eq_ok_of_forall₂ hinfos, ← hfold, bind, Except.bind, pure, Except.pure]

/-! ### Calls -/

/-- The entry that a call asks for: the extent of a composite index is the product of those of its
factors. -/
def entry (a : Arena) : IndexCall → IndexInfo
  | .scalar name extent role => { name, extent, role, factors := [] }
  | .composite name role factors =>
    { name, extent := (factors.map a.extent).prod, role, factors }

theorem serve_of_known {call : IndexCall} (h : ∀ f ∈ call.factors, a.HasIndex f) :
    a.serve call = (.ok a.nextIndex, a.addIndex (a.entry call)) := by
  cases call with
  | scalar name extent role => rfl
  | composite name role factors =>
    have hextent : a.extentOf factors = .ok (factors.map a.extent).prod := extentOf_eq h
    rw [serve, addComposite, hextent]
    rfl

theorem extentOf_of_unknown {f : Index} (hf : f ∈ is) (h : ¬ a.HasIndex f) :
    ∃ g ∈ is, ¬ a.HasIndex g ∧ a.extentOf is = .error (.unknownIndex g) := by
  cases hinfos : is.mapM a.indexInfo with
  | ok infos => exact absurd (of_mapM_eq_ok hinfos f hf) h
  | error fault =>
    obtain ⟨g, hg, hfault⟩ := exists_of_mapM_eq_error hinfos
    have hno : ¬ a.HasIndex g := by
      rintro ⟨info, hinfo⟩
      rw [hinfo] at hfault
      cases hfault
    rw [indexInfo_of_not_exists hno] at hfault
    refine ⟨g, hg, hno, ?_⟩
    rw [extentOf, hinfos, ← Except.error.inj hfault]
    rfl

theorem serve_of_unknown {name : String} {role : IndexRole} {factors : List Index}
    (h : ∃ f ∈ factors, ¬ a.HasIndex f) : ∃ f ∈ factors, ¬ a.HasIndex f ∧
      a.serve (.composite name role factors) = (.error (.unknownIndex f), a) := by
  obtain ⟨f, hf, hno⟩ := h
  obtain ⟨g, hg, hno, hextent⟩ := extentOf_of_unknown hf hno
  refine ⟨g, hg, hno, ?_⟩
  simp only [serve, addComposite, hextent, bind, Except.bind]

/-! ### What calls keep -/

/-- The factors of every index come before it, and their extents multiply to its own. -/
structure IsFactored (a : Arena) : Prop where
  earlier : ∀ {i info}, a.indexInfo i = .ok info → ∀ f ∈ info.factors, f.pos < i.pos
  extent : ∀ {i info}, a.indexInfo i = .ok info → info.isComposite →
    info.extent = (info.factors.map a.extent).prod

theorem isFactored_empty : IsFactored .empty :=
  ⟨fun h => (nomatch indexInfo_lt h), fun h => (nomatch indexInfo_lt h)⟩

theorem IsFactored.addIndex (h : a.IsFactored) (hthere : ∀ f ∈ info.factors, a.HasIndex f)
    (hextent : info.isComposite → info.extent = (info.factors.map a.extent).prod) :
    (a.addIndex info).IsFactored := by
  have hold : ∀ {is : List Index}, (∀ f ∈ is, f.pos < a.indices.size) →
      is.map (a.addIndex info).extent = is.map a.extent := fun hlt =>
    List.map_congr_left fun f hf => extent_addIndex info (hlt f hf)
  constructor
  · intro i found hfound f hf
    rw [indexInfo_addIndex] at hfound
    split at hfound
    · next hi =>
      cases hfound
      exact hi ▸ hasIndex_iff.1 (hthere f hf)
    · exact h.earlier hfound f hf
  · intro i found hfound hcomposite
    rw [indexInfo_addIndex] at hfound
    split at hfound
    · cases hfound
      rw [hold fun f hf => hasIndex_iff.1 (hthere f hf)]
      exact hextent hcomposite
    · rw [hold fun f hf => (h.earlier hfound f hf).trans (indexInfo_lt hfound)]
      exact h.extent hfound hcomposite

theorem IsFactored.serve (h : a.IsFactored) (call : IndexCall) : (a.serve call).2.IsFactored := by
  cases call with
  | scalar name extent role =>
    exact h.addIndex (fun _ hf => absurd hf List.not_mem_nil) fun hcomposite => nomatch hcomposite
  | composite name role factors =>
    by_cases hthere : ∀ f ∈ factors, a.HasIndex f
    · have hserve : a.serve (.composite name role factors) = _ := serve_of_known hthere
      rw [hserve]
      exact h.addIndex hthere fun _ => rfl
    · obtain ⟨f, -, -, hserve⟩ := serve_of_unknown (by simpa using hthere)
      rw [hserve]
      exact h

theorem isFactored_ofCalls (calls : List IndexCall) : (ofCalls calls).IsFactored := by
  suffices h : ∀ a : Arena, a.IsFactored →
      (calls.foldl (fun a call => (a.serve call).2) a).IsFactored from h _ isFactored_empty
  induction calls with
  | nil => exact fun a h => h
  | cons call calls ih => exact fun a h => ih _ (h.serve call)

/-! ### Flattening -/

namespace IsFactored

variable (h : a.IsFactored)
include h

theorem resolves (hi : a.HasIndex i) : a.Resolves i := by
  obtain ⟨p⟩ := i
  induction p using Nat.strong_induction_on with
  | _ p ih =>
    obtain ⟨info, hinfo⟩ := hi
    refine .intro hinfo fun f hf => ?_
    have hlt := h.earlier hinfo f hf
    exact ih f.pos hlt (hasIndex_iff.2 (hlt.trans (indexInfo_lt hinfo)))

/-- The extent of an index is the product of those of its scalar factors. -/
theorem prod_factors (hi : a.Resolves i) : ((a.factors i).map a.extent).prod = a.extent i := by
  induction hi with
  | @intro i info entry hfactors ih =>
    rw [(Resolves.intro entry hfactors).factors_eq entry]
    split
    · next hcomposite =>
      calc ((info.factors.flatMap a.factors).map a.extent).prod
          = (info.factors.map fun f => ((a.factors f).map a.extent).prod).prod := by
            rw [List.map_flatMap, List.flatMap, List.prod_flatten, List.map_map]
            rfl
        _ = (info.factors.map a.extent).prod := by rw [List.map_congr_left ih]
        _ = a.extent i := by rw [extent_eq entry, h.extent entry hcomposite]
    · rw [List.map_singleton, List.prod_singleton]

end IsFactored

theorem flatten_append (a : Arena) (is js : List Index) :
    a.flatten (is ++ js) = (do return (← a.flatten is) ++ (← a.flatten js)) := by
  simp [flatten, List.mapM_append, monad_norm]

theorem Resolves.isScalar_of_mem (hi : a.Resolves i) {f : Index} (hf : f ∈ a.factors i) :
    a.IsScalar f := by
  induction hi with
  | @intro i info entry hfactors ih =>
    rw [(Resolves.intro entry hfactors).factors_eq entry] at hf
    split at hf
    · obtain ⟨g, hg, hf⟩ := List.mem_flatMap.1 hf
      exact ih g hg hf
    · next hscalar =>
      obtain rfl := List.mem_singleton.1 hf
      exact ⟨info, entry, by simpa [IndexInfo.isComposite] using hscalar⟩

/-- How flattening and extents agree, and what calls do: with known factors, and with an unknown
one. -/
structure Consistent (a : Arena) : Prop where
  /-- Indices that are there flatten to scalar indices that are there. -/
  flattens : ∀ is, (∀ i ∈ is, a.HasIndex i) → ∃ fs, a.flatten is = .ok fs ∧ ∀ f ∈ fs, a.IsScalar f
  append : ∀ is js, a.flatten (is ++ js) = (do return (← a.flatten is) ++ (← a.flatten js))
  idempotent : ∀ is fs, a.flatten is = .ok fs → a.flatten fs = .ok fs
  /-- The extent of an index is the product of those it flattens to. -/
  extents : ∀ i info, a.indexInfo i = .ok info →
    ∃ fs, a.flatten [i] = .ok fs ∧ a.extentOf fs = .ok info.extent
  /-- The call makes a new index, which has the entry asked for, and leaves the entries there are. -/
  known : ∀ call : IndexCall, (∀ f ∈ call.factors, a.HasIndex f) → ∃ i b,
    a.serve call = (.ok i, b) ∧ ¬ a.HasIndex i ∧ b.indexInfo i = .ok (a.entry call) ∧
      ∀ j, a.HasIndex j → b.indexInfo j = a.indexInfo j
  /-- The call fails, says which factor is unknown, and leaves the arena as it is. -/
  unknown : ∀ name role factors, (∃ f ∈ factors, ¬ a.HasIndex f) → ∃ f ∈ factors, ¬ a.HasIndex f ∧
    a.serve (.composite name role factors) = (.error (.unknownIndex f), a)

theorem flatten_flatten {fs : List Index} (h : a.flatten is = .ok fs) : a.flatten fs = .ok fs := by
  obtain ⟨hres, rfl⟩ := of_flatten_eq_ok h
  rw [flatten_eq fun f hf => Resolves.of_mem_flatMap hres hf]
  have hself : ∀ f ∈ is.flatMap a.factors, a.factors f = [f] := by
    intro f hf
    obtain ⟨i, -, hf⟩ := List.mem_flatMap.1 hf
    exact a.factors_scalar i f hf
  rw [List.flatMap_congr hself, List.flatMap_singleton']

theorem IsFactored.consistent (h : a.IsFactored) : a.Consistent where
  flattens := by
    intro is hthere
    refine ⟨_, flatten_eq fun i hi => h.resolves (hthere i hi), fun f hf => ?_⟩
    obtain ⟨i, hi, hf⟩ := List.mem_flatMap.1 hf
    exact (h.resolves (hthere i hi)).isScalar_of_mem hf
  append := flatten_append a
  idempotent := fun is fs => flatten_flatten
  extents := by
    intro i info hinfo
    have hres := h.resolves ⟨info, hinfo⟩
    have hthere : ∀ f ∈ a.factors i, a.HasIndex f := fun f hf =>
      (hres.factors_of_mem hf).1.exists_indexInfo
    refine ⟨a.factors i, ?_, ?_⟩
    · rw [flatten_eq (by simpa using hres), List.flatMap_singleton]
    · rw [extentOf_eq hthere, h.prod_factors hres, extent_eq hinfo]
  known := fun call hthere =>
    ⟨a.nextIndex, _, serve_of_known hthere, fun hno => (hasIndex_iff.1 hno).ne rfl,
      indexInfo_addIndex_nextIndex a _, fun _ => indexInfo_addIndex_of_known _⟩
  unknown := fun _ _ _ => serve_of_unknown

/-- In every arena that calls for indices build from the empty one, lists of indices that are there
flatten to scalar indices; flattening goes together with putting lists together, and flattening
again changes nothing; every index has the extent that its scalar factors have together.  A call
whose factors are there makes a new index with the entry asked for; one for a composite index with
an unknown factor fails for it and leaves the arena as it is. -/
theorem consistent_ofCalls (calls : List IndexCall) : (ofCalls calls).Consistent :=
  (isFactored_ofCalls calls).consistent

/-- A square, after a call that fails, and a square over that. -/
def squares : List IndexCall :=
  [.scalar "a" 3 .point, .composite "ab" .point [⟨0⟩, ⟨7⟩], .composite "aa" .point [⟨0⟩, ⟨0⟩],
    .composite "aaaa" .point [⟨1⟩, ⟨1⟩]]

/-- The square over the square has the extent of four scalar indices, and can be a factor again. -/
theorem consistent_squares :
    ((ofCalls squares).indexInfo ⟨2⟩ = .ok ⟨"aaaa", 81, .point, [⟨1⟩, ⟨1⟩]⟩ ∧
      ∃ fs, (ofCalls squares).flatten [⟨2⟩] = .ok fs ∧ (ofCalls squares).extentOf fs = .ok 81 ∧
        (ofCalls squares).flatten fs = .ok fs ∧ ∀ f ∈ fs, (ofCalls squares).IsScalar f) ∧
    (∃ i b, (ofCalls squares).serve (.composite "b" .point [⟨2⟩, ⟨0⟩]) = (.ok i, b) ∧
      b.indexInfo i = .ok ⟨"b", 243, .point, [⟨2⟩, ⟨0⟩]⟩) ∧
    ∃ f, (ofCalls squares).serve (.composite "b" .point [⟨2⟩, ⟨7⟩]) =
      (.error (.unknownIndex f), ofCalls squares) := by
  have h := consistent_ofCalls squares
  have hsize : (ofCalls squares).indices.size = 3 := by decide
  have hthere : ∀ i : Index, i.pos < 3 → (ofCalls squares).HasIndex i := fun _ hi =>
    hasIndex_iff.2 (hsize ▸ hi)
  have hinfo : (ofCalls squares).indexInfo ⟨2⟩ = .ok ⟨"aaaa", 81, .point, [⟨1⟩, ⟨1⟩]⟩ := by decide
  obtain ⟨fs, hfs, hextent⟩ := h.extents ⟨2⟩ _ hinfo
  obtain ⟨fs', hfs', hscalar⟩ := h.flattens [⟨2⟩] (by simpa using hthere ⟨2⟩ (by decide))
  obtain rfl := Except.ok.inj (hfs.symm.trans hfs')
  obtain ⟨i, b, hserve, -, hentry, -⟩ := h.known (.composite "b" .point [⟨2⟩, ⟨0⟩]) (by
    simpa [IndexCall.factors] using ⟨hthere ⟨2⟩ (by decide), hthere ⟨0⟩ (by decide)⟩)
  have hno : ¬ (ofCalls squares).HasIndex ⟨7⟩ := fun hmem =>
    absurd (hasIndex_iff.1 hmem) (by decide)
  obtain ⟨f, -, -, hunknown⟩ := h.unknown "b" .point [⟨2⟩, ⟨7⟩] ⟨⟨7⟩, by simp, hno⟩
  exact ⟨⟨hinfo, fs, hfs, hextent, h.idempotent _ _ hfs, hscalar⟩,
    ⟨i, b, hserve, hentry.trans (by decide)⟩, f, hunknown⟩

end Arena

end TensorRecipe
