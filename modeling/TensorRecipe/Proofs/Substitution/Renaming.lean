import TensorRecipe.Proofs.Substitution.FreeIndices

/-!
# Renamings

Where every replacement is a leaf of a scalar index, substitution renames the indices of a tree of
scalar indices everywhere, `Tree.mapIndices`, and keeps all transposes (`gives_apply_renaming`).
Renamings that follow one another are one renaming, since no replacement is renamed again by the
substitution that puts it in; and one that undoes the other gives the tree back (`apply_apply`).
-/

namespace TensorRecipe

/-! ### Trees -/

variable {factors : Index → List Index} {σ : Index → Option Tree} {r r' : Index → Index}

/-- What a node carries, with its indices renamed. -/
def Shape.mapIndices (r : Index → Index) : Shape → Shape
  | .recipe g transpose => .recipe ⟨g.domain.map r, g.basis.map r, g.point.map r⟩ transpose
  | .forAll is => .forAll (is.map r)
  | .indexSum is => .indexSum (is.map r)
  | .index i => .index (r i)
  | shape => shape

namespace Tree

mutual

/-- The tree with its indices renamed. -/
def mapIndices (r : Index → Index) : Tree → Tree
  | node shape children => node (shape.mapIndices r) (mapIndicesAll r children)

/-- The trees with their indices renamed. -/
def mapIndicesAll (r : Index → Index) : List Tree → List Tree
  | [] => []
  | t :: ts => mapIndices r t :: mapIndicesAll r ts

end

theorem mapIndicesAll_eq_map (r : Index → Index) :
    ∀ ts : List Tree, mapIndicesAll r ts = ts.map (mapIndices r)
  | [] => rfl
  | t :: ts => by rw [mapIndicesAll, mapIndicesAll_eq_map r ts, List.map_cons]

theorem mapIndices_mapIndices (t : Tree) :
    (t.mapIndices r).mapIndices r' = t.mapIndices (r' ∘ r) := by
  induction t using Tree.induct with
  | node shape children ih =>
    have hshape : (shape.mapIndices r).mapIndices r' = shape.mapIndices (r' ∘ r) := by
      cases shape <;> simp [Shape.mapIndices]
    rw [mapIndices, mapIndices, mapIndices, hshape, mapIndicesAll_eq_map, mapIndicesAll_eq_map,
      mapIndicesAll_eq_map, List.map_map]
    exact congrArg _ (List.map_congr_left ih)

theorem mapIndices_eq_self {t : Tree} (h : ∀ i ∈ t.indices, r i = i) : t.mapIndices r = t := by
  induction t using Tree.induct with
  | node shape children ih =>
    obtain ⟨hs, hc⟩ := List.forall_mem_append.1 h
    have hself : ∀ {is : List Index}, (∀ i ∈ is, r i = i) → is.map r = is := fun his => by
      rw [List.map_congr_left his, List.map_id']
    have hshape : shape.mapIndices r = shape := by
      cases shape with
      | recipe g transpose =>
        obtain ⟨hdb, hp⟩ := List.forall_mem_append.1 hs
        obtain ⟨hd, hb⟩ := List.forall_mem_append.1 hdb
        rw [Shape.mapIndices, hself hd, hself hb, hself hp]
      | forAll is => exact congrArg Shape.forAll (hself hs)
      | indexSum is => exact congrArg Shape.indexSum (hself hs)
      | index i => exact congrArg Shape.index (hs i (by simp [Shape.indices]))
      | _ => rfl
    have hchildren : ∀ t ∈ children, t.mapIndices r = t := fun t ht =>
      ih t ht fun i hi => hc i (mem_indicesAll.2 ⟨t, ht, hi⟩)
    rw [mapIndices, hshape, mapIndicesAll_eq_map, List.map_congr_left hchildren, List.map_id']

theorem mem_indices_mapIndices {t : Tree} {j : Index} (h : j ∈ (t.mapIndices r).indices) :
    ∃ i ∈ t.indices, r i = j := by
  induction t using Tree.induct with
  | node shape children ih =>
    rw [mapIndices, indices, List.mem_append] at h
    rcases h with h | h
    · have hshape : (shape.mapIndices r).indices = shape.indices.map r := by
        cases shape <;> simp [Shape.mapIndices, Shape.indices, IndexDeclaration.toList]
      rw [hshape, List.mem_map] at h
      obtain ⟨i, hi, hij⟩ := h
      exact ⟨i, List.mem_append_left _ hi, hij⟩
    · rw [mapIndicesAll_eq_map, mem_indicesAll] at h
      obtain ⟨u, hu, hj⟩ := h
      obtain ⟨t, ht, rfl⟩ := List.mem_map.1 hu
      obtain ⟨i, hi, hij⟩ := ih t ht hj
      exact ⟨i, List.mem_append_right _ (mem_indicesAll.2 ⟨t, ht, hi⟩), hij⟩

end Tree

theorem length_flatMap_map {is : List Index}
    (h : ∀ i ∈ is, (factors (r i)).length = (factors i).length) :
    ((is.map r).flatMap factors).length = (is.flatMap factors).length := by
  rw [List.flatMap_map, List.length_flatMap, List.length_flatMap, List.map_congr_left h]

/-- Every replacement is an index leaf. -/
def OnlyLeaves (σ : Index → Option Tree) : Prop := ∀ i u, σ i = some u → ∃ j, u = .node (.index j) []

theorem OnlyLeaves.newIndex?_eq (h : OnlyLeaves σ) : newIndex? σ = some ∘ newIndex σ := by
  funext i
  rw [Function.comp_apply, newIndex]
  cases hi : σ i with
  | none => simp [newIndex?, hi]
  | some u =>
    obtain ⟨j, rfl⟩ := h i u hi
    simp [newIndex?, hi, Tree.leafIndex?]

/-- Where indices have as many factors as before, no transpose is lost. -/
theorem OnlyLeaves.shape_substitute (h : OnlyLeaves σ) {shape : Shape}
    (hleaf : ∀ i, shape ≠ .index i)
    (hlen : ∀ i ∈ shape.indices, (factors (newIndex σ i)).length = (factors i).length) :
    shape.substitute factors σ = shape.mapIndices (newIndex σ) := by
  cases shape with
  | recipe g transpose =>
    have hgroups : g.substitute σ = ⟨g.domain.map (newIndex σ), g.basis.map (newIndex σ),
        g.point.map (newIndex σ)⟩ := by
      simp only [IndexDeclaration.substitute, h.newIndex?_eq, List.filterMap_eq_map]
    have hlist : (g.substitute σ).toList = g.toList.map (newIndex σ) := by
      rw [IndexDeclaration.toList_substitute, h.newIndex?_eq, List.filterMap_eq_map]
    have hlen : ∀ i ∈ g.toList, _ := hlen
    rw [Shape.substitute, hlist, if_pos (length_flatMap_map hlen), hgroups]
    rfl
  | index i => exact absurd rfl (hleaf i)
  | _ => rfl

theorem OnlyLeaves.substitute_eq (h : OnlyLeaves σ) {a : Arena} {id : NodeId} {t : Tree}
    (ht : a.Unfolds id t)
    (hlen : ∀ i ∈ t.indices, (factors (newIndex σ i)).length = (factors i).length) :
    t.substitute factors σ = t.mapIndices (newIndex σ) := by
  induction t using Tree.induct generalizing id with
  | node shape children ih =>
    obtain ⟨n, hn, rfl, hc⟩ := ht.get
    obtain ⟨hs, hlen⟩ := List.forall_mem_append.1 hlen
    by_cases hleaf : ∃ i, n.shape = .index i
    · obtain ⟨i, hi⟩ := hleaf
      -- an unfolded leaf has no children
      obtain rfl : children = [] := by
        cases n <;> cases hi
        cases hc
        rfl
      rw [hi, Tree.substitute, Tree.mapIndices, Tree.mapIndicesAll, Shape.mapIndices, newIndex]
      cases hσ : σ i with
      | none => simp [newIndex?, hσ]
      | some u =>
        obtain ⟨j, rfl⟩ := h i u hσ
        simp [newIndex?, hσ, Tree.leafIndex?]
    · push Not at hleaf
      have hchildren : Tree.substituteAll factors σ children =
          Tree.mapIndicesAll (newIndex σ) children := by
        rw [Tree.substituteAll_eq_map, Tree.mapIndicesAll_eq_map]
        refine List.map_congr_left fun u hu => ?_
        obtain ⟨c, -, hcu⟩ := Arena.exists_of_mem_right hc hu
        exact ih u hu hcu fun i hi => hlen i (Tree.mem_indicesAll.2 ⟨u, hu, hi⟩)
      rw [Tree.substitute_node hleaf, Tree.mapIndices, h.shape_substitute hleaf hs, hchildren]

/-! ### The pass -/

namespace Substitution

open PassM

variable {s : Substitution} {a : Arena} {root : NodeId} {t : Tree}

/-- Every replacement is a leaf of a scalar index. -/
def IsRenaming (s : Substitution) (a : Arena) : Prop := ∀ i id, s i = some id → IsScalarLeaf a id

theorem relabel_of_none {i : Index} (h : s i = none) : s.relabel a i = i := by
  rw [relabel, renamed, h]
  rfl

theorem relabel_of_get {i j : Index} {id : NodeId} (h : s i = some id)
    (hj : a.get id = .ok (.index j)) : s.relabel a i = j := by
  rw [relabel, renamed, h]
  simp only [hj]
  rfl

theorem IsRenaming.isScalar (hs : s.IsRenaming a) {i : Index} (hi : a.IsScalar i) :
    a.IsScalar (s.relabel a i) := by
  cases h : s i with
  | none => rwa [relabel_of_none h]
  | some id =>
    obtain ⟨j, hj, hscalar⟩ := hs i id h
    rwa [relabel_of_get h hj]

theorem IsRenaming.mono (hs : s.IsRenaming a) {b : Arena} (hab : a.Extends b) : s.IsRenaming b := by
  intro i id hid
  obtain ⟨j, hj, hscalar⟩ := hs i id hid
  exact ⟨j, hab.get hj, hscalar.congr hab.indices⟩

theorem IsRenaming.relabel_mono (hs : s.IsRenaming a) {b : Arena} (hab : a.Extends b) :
    s.relabel b = s.relabel a := by
  funext i
  cases h : s i with
  | none => rw [relabel_of_none h, relabel_of_none h]
  | some id =>
    obtain ⟨j, hj, -⟩ := hs i id h
    rw [relabel_of_get h hj, relabel_of_get h (hab.get hj)]

/-- A renaming unfolds to leaves, and renames as they say. -/
theorem IsRenaming.exists_unfolds (hs : s.IsRenaming a) :
    ∃ σ, s.Unfolds a σ ∧ OnlyLeaves σ ∧ newIndex σ = s.relabel a := by
  obtain ⟨σ, hσ, hkinds⟩ := Substitution.exists_unfolds fun i id hid => .inl (hs i id hid)
  refine ⟨σ, hσ, fun i u hu => ?_, funext fun i => (relabel_eq hσ i).symm⟩
  have hi := hσ i
  rw [hu] at hi
  generalize hsi : s i = x at hi
  obtain ⟨hid⟩ := hi
  obtain ⟨j, hj, -⟩ := hs i _ hsi
  exact ⟨j, hid.unique (.of_get hj .nil)⟩

theorem gives_apply_renaming {w : Workspace Unit} (h : w.arena.WellFormed root t)
    (hscalar : ∀ i ∈ t.indices, w.arena.IsScalar i) (hs : s.IsRenaming w.arena) :
    (s.apply root).Gives w fun out w' => w.arena.Extends w'.arena ∧
      w'.arena.WellFormed out (t.mapIndices (s.relabel w.arena)) ∧
      ∀ i ∈ (t.mapIndices (s.relabel w.arena)).indices, w'.arena.IsScalar i := by
  obtain ⟨σ, hσ, hleaves, hnew⟩ := hs.exists_unfolds
  have hmaps : ∀ i ∈ t.indices, w.arena.IsScalar (newIndex σ i) := fun i hi => by
    rw [hnew]
    exact hs.isScalar (hscalar i hi)
  have hresolves : ∀ i ∈ t.indices, ∀ j, newIndex? σ i = some j → w.arena.Resolves j := by
    intro i hi j hij
    rw [hleaves.newIndex?_eq] at hij
    obtain rfl := Option.some.inj hij
    exact (hmaps i hi).resolves
  -- scalar indices have one factor each, before and after
  have hsame : t.substitute w.arena.factors σ = t.mapIndices (s.relabel w.arena) := by
    rw [← hnew]
    refine hleaves.substitute_eq h.unfolds fun i hi => ?_
    rw [(hmaps i hi).factors_eq, (hscalar i hi).factors_eq]
    rfl
  refine (gives_apply hσ h hresolves).mono ?_
  rintro out w' ⟨hext, hun⟩
  rw [hsame] at hun
  have hscalar' : ∀ j ∈ (t.mapIndices (s.relabel w.arena)).indices, w'.arena.IsScalar j := by
    intro j hj
    obtain ⟨i, hi, rfl⟩ := Tree.mem_indices_mapIndices hj
    exact (hs.isScalar (hscalar i hi)).congr hext.indices
  exact ⟨hext, ⟨hun, fun j hj => (hscalar' j hj).resolves⟩, hscalar'⟩

/-! ### One renaming after another -/

variable {b c : Arena} {t u : Substitution} {T : Tree} {r : Index → Index}

/-- A substitution on the keys of two others, with a leaf of `r i` for every key `i`. -/
structure Composes (u : Substitution) (c : Arena) (r : Index → Index) (s t : Substitution) : Prop where
  keyed : ∀ i, (s i).isSome ∨ (t i).isSome → ∃ id, u i = some id ∧ c.get id = .ok (.index (r i))
  unkeyed : ∀ i, s i = none → t i = none → u i = none

/-- The replacement by `t` of what `s` makes of an index, or else that by `s`. -/
def andThen (s t : Substitution) (a : Arena) : Substitution := fun i => t (s.relabel a i) <|> s i

/-- A key of either renaming has a leaf of what it becomes by both. -/
theorem IsRenaming.andThen_eq_some (hs : s.IsRenaming a) (hab : a.Extends b) (ht : t.IsRenaming b)
    {i : Index} (hkey : (s i).isSome ∨ (t i).isSome) :
    ∃ id, s.andThen t a i = some id ∧ b.get id = .ok (.index (t.relabel b (s.relabel a i))) ∧
      b.IsScalar (t.relabel b (s.relabel a i)) := by
  cases hi : t (s.relabel a i) with
  | some id =>
    obtain ⟨j, hj, hscalar⟩ := ht _ id hi
    rw [relabel_of_get hi hj]
    exact ⟨id, by simp [andThen, hi], hj, hscalar⟩
  | none =>
    cases hsi : s i with
    | some id =>
      obtain ⟨j, hj, hscalar⟩ := hs i id hsi
      rw [relabel_of_none hi, relabel_of_get hsi hj]
      exact ⟨id, by simp [andThen, hi, hsi], hab.get hj, hscalar.congr hab.indices⟩
    | none =>
      rw [relabel_of_none hsi] at hi
      simp [hsi, hi] at hkey

theorem composes_andThen (hs : s.IsRenaming a) (hab : a.Extends b) (ht : t.IsRenaming b) :
    (s.andThen t a).Composes b (t.relabel b ∘ s.relabel a) s t where
  keyed i hkey :=
    have ⟨id, hid, hget, _⟩ := hs.andThen_eq_some hab ht hkey
    ⟨id, hid, hget⟩
  unkeyed i hsi hti := by rw [andThen, relabel_of_none hsi, hti, hsi]; rfl

namespace Composes

theorem relabel_eq (h : u.Composes c (t.relabel b ∘ s.relabel a) s t) :
    u.relabel c = t.relabel b ∘ s.relabel a := by
  funext i
  by_cases hkey : (s i).isSome ∨ (t i).isSome
  · obtain ⟨id, hid, hget⟩ := h.keyed i hkey
    exact relabel_of_get hid hget
  · obtain ⟨hsi, hti⟩ : s i = none ∧ t i = none := by simpa using hkey
    rw [relabel_of_none (h.unkeyed i hsi hti), Function.comp_apply, relabel_of_none hsi,
      relabel_of_none hti]

theorem isRenaming (h : u.Composes c (t.relabel b ∘ s.relabel a) s t) (hs : s.IsRenaming a)
    (hab : a.Extends b) (ht : t.IsRenaming b) (hac : a.Extends c) : u.IsRenaming c := by
  intro i id hid
  by_cases hkey : (s i).isSome ∨ (t i).isSome
  · obtain ⟨id', hid', hget⟩ := h.keyed i hkey
    obtain rfl : id = id' := Option.some.inj (hid.symm.trans hid')
    obtain ⟨-, -, -, hscalar⟩ := hs.andThen_eq_some hab ht hkey
    exact ⟨_, hget, hscalar.congr (hac.indices.trans hab.indices.symm)⟩
  · obtain ⟨hsi, hti⟩ : s i = none ∧ t i = none := by simpa using hkey
    rw [h.unkeyed i hsi hti] at hid
    cases hid

end Composes

/-- Two renamings, one after the other, make of a tree of scalar indices what a composite makes of it
at once; if the second takes back what the first did to the indices of the tree, the tree itself. -/
theorem apply_apply (h : a.WellFormed root T) (hscalar : ∀ i ∈ T.indices, a.IsScalar i)
    (hs : s.IsRenaming a) :
    ∃ out w', (s.apply root).start a () = .ok out w' ∧ a.Extends w'.arena ∧
      ∀ (b : Arena) (t : Substitution), w'.arena.Extends b → t.IsRenaming b →
        ∃ out' w'' result, (t.apply out).start b () = .ok out' w'' ∧
          w''.arena.Unfolds out' result ∧
          ((∀ i ∈ T.indices, t.relabel b (s.relabel a i) = i) → result = T) ∧
          ∀ (c : Arena) (u : Substitution), a.Extends c →
            u.Composes c (t.relabel b ∘ s.relabel a) s t →
              ∃ out'' x, (u.apply root).start c () = .ok out'' x ∧
                x.arena.Unfolds out'' result := by
  obtain ⟨out, w', hok, hext, hwf, hscalar'⟩ :=
    (gives_apply_renaming (w := ⟨a, [], ()⟩) h hscalar hs).start
  refine ⟨out, w', hok, hext, fun b t hb ht => ?_⟩
  have hab : a.Extends b := hext.trans hb
  obtain ⟨out', w'', hok', -, hwf', -⟩ :=
    (gives_apply_renaming (w := ⟨b, [], ()⟩) (hwf.mono hb)
      (fun i hi => (hscalar' i hi).congr hb.indices) ht).start
  have hun : w''.arena.Unfolds out' (T.mapIndices (t.relabel b ∘ s.relabel a)) :=
    Tree.mapIndices_mapIndices T ▸ hwf'.unfolds
  refine ⟨out', w'', _, hok', hun, Tree.mapIndices_eq_self, fun c u hc hu => ?_⟩
  obtain ⟨out'', x, hok'', -, hwf'', -⟩ :=
    (gives_apply_renaming (w := ⟨c, [], ()⟩) (h.mono hc)
      (fun i hi => (hscalar i hi).congr hc.indices) (hu.isRenaming hs hab ht hc)).start
  exact ⟨out'', x, hok'', hu.relabel_eq ▸ hwf''.unfolds⟩

/-- The three indices of `tripled`, moved round. -/
def rotating : Substitution := ofEntries [(⟨0⟩, ⟨1⟩), (⟨1⟩, ⟨2⟩), (⟨2⟩, ⟨0⟩)]

/-- The three indices of `tripled`, moved back. -/
def rotatingBack : Substitution := ofEntries [(⟨1⟩, ⟨0⟩), (⟨2⟩, ⟨1⟩), (⟨0⟩, ⟨2⟩)]

/-- The first nodes of `tripled` are leaves of its indices. -/
theorem isRenaming_ofEntries {entries : List (Index × NodeId)} (h : ∀ e ∈ entries, e.2.pos < 3) :
    (ofEntries entries).IsRenaming tripled := by
  intro i id hid
  have hlt : id.pos < 3 := h _ (mem_of_ofEntries_eq_some hid)
  obtain ⟨k⟩ := id
  dsimp only at hlt
  interval_cases k <;> exact ⟨_, rfl, isScalar_tripled _ (by simp)⟩

/-- A tree whose indices are moved round and then back is the tree it was. -/
theorem apply_apply_tripled :
    ∃ result, tripled.Unfolds ⟨4⟩ result ∧
      ∃ out w' out' w'' out'' x, (rotating.apply ⟨4⟩).start tripled () = .ok out w' ∧
        (rotatingBack.apply out).start w'.arena () = .ok out' w'' ∧
        w''.arena.Unfolds out' result ∧
        ((rotating.andThen rotatingBack tripled).apply ⟨4⟩).start tripled () = .ok out'' x ∧
        x.arena.Unfolds out'' result := by
  have hs : rotating.IsRenaming tripled := isRenaming_ofEntries (by decide)
  have ht : rotatingBack.IsRenaming tripled := isRenaming_ofEntries (by decide)
  obtain ⟨out, w', hok, hext, hthen⟩ := apply_apply wellFormed_tripled
    (fun i hi => isScalar_tripled i (by
      simpa [Tree.indices, Tree.indicesAll, Shape.indices] using hi)) hs
  have hback : ∀ i ∈ [(⟨0⟩ : Index), ⟨0⟩, ⟨1⟩, ⟨2⟩],
      rotatingBack.relabel tripled (rotating.relabel tripled i) = i := by decide
  obtain ⟨out', w'', result, hok', hun, hsame, honce⟩ :=
    hthen w'.arena rotatingBack (.refl _) (ht.mono hext)
  rw [ht.relabel_mono hext] at hsame honce
  obtain ⟨out'', x, hok'', hun''⟩ :=
    honce tripled _ (.refl _) (composes_andThen hs (.refl _) ht)
  obtain rfl := hsame hback
  exact ⟨_, wellFormed_tripled.unfolds, out, w', out', w'', out'', x, hok, hok', hun, hok'', hun''⟩

end Substitution

end TensorRecipe
