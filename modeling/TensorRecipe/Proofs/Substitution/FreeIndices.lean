import TensorRecipe.Proofs.Substitution.Transpose
import TensorRecipe.Proofs.Substitution.Trees
import TensorRecipe.Proofs.Tree.Free
import TensorRecipe.Proofs.Tree.Positions

/-!
# Free indices under substitution

Substitution renames leaves and the loops around them alike, but a loop over an index that becomes no
index is left as it is.  Over scalar indices, where no two indices of leaves and loops become the same,
a leaf is bound afterwards just when it was before.  So the free indices of the result are those of the
tree, renamed, without those that become something else (`freeIndices_apply`).
-/

namespace TensorRecipe

/-! ### Trees -/

namespace Tree

mutual

/-- The indices of the leaves and loops of a tree. -/
def used : Tree → List Index
  | node shape children => shape.used ++ usedAll children

/-- The indices of the leaves and loops of several trees. -/
def usedAll : List Tree → List Index
  | [] => []
  | t :: ts => used t ++ usedAll ts

end

theorem mem_usedAll {ts : List Tree} {i : Index} : i ∈ usedAll ts ↔ ∃ t ∈ ts, i ∈ t.used := by
  induction ts with
  | nil => simp [usedAll]
  | cons t ts ih => simp [usedAll, ih]

theorem mem_indices_of_mem_used {i : Index} {t : Tree} (h : i ∈ t.used) : i ∈ t.indices := by
  induction t using Tree.induct with
  | node shape children ih =>
    rw [indices, List.mem_append]
    rcases List.mem_append.1 h with h | h
    · cases shape with
      | recipe g transpose => cases h
      | _ => exact .inl h
    · obtain ⟨u, hu, hi⟩ := mem_usedAll.1 h
      exact .inr (mem_indicesAll.2 ⟨u, hu, ih u hu hi⟩)

/-- No index leaf is in the tree. -/
def LacksLeaves (t : Tree) : Prop := ∀ p i children, t.at? p ≠ some (node (.index i) children)

theorem LacksLeaves.free_eq_nil {t : Tree} (h : t.LacksLeaves) (factors : Index → List Index)
    (bound : List Index) : t.free factors bound = [] := by
  refine List.eq_nil_iff_forall_not_mem.2 fun i hi => ?_
  induction t using Tree.induct generalizing bound with
  | node shape children ih =>
    rcases shape.isInner_or with hs | ⟨j, rfl⟩ | ⟨x, rfl⟩
    · rw [free_node hs, Ascending.mem_ofList, mem_freeAll] at hi
      obtain ⟨t, ht, hi⟩ := hi
      obtain ⟨k, hk⟩ := List.mem_iff_getElem?.1 ht
      exact ih t ht (fun p j cs hat => h (k :: p) j cs (at?_cons_eq_some.2 ⟨t, hk, hat⟩)) _ hi
    · exact h [] j children rfl
    · cases hi

end Tree

/-- A tree that is the leaf of a scalar index or else has no index leaf. -/
def Tree.IsPlain (a : Arena) (u : Tree) : Prop :=
  (∃ j, u = .node (.index j) [] ∧ a.IsScalar j) ∨ (∀ k ∈ u.indices, a.Resolves k) ∧ u.LacksLeaves

namespace Tree.IsPlain

variable {a : Arena} {u : Tree}

theorem resolves (h : u.IsPlain a) : ∀ k ∈ u.indices, a.Resolves k := by
  rcases h with ⟨j, rfl, hj⟩ | ⟨h, -⟩
  · intro k hk
    obtain rfl : k = j := by simpa [Tree.indices, Tree.indicesAll, Shape.indices] using hk
    exact hj.resolves
  · exact h

theorem lacksLeaves (h : u.IsPlain a) (hleaf : u.leafIndex? = none) : u.LacksLeaves := by
  rcases h with ⟨j, rfl, -⟩ | ⟨-, h⟩
  · cases hleaf
  · exact h

theorem isScalar (h : u.IsPlain a) {j : Index} (hleaf : u.leafIndex? = some j) : a.IsScalar j := by
  rcases h with ⟨k, rfl, hk⟩ | ⟨-, h⟩
  · obtain rfl := Option.some.inj hleaf
    exact hk
  · obtain ⟨shape, children⟩ := u
    cases shape with
    | index k => exact absurd rfl (h [] k children)
    | _ => cases hleaf

end Tree.IsPlain

/-! ### Bound indices -/

variable {factors : Index → List Index} {σ : Index → Option Tree}

/-- Among indices that stay apart, and stay scalar, bound is bound. -/
structure StayApart (factors : Index → List Index) (σ : Index → Option Tree) (apart : Set Index) : Prop
    where
  inj : Set.InjOn (newIndex σ) apart
  scalar : ∀ i ∈ apart, factors i = [i]
  scalar_new : ∀ i ∈ apart, factors (newIndex σ i) = [newIndex σ i]

theorem flatMap_eq_of_scalar {is : List Index} (h : ∀ i ∈ is, factors i = [i]) :
    is.flatMap factors = is := by
  rw [List.flatMap_congr h, List.flatMap_singleton']

theorem isBound_iff_mem {bound : List Index} {i : Index} (h : factors i = [i]) :
    IsBound factors bound i ↔ i ∈ bound := by
  simp [IsBound, h]

variable {apart : Set Index}

theorem StayApart.isBound_iff (h : StayApart factors σ apart) {bound : List Index} {i : Index}
    (hi : i ∈ apart) (hbound : ∀ k ∈ bound, k ∈ apart) :
    IsBound factors (bound.map (newIndex σ)) (newIndex σ i) ↔ IsBound factors bound i := by
  rw [isBound_iff_mem (h.scalar_new i hi), isBound_iff_mem (h.scalar i hi), List.mem_map]
  constructor
  · rintro ⟨k, hk, heq⟩
    exact h.inj (hbound k hk) hi heq ▸ hk
  · exact fun hmem => ⟨i, hmem, rfl⟩

/-- What is put in place of the indices of a shape does not make a leaf of it. -/
theorem Shape.IsInner.substitute {shape : Shape} (h : shape.IsInner) :
    (shape.substitute factors σ).IsInner := by
  cases shape with
  | index i => exact absurd rfl (h.1 i)
  | var x => exact absurd rfl (h.2 x)
  | _ => exact ⟨nofun, nofun⟩

/-- What a node binds is renamed. -/
theorem StayApart.binds_eq (h : StayApart factors σ apart) {shape : Shape}
    (hs : ∀ i ∈ shape.scope, i ∈ apart) :
    (shape.substitute factors σ).binds factors = (shape.binds factors).map (newIndex σ) := by
  have hscope : (shape.substitute factors σ).scope = shape.scope.map (newIndex σ) := by
    cases shape <;> rfl
  have hnew : ∀ j ∈ shape.scope.map (newIndex σ), factors j = [j] := by
    intro j hj
    obtain ⟨i, hi, rfl⟩ := List.mem_map.1 hj
    exact h.scalar_new i (hs i hi)
  rw [Shape.binds, Shape.binds, hscope, flatMap_eq_of_scalar hnew,
    flatMap_eq_of_scalar fun i hi => h.scalar i (hs i hi), List.map_append]

theorem isScalar_of_newIndex? {a : Arena} (hσ : ∀ i u, σ i = some u → u.IsPlain a) {i j : Index}
    (hi : a.IsScalar i) (hij : newIndex? σ i = some j) : a.IsScalar j := by
  rw [newIndex?] at hij
  cases hu : σ i with
  | none =>
    rw [hu] at hij
    obtain rfl := Option.some.inj hij
    exact hi
  | some u =>
    rw [hu] at hij
    exact (hσ i u hu).isScalar hij

theorem isScalar_newIndex {a : Arena} (hσ : ∀ i u, σ i = some u → u.IsPlain a) {i : Index}
    (hi : a.IsScalar i) : a.IsScalar (newIndex σ i) := by
  rcases newIndex_eq (rfl : newIndex σ i = _) with hij | hij
  · exact isScalar_of_newIndex? hσ hi hij
  · rwa [← hij]

/-- A leaf becomes a leaf of another index, or it becomes something else. -/
theorem substitute_leaf (factors : Index → List Index) (σ : Index → Option Tree) (i : Index)
    (children : List Tree) :
    (∃ cs, newIndex? σ i = some (newIndex σ i) ∧ (Tree.node (.index i) children).substitute factors σ =
        .node (.index (newIndex σ i)) cs) ∨
      ∃ u, σ i = some u ∧ u.leafIndex? = none ∧ newIndex? σ i = none ∧
        (Tree.node (.index i) children).substitute factors σ = u := by
  cases hσ : σ i with
  | none =>
    have hnew : newIndex? σ i = some i := by rw [newIndex?, hσ]
    exact .inl ⟨children, by rw [newIndex, hnew]; rfl, by rw [Tree.substitute, hσ, newIndex, hnew]; rfl⟩
  | some u =>
    have hnew : newIndex? σ i = u.leafIndex? := by rw [newIndex?, hσ]
    cases hu : u.leafIndex? with
    | none => exact .inr ⟨u, rfl, hu, hnew.trans hu, by rw [Tree.substitute, hσ]; rfl⟩
    | some k =>
      obtain ⟨shape, cs⟩ := u
      obtain rfl : shape = .index k := by
        cases shape with
        | index l => exact congrArg Shape.index (Option.some.inj hu)
        | _ => cases hu
      rw [hu] at hnew
      refine .inl ⟨cs, by rw [newIndex, hnew]; rfl, ?_⟩
      rw [Tree.substitute, hσ, newIndex, hnew]
      rfl

/-- The free indices are renamed, and those that become something else are not free any more. -/
theorem StayApart.mem_free_substitute (h : StayApart factors σ apart)
    (hplain : ∀ i u, σ i = some u → u.leafIndex? = none → u.LacksLeaves) {t : Tree} {j : Index} :
    ∀ {bound : List Index}, (∀ i ∈ t.used, i ∈ apart) → (∀ i ∈ bound, i ∈ apart) →
      (j ∈ (t.substitute factors σ).free factors (bound.map (newIndex σ)) ↔
        ∃ i ∈ t.free factors bound, newIndex? σ i = some j) := by
  induction t using Tree.induct with
  | node shape children ih =>
    intro bound hused hbound
    rcases shape.isInner_or with hs | ⟨i, rfl⟩ | ⟨x, rfl⟩
    · have hscope : ∀ i ∈ shape.scope, i ∈ apart := fun i hi =>
        hused i (List.mem_append_left _ (Shape.used_of_scope hi))
      have hbelow : ∀ i ∈ shape.binds factors ++ bound, i ∈ apart := by
        intro i hi
        rcases List.mem_append.1 hi with hi | hi
        · rw [Shape.binds, flatMap_eq_of_scalar fun k hk => h.scalar k (hscope k hk)] at hi
          exact hscope i (by simpa using hi)
        · exact hbound i hi
      rw [Tree.substitute_node hs.1, Tree.free_node hs.substitute, Tree.free_node hs,
        Ascending.mem_ofList, Tree.mem_freeAll, h.binds_eq hscope, ← List.map_append]
      simp only [Ascending.mem_ofList, Tree.mem_freeAll, Tree.substituteAll_eq_map, List.mem_map,
        exists_exists_and_eq_and]
      have hchild : ∀ t ∈ children, _ := fun t ht => ih t ht
        (fun i hi => hused i (List.mem_append_right _ (Tree.mem_usedAll.2 ⟨t, ht, hi⟩))) hbelow
      constructor
      · rintro ⟨t, ht, hj⟩
        obtain ⟨i, hi, hij⟩ := (hchild t ht).1 hj
        exact ⟨i, ⟨t, ht, hi⟩, hij⟩
      · rintro ⟨i, ⟨t, ht, hi⟩, hij⟩
        exact ⟨t, ht, (hchild t ht).2 ⟨i, hi, hij⟩⟩
    · have hi : i ∈ apart := hused i (by simp [Tree.used, Shape.used, Shape.indices])
      rcases substitute_leaf factors σ i children with ⟨cs, hnew, heq⟩ | ⟨u, hu, hleaf, hnew, heq⟩
      · rw [heq, Tree.free, Tree.free]
        by_cases hb : IsBound factors bound i
        · rw [if_pos hb, if_pos ((h.isBound_iff hi hbound).2 hb)]
          simp
        · rw [if_neg hb, if_neg (mt (h.isBound_iff hi hbound).1 hb)]
          simp [hnew, eq_comm]
      · rw [heq, (hplain i u hu hleaf).free_eq_nil, Tree.free]
        split <;> simp [hnew]
    · simp [Tree.substitute, Shape.substitute, Tree.free]

/-! ### The pass -/

namespace Substitution

open PassM

variable {s : Substitution} {a : Arena} {root : NodeId} {t : Tree}

/-- A replacement is a leaf of a scalar index. -/
def IsScalarLeaf (a : Arena) (id : NodeId) : Prop := ∃ j, a.get id = .ok (.index j) ∧ a.IsScalar j

/-- A replacement is a well-formed tree without index leaves. -/
def IsLeafless (a : Arena) (id : NodeId) : Prop := ∃ u, a.WellFormed id u ∧ u.LacksLeaves

theorem relabel_eq (h : s.Unfolds a σ) (i : Index) : s.relabel a i = newIndex σ i := by
  rw [relabel, renamed_eq h, newIndex]
  cases newIndex? σ i <;> rfl

theorem exists_unfolds (h : ∀ i id, s i = some id → IsScalarLeaf a id ∨ IsLeafless a id) :
    ∃ σ, s.Unfolds a σ ∧ ∀ i u, σ i = some u → u.IsPlain a := by
  have hone : ∀ i, ∃ o : Option Tree, Option.Rel a.Unfolds (s i) o ∧
      ∀ u, o = some u → u.IsPlain a := by
    intro i
    cases hi : s i with
    | none => exact ⟨none, .none, nofun⟩
    | some id =>
      rcases h i id hi with ⟨j, hj, hscalar⟩ | ⟨u, hu, hlacks⟩
      · exact ⟨_, .some (.of_get hj .nil), fun v hv => .inl ⟨j, (Option.some.inj hv).symm, hscalar⟩⟩
      · exact ⟨_, .some hu.unfolds, fun v hv => Option.some.inj hv ▸ .inr ⟨hu.resolves, hlacks⟩⟩
  choose σ hσ using hone
  exact ⟨σ, fun i => (hσ i).1, fun i => (hσ i).2⟩

/-- Substitution on a tree of scalar indices succeeds.  If no two indices of its leaves and loops
become the same, the free indices of the result are those of the tree, renamed, without those that
become no index. -/
theorem freeIndices_apply (h : a.WellFormed root t) (hscalar : ∀ i ∈ t.indices, a.IsScalar i)
    (hs : ∀ i id, s i = some id → IsScalarLeaf a id ∨ IsLeafless a id)
    (hinj : Set.InjOn (s.relabel a) {i | i ∈ t.used}) :
    ∃ free out w' free', a.freeIndices root = .ok free ∧ (s.apply root).start a () = .ok out w' ∧
      w'.arena.freeIndices out = .ok free' ∧
      ∀ j, j ∈ free' ↔ ∃ i ∈ free, s.renamed a i ≠ .ok none ∧ s.relabel a i = j := by
  obtain ⟨σ, hσ, hplain⟩ := exists_unfolds hs
  have hrelabel : s.relabel a = newIndex σ := funext fun i => relabel_eq hσ i
  obtain ⟨out, w', hok, hext, hun⟩ := (gives_apply (w := ⟨a, [], ()⟩) hσ h
    fun i hi j hij => (isScalar_of_newIndex? hplain (hscalar i hi) hij).resolves).start
  have hout : w'.arena.WellFormed out (t.substitute a.factors σ) := by
    refine ⟨hun, fun j hj => Arena.Resolves.congr hext.indices ?_⟩
    rcases Tree.mem_indices_substitute hj with ⟨i, hi, hij | rfl⟩ | ⟨i, u, hu, hj⟩
    · exact (isScalar_of_newIndex? hplain (hscalar i hi) hij).resolves
    · exact h.resolves i hi
    · exact (hplain i u hu).resolves j hj
  have hused : ∀ i ∈ t.used, a.IsScalar i := fun i hi =>
    hscalar i (Tree.mem_indices_of_mem_used hi)
  have hapart : StayApart a.factors σ {i | i ∈ t.used} :=
    ⟨hrelabel ▸ hinj, fun i hi => (hused i hi).factors_eq,
      fun i hi => (isScalar_newIndex hplain (hused i hi)).factors_eq⟩
  refine ⟨_, out, w', _, Arena.freeIndices_eq h, hok, Arena.freeIndices_eq hout, fun j => ?_⟩
  rw [Arena.factors_congr hext.indices, hrelabel]
  have hunbound : ∀ i ∈ ([] : List Index), i ∈ {i | i ∈ t.used} := by simp
  have hmem := hapart.mem_free_substitute (j := j) (fun i u hu => (hplain i u hu).lacksLeaves)
    (fun i hi => hi) hunbound
  refine hmem.trans (exists_congr fun i => and_congr_right fun _ => ?_)
  rw [renamed_eq hσ, newIndex]
  cases newIndex? σ i <;> simp

theorem mem_of_ofEntries_eq_some {entries : List (Index × NodeId)} {i : Index} {id : NodeId}
    (h : ofEntries entries i = some id) : (i, id) ∈ entries := by
  obtain ⟨entry, hfind, rfl⟩ := Option.map_eq_some_iff.1 h
  obtain rfl : entry.1 = i := by simpa using List.find?_some hfind
  exact List.mem_reverse.1 (List.mem_of_find?_eq_some hfind)

/-- A loop over the first of three indices around all of them. -/
def tripled : Arena where
  nodes := #[.index ⟨0⟩, .index ⟨1⟩, .index ⟨2⟩, .operator .sum [⟨0⟩, ⟨1⟩, ⟨2⟩], .forAll [⟨0⟩] ⟨3⟩,
    .var "u"]
  indices := #[⟨"i", 2, .domain, []⟩, ⟨"j", 2, .domain, []⟩, ⟨"k", 2, .domain, []⟩]

theorem isScalar_tripled : ∀ i ∈ [(⟨0⟩ : Index), ⟨1⟩, ⟨2⟩], tripled.IsScalar i := by
  intro i hi
  fin_cases hi <;> exact ⟨_, rfl, rfl⟩

theorem wellFormed_tripled : tripled.WellFormed ⟨4⟩ (.node (.forAll [⟨0⟩]) [.node (.operator .sum)
    [.node (.index ⟨0⟩) [], .node (.index ⟨1⟩) [], .node (.index ⟨2⟩) []]]) := by
  have hleaf : ∀ i, i < 3 → tripled.Unfolds ⟨i⟩ (.node (.index ⟨i⟩) []) := by
    intro i hi
    interval_cases i <;> exact ⟨_, rfl, rfl, trivial⟩
  refine ⟨⟨_, rfl, rfl, ⟨_, rfl, rfl, hleaf 0 (by decide), hleaf 1 (by decide), hleaf 2 (by decide),
    trivial⟩, trivial⟩, fun i hi => (isScalar_tripled i ?_).resolves⟩
  simpa [Tree.indices, Tree.indicesAll, Shape.indices] using hi

/-- Of three indices the first two are swapped, and the third becomes a variable. -/
def swapping : Substitution := ofEntries [(⟨0⟩, ⟨1⟩), (⟨1⟩, ⟨0⟩), (⟨2⟩, ⟨5⟩)]

/-- What was free under the name of the second index is free under that of the first. -/
theorem freeIndices_apply_tripled :
    ∃ out w' free', (swapping.apply ⟨4⟩).start tripled () = .ok out w' ∧
      w'.arena.freeIndices out = .ok free' ∧ ∀ j, j ∈ free' ↔ j = ⟨0⟩ := by
  have hkinds : ∀ i id, swapping i = some id →
      IsScalarLeaf tripled id ∨ IsLeafless tripled id := by
    intro i id hid
    have hmem := mem_of_ofEntries_eq_some hid
    simp only [List.mem_cons, Prod.mk.injEq, List.not_mem_nil, or_false] at hmem
    rcases hmem with ⟨-, rfl⟩ | ⟨-, rfl⟩ | ⟨-, rfl⟩
    · exact .inl ⟨⟨1⟩, rfl, isScalar_tripled _ (by simp)⟩
    · exact .inl ⟨⟨0⟩, rfl, isScalar_tripled _ (by simp)⟩
    · refine .inr ⟨.node (.var "u") [], ⟨⟨_, rfl, rfl, trivial⟩, by simp [Tree.indices, Tree.indicesAll,
        Shape.indices]⟩, ?_⟩
      rintro (_ | ⟨k, p⟩) i children h <;> cases h
  have hinj : Set.InjOn (swapping.relabel tripled) {i | i ∈ [(⟨0⟩ : Index), ⟨0⟩, ⟨1⟩, ⟨2⟩]} := by
    have hpairs : ∀ i ∈ [(⟨0⟩ : Index), ⟨0⟩, ⟨1⟩, ⟨2⟩], ∀ j ∈ [(⟨0⟩ : Index), ⟨0⟩, ⟨1⟩, ⟨2⟩],
        swapping.relabel tripled i = swapping.relabel tripled j → i = j := by decide
    exact fun i hi j hj => hpairs i hi j hj
  obtain ⟨free, out, w', free', hfree, hok, hfree', hmem⟩ := freeIndices_apply wellFormed_tripled
    (fun i hi => isScalar_tripled i (by
      simpa [Tree.indices, Tree.indicesAll, Shape.indices] using hi)) hkinds hinj
  obtain rfl : [⟨1⟩, ⟨2⟩] = free := Except.ok.inj hfree
  have hdropped : swapping.renamed tripled ⟨2⟩ = .ok none := rfl
  have hkept : swapping.renamed tripled ⟨1⟩ = .ok (some ⟨0⟩) := rfl
  have hrelabel : swapping.relabel tripled ⟨1⟩ = ⟨0⟩ := rfl
  refine ⟨out, w', free', hok, hfree', fun j => (hmem j).trans ?_⟩
  simp [hdropped, hkept, hrelabel, eq_comm]

end Substitution

end TensorRecipe
