import TensorRecipe.Proofs.Extraction.Counting
import TensorRecipe.Proofs.Extraction.Draft

/-!
# What there is to place

The temporaries of a region are `entries`: named sums, each with the draft of its value, in the
order of their completion; `total` is how often each name is used in the region.  `Placed` says that
a draft is another one with some entries bound in it, each where all of its uses are.

A part of the region is `Sealed` when the uses of some entries all lie in it and in the values of
those entries, and whatever else it refers to is acceptable.  Once all that can be is bound in a
sealed part, its free references are acceptable (`Placed.ok_of_free`): this is why no let comes to
lie outside a scope that captures what it binds.
-/

namespace TensorRecipe

/-- Scopes may hold lets around bare references. -/
def Shape.isScope : Shape → Bool
  | .forAll _ => true
  | .indexSum _ => true
  | .letIn _ => true
  | _ => false

theorem le_sum {α : Type} {f : α → Nat} {xs : List α} {x : α} (hx : x ∈ xs) :
    f x ≤ (xs.map f).sum :=
  List.single_le_sum (by simp) _ (List.mem_map_of_mem hx)

namespace Draft

/-- How often a name is read in a draft. -/
def count (x : String) (d : Draft) : Nat := d.toTree.occurrences x

theorem count_node {x : String} {shape : Shape} {children : List Draft} :
    (node shape children).count x =
      (if shape = .var x then 1 else 0) + (children.map (count x)).sum := by
  rw [count, toTree, Tree.occurrences, Tree.occurrencesAll_eq, toTrees_eq, List.map_map]
  rfl

theorem count_ref {x : String} {y : Reduction} :
    (ref y).count x = if y.name = x then 1 else 0 := by
  simp [count, toTree, Tree.occurrences, Tree.occurrencesAll]

theorem count_temps {x : String} {xs : List Reduction} {values : List Draft} {body : Draft} :
    (temps xs values body).count x = (values.map (count x)).sum + body.count x := by
  rw [count, toTree, Tree.occurrences, Tree.occurrencesAll_eq, toTrees_eq]
  simp only [reduceCtorEq, if_false, Nat.zero_add, List.map_append, List.map_map, List.sum_append,
    List.map_cons, List.map_nil, List.sum_cons, List.sum_nil, Nat.add_zero]
  rfl

theorem coe_flatMap {α β : Type} {f : α → List β} (xs : List α) :
    ((xs.flatMap f : List β) : Multiset β) = (xs.map fun x => (f x : Multiset β)).sum := by
  induction xs with
  | nil => rfl
  | cons x xs ih => rw [List.flatMap_cons, ← Multiset.coe_add, ih, List.map_cons, List.sum_cons]

theorem count_pos_of_mem_refs {x : Reduction} {d : Draft} (hx : x ∈ d.refs) : 0 < d.count x.name := by
  induction d using Draft.induct with
  | node shape children ih =>
    obtain ⟨g, transpose, rfl⟩ | hs := shape.recipe_or
    · simp [refs] at hx
    · rw [refs_node hs] at hx
      obtain ⟨e, he, hx⟩ := List.mem_flatMap.1 hx
      rw [count_node]
      exact Nat.add_pos_right _ ((ih e he hx).trans_le (le_sum he))
  | ref y =>
    obtain rfl : x = y := by simpa [refs] using hx
    simp [count_ref]
  | temps xs values body ihv ihb =>
    rw [count_temps]
    rw [refs, refsAll_eq, List.mem_append] at hx
    rcases hx with hx | hx
    · obtain ⟨e, he, hx⟩ := List.mem_flatMap.1 hx
      exact Nat.add_pos_left ((ihv e he hx).trans_le (le_sum he)) _
    · exact Nat.add_pos_right _ (ihb hx)

namespace Scoped

variable {factors : Index → List Index} {used : List String} {d : Draft}

theorem count_core (h : d.Scoped factors used) (x : String) :
    d.count x = d.core.count x + (d.bindings.map fun b => b.2.core.count x).sum := by
  have hsum := h.sum_core (f := count x) (g := fun shape => if shape = .var x then 1 else 0)
    (h := fun _ => 0) (fun _ _ _ => count_node) fun _ _ _ _ => by simp [count_temps]
  simpa using hsum

/-- What is listed over nodes and lets is listed in the core, or in the core of something bound. -/
theorem mem_core_iff {α : Type} {f : Draft → List α} (h : d.Scoped factors used)
    (hnode : ∀ shape children, (∀ g transpose, shape ≠ .recipe g transpose) →
      f (.node shape children) = children.flatMap f)
    (htemps : ∀ xs values body, f (.temps xs values body) = values.flatMap f ++ f body) {x : α} :
    x ∈ f d ↔ x ∈ f d.core ∨ ∃ b ∈ d.bindings, x ∈ f b.2.core := by
  have hsum := h.sum_core (f := fun d => (f d : Multiset α)) (g := fun _ => 0) (h := fun _ => 0)
    (fun shape children hs => by rw [hnode shape children hs, coe_flatMap, zero_add])
    fun xs values body _ => by
      rw [htemps, ← Multiset.coe_add, coe_flatMap]
      simp
  simp only [zero_add] at hsum
  rw [← Multiset.mem_coe, hsum, Multiset.mem_add, Multiset.mem_coe, ← coe_flatMap,
    Multiset.mem_coe, List.mem_flatMap]

theorem mem_refs_core (h : d.Scoped factors used) {x : Reduction} :
    x ∈ d.refs ↔ x ∈ d.core.refs ∨ ∃ b ∈ d.bindings, x ∈ b.2.core.refs :=
  h.mem_core_iff (fun _ _ hs => refs_node hs) fun _ _ _ => by rw [refs, refsAll_eq]

theorem count_pos_of_free (h : d.Scoped factors used) {x : Reduction} (hx : Free x d) :
    0 < d.count x.name := count_pos_of_mem_refs (h.mem_refs_of_free hx)

end Scoped

end Draft

namespace Extraction

open Draft

section

variable (entries : List (Reduction × Draft))

/-- How often a name is read in the value of an entry. -/
def readsIn (x : String) (j : Nat) : Nat := (entries[j]?).elim 0 fun e => e.2.count x

/-- How often a name is read in the values that have no place yet. -/
def rest (placed : List Nat) (x : String) : Nat :=
  ∑ j ∈ (Finset.range entries.length).filter (· ∉ placed), readsIn entries x j

variable (total : String → Nat) (ok : Reduction → Prop)

/-- The uses of the entries `bound` lie in a part of the region and in their own values, and all
else that these refer to is acceptable. -/
structure Sealed (bound : Finset Nat) (c : Draft) : Prop where
  total_le : ∀ k ∈ bound, ∀ e, entries[k]? = some e →
    total e.1.name ≤ c.count e.1.name + ∑ j ∈ bound, readsIn entries e.1.name j
  refs : ∀ x ∈ c.refs, ok x ∨ ∃ k ∈ bound, ∃ d, entries[k]? = some (x, d)
  values : ∀ j ∈ bound, ∀ e, entries[j]? = some e →
    ∀ x ∈ e.2.refs, ok x ∨ ∃ k ∈ bound, ∃ d, entries[k]? = some (x, d)

variable (factors : Index → List Index) (used : List String)

/-- A draft without lets of its region, in which all scopes are sealed against what they capture. -/
inductive Placeable : Draft → Prop where
  | node {shape : Shape} {children : List Draft} (inner : shape.IsInner ∨ children = [])
    (unbarred : ∀ g transpose, shape ≠ .recipe g transpose) (names : ∀ y ∈ shape.names, y ∈ used)
    (parts : ∀ d ∈ children, Placeable d)
    (covered : shape.isScope → ∀ (k : Nat) d, children[k]? = some d →
      ∃ bound ⊆ Finset.range entries.length,
        Sealed entries total (fun x => ¬ (shape.binder factors k).Captures factors x.sum) bound d) :
    Placeable (.node shape children)
  | recipe {g : IndexDeclaration} {transpose : Option (List Nat)} {children : List Draft}
    (isScoped : (Draft.node (.recipe g transpose) children).Scoped factors used)
    (apart : ∀ e ∈ entries, (Draft.node (.recipe g transpose) children).count e.1.name = 0) :
    Placeable (.node (.recipe g transpose) children)
  | ref {x : Reduction} (fresh : x.name ∉ used) (names : ∀ y ∈ x.sum.names, y ∈ used)
    (mem : ∃ k : Nat, ∃ d, entries[k]? = some (x, d)) : Placeable (.ref x)

/-- The entries of a region. -/
structure Stocked : Prop where
  nodup : (entries.map (·.1.name)).Nodup
  earlier : ∀ (k : Nat) e, entries[k]? = some e →
    ∀ x ∈ e.2.refs, ∃ j < k, ∃ d, entries[j]? = some (x, d)
  needed : ∀ e ∈ entries, 0 < total e.1.name
  fresh : ∀ e ∈ entries, e.1.name ∉ used
  placeable : ∀ e ∈ entries, Placeable entries total factors used e.2
  expand : ∀ e ∈ entries, e.2.expand = e.1.sum
  sealedBy : ∃ bound : Nat → Finset Nat, ∀ (k : Nat) e, entries[k]? = some e →
    bound k ⊆ Finset.range k ∧
      Sealed entries total (fun x => x.sum.ReadsWithin factors e.1.sum) (bound k) e.2
  ne_ref : ∀ e ∈ entries, ∀ x, e.2 ≠ .ref x

/-- The draft `d` is the draft `c` with the entries `here` bound in it, each where it has all of its
uses. -/
structure Placed (here : List Nat) (c d : Draft) : Prop where
  core : d.core = c
  isScoped : d.Scoped factors used
  bindings : (d.bindings.map fun b => (b.1, b.2.core)).Perm (here.filterMap (entries[·]?))
  full : ∀ k ∈ here, ∀ e, entries[k]? = some e → total e.1.name ≤ d.count e.1.name
  free : ∀ x, Free x d → ∃ k ∉ here, ∃ e, entries[k]? = some (x, e)

end

section

variable {entries : List (Reduction × Draft)} {total : String → Nat} {factors : Index → List Index}
  {used : List String}

theorem Stocked.eq_of_name (hs : Stocked entries total factors used) {j k : Nat}
    {e f : Reduction × Draft} (he : entries[j]? = some e) (hf : entries[k]? = some f)
    (h : e.1.name = f.1.name) : j = k ∧ e = f := by
  have hj : (entries.map (·.1.name))[j]? = some e.1.name := by rw [List.getElem?_map, he]; rfl
  have hk : (entries.map (·.1.name))[k]? = some f.1.name := by rw [List.getElem?_map, hf]; rfl
  obtain ⟨hlt, hj⟩ := List.getElem?_eq_some_iff.1 hj
  obtain ⟨hlt', hk⟩ := List.getElem?_eq_some_iff.1 hk
  obtain rfl : j = k := hs.nodup.getElem_inj_iff.1 (by rw [hj, hk, h])
  exact ⟨rfl, by simpa [he] using hf⟩

/-- A draft without lets of its region has a name in it just when it has a reference of the name. -/
theorem Placeable.exists_ref {c : Draft} (h : Placeable entries total factors used c)
    {e : Reduction × Draft} (he : e ∈ entries) (hfresh : e.1.name ∉ used)
    (hpos : 0 < c.count e.1.name) : ∃ y ∈ c.refs, y.name = e.1.name := by
  induction h with
  | @node shape children _ unbarred names _ _ ih =>
    have hne : shape ≠ .var e.1.name := by
      rintro rfl
      exact hfresh (names _ (by simp [Shape.names]))
    rw [count_node, if_neg hne, Nat.zero_add] at hpos
    obtain ⟨d, hd, hcount⟩ : ∃ d ∈ children, 0 < d.count e.1.name := by
      by_contra hno
      push Not at hno
      have : (children.map (count e.1.name)).sum = 0 :=
        List.sum_eq_zero (by simpa using fun d hd => Nat.le_zero.1 (hno d hd))
      omega
    obtain ⟨y, hy, hname⟩ := ih d hd hcount
    exact ⟨y, by rw [refs_node unbarred]; exact List.mem_flatMap.2 ⟨d, hd, hy⟩, hname⟩
  | recipe _ apart =>
    rw [apart e he] at hpos
    omega
  | @ref x _ _ _ =>
    rw [count_ref] at hpos
    exact ⟨x, by simp [refs], by by_contra hne; simp [hne] at hpos⟩

theorem Placeable.entry_of_mem_refs {c : Draft} (h : Placeable entries total factors used c)
    {x : Reduction} (hx : x ∈ c.refs) : ∃ (k : Nat) (d : Draft), entries[k]? = some (x, d) := by
  induction h with
  | node _ unbarred _ _ _ ih =>
    rw [refs_node unbarred] at hx
    obtain ⟨d, hd, hx⟩ := List.mem_flatMap.1 hx
    exact ih d hd hx
  | recipe _ _ => simp [refs] at hx
  | ref _ _ mem =>
    obtain rfl : x = _ := by simpa [refs] using hx
    exact mem

namespace Placed

variable {here : List Nat} {c d : Draft}

theorem sum_bindings (h : Placed entries total factors used here c d) {M : Type} [AddCommMonoid M]
    (f : Reduction × Draft → M) :
    (d.bindings.map fun b => f (b.1, b.2.core)).sum =
      (here.map fun k => (entries[k]?).elim 0 f).sum := by
  have hperm := (h.bindings.map f).sum_eq
  rw [List.map_map] at hperm
  refine hperm.trans ?_
  clear h hperm
  induction here with
  | nil => rfl
  | cons k here ih =>
    rw [List.filterMap_cons, List.map_cons, List.sum_cons, ← ih]
    cases entries[k]? <;> simp

theorem count_eq (h : Placed entries total factors used here c d) (x : String) :
    d.count x = c.count x + (here.map (readsIn entries x)).sum := by
  rw [h.isScoped.count_core, h.core]
  rw [h.sum_bindings fun e => e.2.count x]
  rfl

theorem mem_refs_iff (h : Placed entries total factors used here c d) {x : Reduction} :
    x ∈ d.refs ↔ x ∈ c.refs ∨ ∃ j ∈ here, ∃ e, entries[j]? = some e ∧ x ∈ e.2.refs := by
  rw [h.isScoped.mem_refs_core, h.core]
  refine or_congr_right ?_
  have hmem : ∀ e, (∃ b ∈ d.bindings, (b.1, b.2.core) = e) ↔ ∃ j ∈ here, entries[j]? = some e := by
    intro e
    rw [← List.mem_map, h.bindings.mem_iff, List.mem_filterMap]
  constructor
  · rintro ⟨b, hb, hx⟩
    obtain ⟨j, hj, he⟩ := (hmem _).1 ⟨b, hb, rfl⟩
    exact ⟨j, hj, _, he, hx⟩
  · rintro ⟨j, hj, e, he, hx⟩
    obtain ⟨b, hb, rfl⟩ := (hmem e).2 ⟨j, hj, he⟩
    exact ⟨b, hb, hx⟩

theorem exists_mem_refs (hs : Stocked entries total factors used)
    (hc : Placeable entries total factors used c) (h : Placed entries total factors used here c d)
    {k : Nat} {e : Reduction × Draft} (he : entries[k]? = some e) (hpos : 0 < d.count e.1.name) :
    e.1 ∈ d.refs := by
  have hmem : e ∈ entries := List.mem_of_getElem? he
  have hfresh := hs.fresh e hmem
  rw [h.count_eq] at hpos
  rcases Nat.eq_zero_or_pos (c.count e.1.name) with h0 | hcpos
  · obtain ⟨j, hj, hjpos⟩ : ∃ j ∈ here, 0 < readsIn entries e.1.name j := by
      by_contra hno
      push Not at hno
      have : (here.map (readsIn entries e.1.name)).sum = 0 :=
        List.sum_eq_zero (by simpa using fun j hj => Nat.le_zero.1 (hno j hj))
      omega
    cases hf : entries[j]? with
    | none => simp [readsIn, hf] at hjpos
    | some f =>
      simp only [readsIn, hf, Option.elim_some] at hjpos
      obtain ⟨y, hy, hname⟩ := (hs.placeable f (List.mem_of_getElem? hf)).exists_ref hmem hfresh hjpos
      obtain ⟨i, -, e', hi⟩ := hs.earlier j f hf y hy
      obtain ⟨-, rfl⟩ := hs.eq_of_name hi he hname
      exact h.mem_refs_iff.2 (.inr ⟨j, hj, f, hf, hy⟩)
  · obtain ⟨y, hy, hname⟩ := hc.exists_ref hmem hfresh hcpos
    obtain ⟨i, e', hi⟩ := hc.entry_of_mem_refs hy
    obtain ⟨-, rfl⟩ := hs.eq_of_name hi he hname
    exact h.mem_refs_iff.2 (.inl hy)

end Placed

/-! ### Sealed parts -/

/-- An entry is read in the values of later ones only. -/
theorem Stocked.lt_of_readsIn (hs : Stocked entries total factors used) {j k : Nat}
    {e : Reduction × Draft} (he : entries[k]? = some e) (hpos : 0 < readsIn entries e.1.name j) :
    k < j := by
  have hmem := List.mem_of_getElem? he
  cases hf : entries[j]? with
  | none => simp [readsIn, hf] at hpos
  | some f =>
    simp only [readsIn, hf, Option.elim_some] at hpos
    obtain ⟨y, hy, hname⟩ := (hs.placeable f (List.mem_of_getElem? hf)).exists_ref hmem
      (hs.fresh _ hmem) hpos
    obtain ⟨i, hij, e', hi⟩ := hs.earlier j f hf y hy
    obtain ⟨rfl, -⟩ := hs.eq_of_name hi he hname
    exact hij

/-- Whatever is sealed in a part of the draft is bound in it, if all that can be is. -/
theorem subset_of_total_le (hs : Stocked entries total factors used) {bound here : Finset Nat}
    (uses counts : String → Nat) (hbound : bound ⊆ Finset.range entries.length)
    (htotal : ∀ k ∈ bound, ∀ e, entries[k]? = some e →
      total e.1.name ≤ uses e.1.name + ∑ j ∈ bound, readsIn entries e.1.name j)
    (hcounts : ∀ x, ∀ s ⊆ bound, s ⊆ here → uses x + ∑ j ∈ s, readsIn entries x j ≤ counts x)
    (hsettled : ∀ (k : Nat) e, entries[k]? = some e → total e.1.name ≤ counts e.1.name → k ∈ here) :
    bound ⊆ here := by
  -- the last entries first: the value of an entry refers to earlier ones only
  have key : ∀ n k, n = entries.length - k → k ∈ bound → k ∈ here := by
    intro n
    induction n using Nat.strong_induction_on with
    | _ n ih =>
      rintro k rfl hk
      have hlt : k < entries.length := Finset.mem_range.1 (hbound hk)
      have he : entries[k]? = some entries[k] := List.getElem?_eq_getElem hlt
      refine hsettled k _ he ((htotal k hk _ he).trans ?_)
      have hlater : ∀ j ∈ bound, 0 < readsIn entries entries[k].1.name j → k < j :=
        fun j _ hpos => hs.lt_of_readsIn he hpos
      have hsum : ∑ j ∈ bound, readsIn entries entries[k].1.name j =
          ∑ j ∈ bound.filter (k < ·), readsIn entries entries[k].1.name j := by
        rw [Finset.sum_filter]
        refine Finset.sum_congr rfl fun j hj => ?_
        split
        · rfl
        · next hno => exact Nat.eq_zero_of_not_pos fun hpos => hno (hlater j hj hpos)
      rw [hsum]
      refine hcounts _ _ (Finset.filter_subset _ _) fun j hj => ?_
      obtain ⟨hj, hkj⟩ := Finset.mem_filter.1 hj
      have := Finset.mem_range.1 (hbound hj)
      exact ih _ (by omega) j rfl hj
  exact fun k hk => key _ k rfl hk

namespace Placed

variable {here : List Nat} {c d : Draft}

/-- What holds of all that a draft refers to, and carries over from an entry bound there to what its
value refers to, holds of all that is bound in the draft. -/
theorem induct_here (hs : Stocked entries total factors used)
    (hc : Placeable entries total factors used c) (h : Placed entries total factors used here c d)
    {P : Nat → Prop} (hrefs : ∀ (k : Nat) e, entries[k]? = some e → e.1 ∈ c.refs → P k)
    (hvalue : ∀ j ∈ here, P j → ∀ f, entries[j]? = some f →
      ∀ (k : Nat) e, entries[k]? = some e → e.1 ∈ f.2.refs → P k)
    {k : Nat} {e : Reduction × Draft} (he : entries[k]? = some e) (hk : k ∈ here) : P k := by
  -- the last entries first: an entry is referred to in the draft, or else in a later value
  have key : ∀ n k e, n = entries.length - k → entries[k]? = some e → k ∈ here → P k := by
    intro n
    induction n using Nat.strong_induction_on with
    | _ n ih =>
      rintro k e rfl he hk
      have hpos : 0 < d.count e.1.name :=
        (hs.needed e (List.mem_of_getElem? he)).trans_le (h.full k hk e he)
      rcases h.mem_refs_iff.1 (h.exists_mem_refs hs hc he hpos) with hmem | ⟨j, hj, f, hf, hmem⟩
      · exact hrefs k e he hmem
      · obtain ⟨i, hij, g, hg⟩ := hs.earlier j f hf e.1 hmem
        obtain ⟨rfl, -⟩ := hs.eq_of_name hg he rfl
        have hlt : j < entries.length := (List.getElem?_eq_some_iff.1 hf).1
        exact hvalue j hj (ih _ (by omega) j f rfl hf hj) f hf i e he hmem
  exact key _ k e rfl he hk

theorem count_eq_sum (h : Placed entries total factors used here c d) (hnodup : here.Nodup)
    (x : String) : d.count x = c.count x + ∑ j ∈ here.toFinset, readsIn entries x j := by
  rw [h.count_eq, List.sum_toFinset _ hnodup]

/-- What is sealed in the draft is bound in it, if all that can be is. -/
theorem bound_subset (hs : Stocked entries total factors used)
    (h : Placed entries total factors used here c d) (hnodup : here.Nodup)
    (hsettled : ∀ (k : Nat) e, entries[k]? = some e → total e.1.name ≤ d.count e.1.name → k ∈ here)
    {ok : Reduction → Prop} {bound : Finset Nat} (hbound : bound ⊆ Finset.range entries.length)
    (hseal : Sealed entries total ok bound c) : bound ⊆ here.toFinset := by
  refine subset_of_total_le hs (c.count ·) (d.count ·) hbound
    hseal.total_le (fun y s _ hs => ?_) fun k e he hle => List.mem_toFinset.2 (hsettled k e he hle)
  rw [h.count_eq_sum hnodup]
  exact Nat.add_le_add_left (Finset.sum_le_sum_of_subset hs) _

/-- What is sealed in a value bound in the draft is bound there as well. -/
theorem within_subset (hs : Stocked entries total factors used)
    (h : Placed entries total factors used here c d) (hnodup : here.Nodup)
    (hsettled : ∀ (k : Nat) e, entries[k]? = some e → total e.1.name ≤ d.count e.1.name → k ∈ here)
    {ok : Reduction → Prop} {within : Finset Nat} {j : Nat} (hj : j ∈ here) {e : Reduction × Draft}
    (he : entries[j]? = some e) (hwithin : within ⊆ Finset.range j)
    (hseal : Sealed entries total ok within e.2) : within ⊆ here.toFinset := by
  have hlt : j < entries.length := (List.getElem?_eq_some_iff.1 he).1
  refine subset_of_total_le hs (e.2.count ·) (d.count ·)
    (hwithin.trans (Finset.range_subset_range.2 hlt.le)) hseal.total_le (fun y s hs hs' => ?_)
    fun k e he hle => List.mem_toFinset.2 (hsettled k e he hle)
  have hnot : j ∉ s := fun hmem => by simpa using hwithin (hs hmem)
  have hval : e.2.count y = readsIn entries y j := by simp [readsIn, he]
  rw [h.count_eq_sum hnodup, hval, ← Finset.sum_insert hnot]
  refine le_trans (Finset.sum_le_sum_of_subset ?_) (Nat.le_add_left _ _)
  exact Finset.insert_subset (List.mem_toFinset.2 hj) hs'

end Placed

/-- The entries accounted for in a sealed part: those sealed in it, those sealed in an acceptable
value that is bound there, and the acceptable ones. -/
def Accounted (entries : List (Reduction × Draft)) (ok : Reduction → Prop) (here : List Nat)
    (bound : Finset Nat) (within : Nat → Finset Nat) (k : Nat) : Prop :=
  k ∈ bound ∨ (∃ j ∈ here, ∃ e, entries[j]? = some e ∧ ok e.1 ∧ k ∈ within j) ∨
    ∃ e, entries[k]? = some e ∧ ok e.1

/-- What the value of an entry accounted for refers to is acceptable, or is sealed somewhere and
accounted for. -/
theorem Accounted.refs {ok : Reduction → Prop} {here : List Nat} {bound : Finset Nat}
    {within : Nat → Finset Nat} {c : Draft} (hseal : Sealed entries total ok bound c)
    (hwithin : ∀ (k : Nat) e, entries[k]? = some e →
      Sealed entries total (fun x => x.sum.ReadsWithin factors e.1.sum) (within k) e.2)
    (hok : ∀ x y, ok y → x.sum.ReadsWithin factors y.sum → ok x) {j : Nat} (hj : j ∈ here)
    (hacc : Accounted entries ok here bound within j) {e : Reduction × Draft}
    (he : entries[j]? = some e) {y : Reduction} (hy : y ∈ e.2.refs) :
    ok y ∨ ∃ k d, entries[k]? = some (y, d) ∧ Accounted entries ok here bound within k ∧
      (k ∈ bound ∨ ∃ i ∈ here, ∃ f, entries[i]? = some f ∧ k ∈ within i) := by
  rcases hacc with hmem | ⟨i, hi, f, hf, hokf, hmem⟩ | ⟨f, hf, hoke⟩
  · refine (hseal.values j hmem e he y hy).imp_right ?_
    rintro ⟨k, hk, g, hg⟩
    exact ⟨k, g, hg, .inl hk, .inl hk⟩
  · rcases (hwithin i f hf).values j hmem e he y hy with hle | ⟨k, hk, g, hg⟩
    · exact .inl (hok y f.1 hokf hle)
    · exact .inr ⟨k, g, hg, .inr (.inl ⟨i, hi, f, hf, hokf, hk⟩), .inr ⟨i, hi, f, hf, hk⟩⟩
  · obtain rfl : f = e := by simpa [hf] using he
    rcases (hwithin j f hf).refs y hy with hle | ⟨k, hk, g, hg⟩
    · exact .inl (hok y f.1 hoke hle)
    · exact .inr ⟨k, g, hg, .inr (.inl ⟨j, hj, f, hf, hoke, hk⟩), .inr ⟨j, hj, f, hf, hk⟩⟩

/-- Once all that can be is bound in a sealed part of the region, what it still refers to freely is
acceptable. -/
theorem Placed.ok_of_free (hs : Stocked entries total factors used) {ok : Reduction → Prop}
    {here : List Nat} {c d : Draft} {bound : Finset Nat}
    (hc : Placeable entries total factors used c) (h : Placed entries total factors used here c d)
    (hnodup : here.Nodup) (hbound : bound ⊆ Finset.range entries.length)
    (hseal : Sealed entries total ok bound c)
    (hsettled : ∀ (k : Nat) e, entries[k]? = some e → total e.1.name ≤ d.count e.1.name → k ∈ here)
    (hok : ∀ x y, ok y → x.sum.ReadsWithin factors y.sum → ok x) {x : Reduction} (hx : Free x d) :
    ok x := by
  obtain ⟨within, hwithin⟩ := hs.sealedBy
  have hin : ∀ k, (k ∈ bound ∨ ∃ i ∈ here, ∃ f, entries[i]? = some f ∧ k ∈ within i) → k ∈ here := by
    rintro k (hk | ⟨i, hi, f, hf, hk⟩)
    · exact List.mem_toFinset.1 (h.bound_subset hs hnodup hsettled hbound hseal hk)
    · obtain ⟨hsub, hseali⟩ := hwithin i f hf
      exact List.mem_toFinset.1 (h.within_subset hs hnodup hsettled hi hf hsub hseali hk)
  have hsealed : ∀ (k : Nat) e, entries[k]? = some e →
      Sealed entries total (fun x => x.sum.ReadsWithin factors e.1.sum) (within k) e.2 :=
    fun k e he => (hwithin k e he).2
  have hacc : ∀ {k e}, entries[k]? = some e → k ∈ here → Accounted entries ok here bound within k := by
    refine h.induct_here hs hc (fun k e he hmem => ?_) fun j hj hacc f hf k e he hmem => ?_
    · rcases hseal.refs e.1 hmem with hoke | ⟨i, hi, g, hg⟩
      · exact .inr (.inr ⟨e, he, hoke⟩)
      · obtain ⟨rfl, -⟩ := hs.eq_of_name hg he rfl
        exact .inl hi
    · rcases hacc.refs hseal hsealed hok hj hf hmem with hoke | ⟨i, g, hg, ha, -⟩
      · exact .inr (.inr ⟨e, he, hoke⟩)
      · obtain ⟨rfl, -⟩ := hs.eq_of_name hg he rfl
        exact ha
  obtain ⟨k, hk, e, he⟩ := h.free x hx
  have hout : ∀ l g, entries[l]? = some (x, g) → l ∉ here := fun l g hg hl => by
    obtain ⟨rfl, -⟩ := hs.eq_of_name hg he rfl
    exact hk hl
  rcases h.mem_refs_iff.1 (h.isScoped.mem_refs_of_free hx) with hmem | ⟨j, hj, f, hf, hmem⟩
  · rcases hseal.refs x hmem with hokx | ⟨l, hl, g, hg⟩
    · exact hokx
    · exact absurd (hin l (.inl hl)) (hout l g hg)
  · rcases (hacc hf hj).refs hseal hsealed hok hj hf hmem with hokx | ⟨l, g, hg, -, hl⟩
    · exact hokx
    · exact absurd (hin l hl) (hout l g hg)

end

end Extraction

end TensorRecipe
