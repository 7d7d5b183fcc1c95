import TensorRecipe.Proofs.Extraction.Regions
import TensorRecipe.Proofs.Extraction.Soundness

/-!
# Regions whose lets are in their places

Say that a draft binds all the entries of a region already, each somewhere that is not captured.
Then the region may be placed anew: without its lets, every part of it is sealed by the entries that
are bound in the part (`Fragment.placeable`, `Closed.stocked`).  This holds where no name is bound
twice and none is free where it is bound (`Draft.Apart`), which every part inherits.
-/

namespace TensorRecipe

namespace Draft

/-- The drafts right below a draft. -/
def parts : Draft → List Draft
  | node _ children => children
  | ref _ => []
  | temps _ values body => values ++ [body]

theorem induct_parts {motive : Draft → Prop}
    (step : ∀ d, (∀ e ∈ d.parts, motive e) → motive d) : ∀ d, motive d := by
  intro d
  induction d using Draft.induct with
  | node shape children ih => exact step _ ih
  | ref x => exact step _ (by simp [parts])
  | temps xs values body ihv ihb =>
    refine step _ fun e he => ?_
    rcases List.mem_append.1 he with he | he
    · exact ihv e he
    · obtain rfl : e = body := by simpa using he
      exact ihb

/-- The sums that a draft binds right there. -/
def own : Draft → List Reduction
  | temps xs _ _ => xs
  | _ => []

/-- The sums that a draft binds right there, with their values. -/
def lets : Draft → List (Reduction × Draft)
  | temps xs values _ => xs.zip values
  | _ => []

theorem bound_eq (d : Draft) : d.bound = d.own ++ d.parts.flatMap bound := by
  cases d with
  | node shape children => rw [bound, boundAll_eq]; rfl
  | ref x => rfl
  | temps xs values body => simp [bound, boundAll_eq, own, parts]

theorem mem_own_of_mem_lets {d : Draft} {b : Reduction × Draft} (h : b ∈ d.lets) : b.1 ∈ d.own := by
  cases d with
  | temps xs values body => exact (List.of_mem_zip h).1
  | _ => simp [lets] at h

/-- What is bound in the region of a draft is bound right there or in a part of the region. -/
theorem mem_bindings_iff {d : Draft} {b : Reduction × Draft} :
    b ∈ d.bindings ↔ (∀ g transpose cs, d ≠ .node (.recipe g transpose) cs) ∧
      (b ∈ d.lets ∨ ∃ e ∈ d.parts, b ∈ e.bindings) := by
  cases d with
  | node shape children =>
    obtain ⟨g, transpose, rfl⟩ | hs := shape.recipe_or
    · simp [bindings]
    · rw [bindings_node hs, List.mem_flatMap]
      simp [lets, parts, hs]
  | ref x => simp [bindings, lets, parts]
  | temps xs values body =>
    simp [bindings, bindingsAll_eq, lets, parts, or_and_right, exists_or]

theorem mem_refs_of_part {d e : Draft} (hd : ∀ g transpose cs, d ≠ .node (.recipe g transpose) cs)
    (he : e ∈ d.parts) {x : Reduction} (hx : x ∈ e.refs) : x ∈ d.refs := by
  cases d with
  | node shape children =>
    rw [refs_node fun g transpose hs => hd g transpose children (by rw [hs])]
    exact List.mem_flatMap.2 ⟨e, he, hx⟩
  | ref y => simp [parts] at he
  | temps xs values body =>
    rw [refs, refsAll_eq, List.mem_append]
    rcases List.mem_append.1 he with he | he
    · exact .inl (List.mem_flatMap.2 ⟨e, he, hx⟩)
    · obtain rfl : e = body := by simpa using he
      exact .inr hx

/-- No name is bound twice, and none is free where it is bound. -/
structure Apart (d : Draft) : Prop where
  nodup : (d.bound.map Reduction.name).Nodup
  free : ∀ x, Free x d → x.name ∉ d.bound.map Reduction.name

theorem free_of_part {d e : Draft} (he : e ∈ d.parts) {x : Reduction} (hx : Free x e) :
    Free x d ∨ x ∈ d.own := by
  cases d with
  | node shape children => exact .inl (.node he hx)
  | ref y => simp [parts] at he
  | temps xs values body =>
    by_cases hmem : x ∈ xs
    · exact .inr hmem
    · rcases List.mem_append.1 he with he | he
      · exact .inl (.value hmem he hx)
      · obtain rfl : e = body := by simpa using he
        exact .inl (.body hmem hx)

namespace Apart

variable {d e : Draft}

theorem names_eq (d : Draft) : d.bound.map Reduction.name =
    d.own.map Reduction.name ++ d.parts.flatMap fun e => e.bound.map Reduction.name := by
  rw [bound_eq, List.map_append, List.map_flatMap]

theorem notMem_of_split (h : d.Apart) {before after : List Draft}
    (hparts : d.parts = before ++ e :: after) {x : String}
    (hx : x ∈ e.bound.map Reduction.name) : x ∉ d.own.map Reduction.name ∧
      ∀ f ∈ before ++ after, x ∉ f.bound.map Reduction.name := by
  have hnodup := h.nodup
  rw [names_eq, hparts, List.flatMap_append, List.flatMap_cons] at hnodup
  have hown := List.disjoint_of_nodup_append hnodup
  have hinner := hnodup.of_append_right
  have hbefore := List.disjoint_of_nodup_append hinner
  have hafter := List.disjoint_of_nodup_append hinner.of_append_right
  refine ⟨fun hmem => hown hmem ?_, fun f hf hmem => ?_⟩
  · exact List.mem_append_right _ (List.mem_append_left _ hx)
  · rcases List.mem_append.1 hf with hf | hf
    · exact hbefore (List.mem_flatMap.2 ⟨f, hf, hmem⟩) (List.mem_append_left _ hx)
    · exact hafter hx (List.mem_flatMap.2 ⟨f, hf, hmem⟩)

theorem part (h : d.Apart) (he : e ∈ d.parts) : e.Apart := by
  obtain ⟨before, after, hparts⟩ := List.append_of_mem he
  have hmem : ∀ x ∈ e.bound.map Reduction.name, x ∈ d.bound.map Reduction.name := fun x hx => by
    rw [names_eq]
    exact List.mem_append_right _ (List.mem_flatMap.2 ⟨e, he, hx⟩)
  refine ⟨?_, fun x hx hxe => ?_⟩
  · have hnodup := h.nodup
    rw [names_eq] at hnodup
    exact (List.nodup_flatMap.1 hnodup.of_append_right).1 e he
  · rcases free_of_part he hx with hfree | hown
    · exact h.free x hfree (hmem _ hxe)
    · exact (h.notMem_of_split hparts hxe).1 (List.mem_map_of_mem hown)

end Apart

namespace Scoped

variable {factors : Index → List Index} {used : List String} {d e : Draft}

theorem part (h : d.Scoped factors used) (he : e ∈ d.parts) : e.Scoped factors used := by
  cases h with
  | node _ _ parts _ _ => exact parts e he
  | ref _ _ => simp [Draft.parts] at he
  | temps _ _ _ parts last _ _ _ _ =>
    rcases List.mem_append.1 he with he | he
    · exact parts e he
    · obtain rfl : e = _ := by simpa using he
      exact last

theorem fresh_of_mem_bound (h : d.Scoped factors used) : ∀ x ∈ d.bound, x.name ∉ used := by
  induction d using induct_parts with
  | step d ih =>
    intro x hx
    rw [bound_eq] at hx
    rcases List.mem_append.1 hx with hx | hx
    · cases h with
      | temps _ _ fresh _ _ _ _ _ _ => exact fresh x hx
      | _ => simp [own] at hx
    · obtain ⟨e, he, hx⟩ := List.mem_flatMap.1 hx
      exact ih e he (h.part he) x hx

/-- A name that is not in use otherwise is read where it is free or bound only. -/
theorem free_or_mem_bound (h : d.Scoped factors used) {x : String} (hx : x ∉ used)
    (hpos : 0 < d.count x) :
    (∃ y, Free y d ∧ y.name = x) ∨ x ∈ d.bound.map Reduction.name := by
  have hsum : ∀ {ds : List Draft}, 0 < (ds.map (count x)).sum → ∃ e ∈ ds, 0 < e.count x := by
    intro ds hds
    by_contra hno
    push Not at hno
    have : (ds.map (count x)).sum = 0 :=
      List.sum_eq_zero (by simpa using fun e he => Nat.le_zero.1 (hno e he))
    omega
  induction h with
  | @node shape children _ names _ _ _ ih =>
    have hne : shape ≠ .var x := fun hs => hx (names x (by simp [hs, Shape.names]))
    rw [count_node, if_neg hne, Nat.zero_add] at hpos
    obtain ⟨e, he, hpos⟩ := hsum hpos
    rcases ih e he hpos with ⟨y, hy, hname⟩ | hmem
    · exact .inl ⟨y, .node he hy, hname⟩
    · rw [Apart.names_eq]
      exact .inr (List.mem_flatMap.2 ⟨e, he, hmem⟩)
  | @ref y _ _ =>
    rw [count_ref] at hpos
    exact .inl ⟨y, .ref, by by_contra hne; simp [hne] at hpos⟩
  | @temps xs values body _ _ _ _ _ _ _ _ _ ihv ihb =>
    have hpart : ∃ e ∈ (Draft.temps xs values body).parts,
        (∃ y, Free y e ∧ y.name = x) ∨ x ∈ e.bound.map Reduction.name := by
      rw [count_temps] at hpos
      rcases Nat.eq_zero_or_pos (body.count x) with h0 | hb
      · obtain ⟨e, he, hpos⟩ := hsum (by omega : 0 < (values.map (count x)).sum)
        exact ⟨e, List.mem_append_left _ he, ihv e he hpos⟩
      · exact ⟨body, by simp [Draft.parts], ihb hb⟩
    obtain ⟨e, he, ⟨y, hy, hname⟩ | hmem⟩ := hpart
    · refine (free_of_part he hy).imp (fun hfree => ⟨y, hfree, hname⟩) fun hown => ?_
      rw [Apart.names_eq, ← hname]
      exact List.mem_append_left _ (List.mem_map_of_mem hown)
    · rw [Apart.names_eq]
      exact .inr (List.mem_append_right _ (List.mem_flatMap.2 ⟨e, he, hmem⟩))

theorem mem_refs_of_mem_bindings (h : d.Scoped factors used) : ∀ b ∈ d.bindings, b.1 ∈ d.refs := by
  induction d using induct_parts with
  | step d ih =>
    intro b hb
    obtain ⟨hd, hb | ⟨e, he, hb⟩⟩ := mem_bindings_iff.1 hb
    · cases h with
      | @temps xs values body _ _ _ parts last _ _ _ needed =>
        obtain ⟨k, hk⟩ := List.mem_iff_getElem?.1 (List.of_mem_zip hb).1
        rcases needed k b.1 hk with hfree | ⟨l, e, -, hl, hfree⟩
        · exact mem_refs_of_part hd (by simp [Draft.parts]) (last.mem_refs_of_free hfree)
        · have he := List.mem_of_getElem? hl
          exact mem_refs_of_part hd (List.mem_append_left _ he)
            ((parts e he).mem_refs_of_free hfree)
      | _ => simp [lets] at hb
    · exact mem_refs_of_part hd he (ih e he (h.part he) b hb)

theorem expand_of_mem_bindings (h : d.Scoped factors used) :
    ∀ b ∈ d.bindings, b.2.expand = b.1.sum := by
  induction d using induct_parts with
  | step d ih =>
    intro b hb
    obtain ⟨hd, hb | ⟨e, he, hb⟩⟩ := mem_bindings_iff.1 hb
    · cases h with
      | temps _ _ _ _ _ sums _ _ _ =>
        obtain ⟨k, hk⟩ := List.mem_iff_getElem?.1 hb
        obtain ⟨hx, hv⟩ := List.getElem?_zip_eq_some.1 hk
        exact sums k b.1 b.2 hx hv
      | _ => simp [lets] at hb
    · exact ih e he (h.part he) b hb

end Scoped

/-- What is bound anywhere is bound in the region, or inside a recipe of it. -/
theorem Scoped.bound_core {factors : Index → List Index} {used : List String} {d : Draft}
    (h : d.Scoped factors used) : (d.bound : Multiset Reduction) =
      d.core.bound + (d.bindings.map fun b => {b.1} + (b.2.core.bound : Multiset Reduction)).sum := by
  refine h.sum_core (f := fun d => (d.bound : Multiset Reduction)) (g := fun _ => 0)
    (h := fun x => {x}) (fun shape children _ => ?_) fun xs values body _ => ?_
  · rw [bound, boundAll_eq, coe_flatMap, zero_add]
  · have hxs : (xs.map fun x => ({x} : Multiset Reduction)).sum = xs :=
      Multiset.sum_map_singleton (xs : Multiset Reduction)
    rw [bound, boundAll_eq, ← Multiset.coe_add, ← Multiset.coe_add, coe_flatMap, hxs, add_assoc]

theorem Apart.nodup_bindings {factors : Index → List Index} {used : List String} {d : Draft}
    (h : d.Apart) (hd : d.Scoped factors used) : (d.bindings.map (·.1.name)).Nodup := by
  have hle : ∀ bs : List (Reduction × Draft), ((bs.map Prod.fst : List Reduction) : Multiset _) ≤
      (bs.map fun b => {b.1} + (b.2.core.bound : Multiset Reduction)).sum := by
    intro bs
    induction bs with
    | nil => exact le_rfl
    | cons b bs ih =>
      rw [List.map_cons, List.map_cons, List.sum_cons, ← Multiset.cons_coe,
        ← Multiset.singleton_add]
      exact add_le_add (Multiset.le_add_right _ _) ih
  have hsub : ((d.bindings.map Prod.fst : List Reduction) : Multiset Reduction) ≤ d.bound := by
    rw [hd.bound_core]
    exact (hle _).trans (Multiset.le_add_left _ _)
  have hnodup : ((d.bindings.map Prod.fst).map Reduction.name).Nodup :=
    Multiset.coe_nodup.1
      (Multiset.nodup_of_le (Multiset.map_le_map hsub) (Multiset.coe_nodup.2 h.nodup))
  rwa [List.map_map] at hnodup

theorem mem_bound_of_mem_bindings (d : Draft) : ∀ b ∈ d.bindings, b.1 ∈ d.bound := by
  induction d using induct_parts with
  | step d ih =>
    intro b hb
    rw [bound_eq]
    obtain ⟨-, hb | ⟨e, he, hb⟩⟩ := mem_bindings_iff.1 hb
    · exact List.mem_append_left _ (mem_own_of_mem_lets hb)
    · exact List.mem_append_right _ (List.mem_flatMap.2 ⟨e, he, ih e he b hb⟩)

theorem exists_mem_lets {factors : Index → List Index} {used : List String} {d : Draft}
    (h : d.Scoped factors used) {x : Reduction} (hx : x ∈ d.own) : ∃ v, (x, v) ∈ d.lets := by
  cases h with
  | temps length _ _ _ _ _ _ _ _ =>
    rw [own, ← List.map_fst_zip length.le] at hx
    obtain ⟨b, hb, rfl⟩ := List.mem_map.1 hx
    exact ⟨b.2, hb⟩
  | _ => simp [own] at hx

theorem count_parts {factors : Index → List Index} {used : List String} {d e : Draft}
    (h : d.Scoped factors used) (he : e ∈ d.parts) {x : String} (hx : x ∉ used) :
    d.count x = (d.parts.map (count x)).sum := by
  cases h with
  | @node shape children _ names _ _ _ =>
    have hne : shape ≠ .var x := fun hs => hx (names x (by simp [hs, Shape.names]))
    rw [count_node, if_neg hne, Nat.zero_add]
    rfl
  | ref _ _ => simp [parts] at he
  | temps _ _ _ _ _ _ _ _ _ => simp [count_temps, parts]

end Draft

namespace Extraction

open Draft

/-- A part of a region that binds entries where all of their uses are. -/
structure Fragment (entries : List (Reduction × Draft)) (total : String → Nat)
    (factors : Index → List Index) (used : List String) (d : Draft) : Prop where
  isScoped : d.Scoped factors used
  apart : d.Apart
  entry : ∀ b ∈ d.bindings, (b.1, b.2.core) ∈ entries
  total_le : ∀ b ∈ d.bindings, total b.1.name ≤ d.count b.1.name
  entry_of_free : ∀ x, Free x d → ∃ c, (x, c) ∈ entries
  region : ∀ e ∈ entries, e.1.name ∈ d.bound.map Reduction.name →
    ∃ b ∈ d.bindings, b.1.name = e.1.name

namespace Fragment

variable {entries : List (Reduction × Draft)} {total : String → Nat} {factors : Index → List Index}
  {used : List String} {d e : Draft}

/-- What is bound in one part has no uses in the others. -/
theorem count_le (h : Fragment entries total factors used d) (he : e ∈ d.parts) {x : Reduction}
    (hx : x ∈ e.bound) : d.count x.name ≤ e.count x.name := by
  obtain ⟨before, after, hparts⟩ := List.append_of_mem he
  have hxe : x.name ∈ e.bound.map Reduction.name := List.mem_map_of_mem hx
  have hxd : x ∈ d.bound := by
    rw [bound_eq]
    exact List.mem_append_right _ (List.mem_flatMap.2 ⟨e, he, hx⟩)
  have hfresh := h.isScoped.fresh_of_mem_bound x hxd
  obtain ⟨hown, hothers⟩ := h.apart.notMem_of_split hparts hxe
  have hzero : ∀ f ∈ before ++ after, f.count x.name = 0 := by
    intro f hf
    have hfd : f ∈ d.parts := by
      rw [hparts]
      rcases List.mem_append.1 hf with hf | hf <;> simp [hf]
    by_contra hne
    rcases (h.isScoped.part hfd).free_or_mem_bound hfresh (Nat.pos_of_ne_zero hne) with
      ⟨y, hy, hname⟩ | hmem
    · rcases free_of_part hfd hy with hfree | hmem
      · exact h.apart.free y hfree (hname ▸ List.mem_map_of_mem hxd)
      · exact hown (hname ▸ List.mem_map_of_mem hmem)
    · exact hothers f hf hmem
  have hsum : ∀ {ds : List Draft}, (∀ f ∈ ds, f ∈ before ++ after) →
      (ds.map (count x.name)).sum = 0 := fun hds =>
    List.sum_eq_zero (by simpa using fun f hf => hzero f (hds f hf))
  rw [count_parts h.isScoped he hfresh, hparts, List.map_append, List.sum_append, List.map_cons,
    List.sum_cons, hsum fun f hf => List.mem_append_left _ hf,
    hsum fun f hf => List.mem_append_right _ hf]
  omega

theorem part (h : Fragment entries total factors used d)
    (hd : ∀ g transpose cs, d ≠ .node (.recipe g transpose) cs) (he : e ∈ d.parts) :
    Fragment entries total factors used e := by
  have hbindings : ∀ b ∈ e.bindings, b ∈ d.bindings := fun b hb =>
    mem_bindings_iff.2 ⟨hd, .inr ⟨e, he, hb⟩⟩
  refine ⟨h.isScoped.part he, h.apart.part he, fun b hb => h.entry b (hbindings b hb),
    fun b hb => ?_, fun x hx => ?_, fun f hf hmem => ?_⟩
  · exact (h.total_le b (hbindings b hb)).trans
      (h.count_le he (mem_bound_of_mem_bindings e b hb))
  · rcases free_of_part he hx with hfree | hown
    · exact h.entry_of_free x hfree
    · obtain ⟨v, hv⟩ := exists_mem_lets h.isScoped hown
      exact ⟨v.core, h.entry (x, v) (mem_bindings_iff.2 ⟨hd, .inl hv⟩)⟩
  · obtain ⟨before, after, hparts⟩ := List.append_of_mem he
    obtain ⟨hown, hothers⟩ := h.apart.notMem_of_split hparts hmem
    have hmem' : f.1.name ∈ d.bound.map Reduction.name := by
      rw [Apart.names_eq]
      exact List.mem_append_right _ (List.mem_flatMap.2 ⟨e, he, hmem⟩)
    obtain ⟨b, hb, hname⟩ := h.region f hf hmem'
    obtain ⟨-, hlet | ⟨e', he', hb⟩⟩ := mem_bindings_iff.1 hb
    · exact absurd (hname ▸ List.mem_map_of_mem (mem_own_of_mem_lets hlet)) hown
    · rw [hparts] at he'
      by_cases hee : e' ∈ before ++ after
      · exact absurd (hname ▸ List.mem_map_of_mem (mem_bound_of_mem_bindings e' b hb))
          (hothers e' hee)
      · obtain rfl : e' = e := by
          rcases List.mem_append.1 he' with he' | he'
          · exact absurd (List.mem_append_left _ he') hee
          · exact (List.mem_cons.1 he').resolve_right fun h => hee (List.mem_append_right _ h)
        exact ⟨b, hb, hname⟩

/-- The value of what is bound in a part is such a part as well. -/
theorem value (h : Fragment entries total factors used d) :
    ∀ b ∈ d.bindings, Fragment entries total factors used b.2 := by
  induction d using induct_parts with
  | step d ih =>
    intro b hb
    obtain ⟨hd, hb | ⟨e, he, hb⟩⟩ := mem_bindings_iff.1 hb
    · refine h.part hd ?_
      cases d with
      | temps xs values body => exact List.mem_append_left _ (List.of_mem_zip hb).2
      | _ => simp [lets] at hb
    · exact ih e he (h.part hd he) b hb

/-- Without its lets, a part of the region is sealed by the entries it binds. -/
theorem isSealed (h : Fragment entries total factors used d) {ok : Reduction → Prop} (hok : ∀ x, Free x d → ok x) :
    ∃ bound : Finset Nat, (∀ k ∈ bound, ∃ b ∈ d.bindings, entries[k]? = some (b.1, b.2.core)) ∧
      Sealed entries total ok bound d.core := by
  have hindex : ∀ b ∈ d.bindings, ∃ k : Nat, entries[k]? = some (b.1, b.2.core) := fun b hb =>
    List.mem_iff_getElem?.1 (h.entry b hb)
  choose! index hindex using hindex
  have hnodup : (d.bindings.map index).Nodup := by
    have hbindings := h.apart.nodup_bindings h.isScoped
    refine (List.Nodup.of_map _ hbindings).map_on fun b hb c hc heq => ?_
    have hbc : (b.1, b.2.core) = (c.1, c.2.core) := by
      rw [← Option.some_inj, ← hindex b hb, ← hindex c hc, heq]
    exact List.inj_on_of_nodup_map hbindings hb hc (congrArg (·.1.name) hbc)
  have hreads : ∀ x, ((d.bindings.map index).map (readsIn entries x)).sum =
      (d.bindings.map fun b => b.2.core.count x).sum := by
    intro x
    rw [List.map_map]
    refine congrArg List.sum (List.map_congr_left fun b hb => ?_)
    simp [readsIn, hindex b hb]
  have hfound : ∀ x ∈ d.refs, ok x ∨
      ∃ k ∈ (d.bindings.map index).toFinset, ∃ c, entries[k]? = some (x, c) := by
    intro x hx
    refine (h.isScoped.free_or_mem_bindings hx).imp (hok x) fun hmem => ?_
    obtain ⟨b, hb, rfl⟩ := List.mem_map.1 hmem
    exact ⟨index b, List.mem_toFinset.2 (List.mem_map_of_mem hb), _, hindex b hb⟩
  have hmem : ∀ k ∈ (d.bindings.map index).toFinset, ∃ b ∈ d.bindings,
      entries[k]? = some (b.1, b.2.core) := by
    intro k hk
    obtain ⟨b, hb, rfl⟩ := List.mem_map.1 (List.mem_toFinset.1 hk)
    exact ⟨b, hb, hindex b hb⟩
  refine ⟨(d.bindings.map index).toFinset, hmem, ?_, ?_, ?_⟩
  · intro k hk e he
    obtain ⟨b, hb, hkb⟩ := hmem k hk
    obtain rfl : (b.1, b.2.core) = e := by simpa [hkb] using he
    rw [List.sum_toFinset _ hnodup, hreads, ← h.isScoped.count_core]
    exact h.total_le b hb
  · exact fun x hx => hfound x (h.isScoped.mem_refs_core.2 (.inl hx))
  · intro j hj e he x hx
    obtain ⟨b, hb, hkb⟩ := hmem j hj
    obtain rfl : (b.1, b.2.core) = e := by simpa [hkb] using he
    exact hfound x (h.isScoped.mem_refs_core.2 (.inr ⟨b, hb, hx⟩))

/-- A part of the region may be placed anew. -/
theorem placeable (h : Fragment entries total factors used d)
    (hfresh : ∀ e ∈ entries, e.1.name ∉ used) :
    Placeable entries total factors used d.core := by
  induction d using Draft.induct with
  | node shape children ih =>
    obtain ⟨g, transpose, rfl⟩ | hs := shape.recipe_or
    · refine .recipe h.isScoped fun e he => ?_
      by_contra hne
      rcases h.isScoped.free_or_mem_bound (hfresh e he) (Nat.pos_of_ne_zero hne) with
        ⟨y, hy, -⟩ | hmem
      · obtain ⟨d, hd, hy⟩ := free_node_iff.1 hy
        cases h.isScoped with | node _ _ _ _ closed => exact closed g transpose rfl d hd y hy
      · obtain ⟨b, hb, -⟩ := h.region e he hmem
        simp [bindings] at hb
    · have hd : ∀ g transpose cs, Draft.node shape children ≠ .node (.recipe g transpose) cs :=
        fun g transpose cs heq => hs g transpose (by cases heq; rfl)
      obtain ⟨inner, names, free⟩ : (shape.IsInner ∨ children = []) ∧
          (∀ y ∈ shape.names, y ∈ used) ∧ ∀ (k : Nat) d, children[k]? = some d → ∀ x, Free x d →
            ¬ (shape.binder factors k).Captures factors x.sum := by
        cases h.isScoped with | node inner names _ free _ => exact ⟨inner, names, free⟩
      rw [core_node hs]
      refine .node (inner.imp_right (by rintro rfl; rfl)) hs names ?_ fun _ k c hk => ?_
      · intro c hc
        obtain ⟨e, he, rfl⟩ := List.mem_map.1 hc
        exact ih e he (h.part hd he)
      · obtain ⟨e, he, rfl⟩ := getElem?_map_eq.1 hk
        obtain ⟨bound, hbound, hseal⟩ :=
          (h.part hd (List.mem_of_getElem? he)).isSealed (free k e he)
        refine ⟨bound, fun j hj => ?_, hseal⟩
        obtain ⟨b, -, hb⟩ := hbound j hj
        exact Finset.mem_range.2 (List.getElem?_eq_some_iff.1 hb).1
  | ref x =>
    obtain ⟨fresh, names⟩ : x.name ∉ used ∧ ∀ y ∈ x.sum.names, y ∈ used := by
      cases h.isScoped with | ref fresh names => exact ⟨fresh, names⟩
    obtain ⟨c, hc⟩ := h.entry_of_free x .ref
    obtain ⟨k, hk⟩ := List.mem_iff_getElem?.1 hc
    exact .ref fresh names ⟨k, c, hk⟩
  | temps xs values body ihv ihb =>
    exact ihb (h.part (by simp) (by simp [parts]))

end Fragment

/-! ### Closed drafts -/

/-- The entries are what a closed draft binds, in an order in which each refers to earlier ones
only. -/
structure Closed (bindings : List (Reduction × Draft)) (factors : Index → List Index)
    (used : List String) (d : Draft) : Prop where
  isScoped : d.Scoped factors used
  apart : d.Apart
  closed : ∀ x, ¬ Free x d
  perm : d.bindings.Perm bindings
  earlier : ∀ (k : Nat) b, bindings[k]? = some b → ∀ x ∈ b.2.refs, ∃ j < k, ∃ v,
    bindings[j]? = some (x, v)
  ne_ref : ∀ b ∈ bindings, ∀ x, b.2.core ≠ .ref x

/-- The entries of a region, without the lets in their values. -/
def cores (bindings : List (Reduction × Draft)) : List (Reduction × Draft) :=
  bindings.map fun b => (b.1, b.2.core)

namespace Closed

variable {bindings : List (Reduction × Draft)} {factors : Index → List Index} {used : List String}
  {d : Draft}

theorem usesOf_eq (h : Closed bindings factors used d) (x : String) :
    usesOf (cores bindings) d.core x = d.count x := by
  rw [usesOf, sum_readsIn, h.isScoped.count_core, cores, List.map_map]
  exact congrArg _ (h.perm.symm.map _).sum_eq

theorem fragment (h : Closed bindings factors used d) :
    Fragment (cores bindings) (usesOf (cores bindings) d.core) factors used d := by
  refine ⟨h.isScoped, h.apart, fun b hb => ?_, fun b _ => (h.usesOf_eq _).le,
    fun x hx => absurd hx (h.closed x), fun e he _ => ?_⟩
  · exact List.mem_map.2 ⟨b, h.perm.subset hb, rfl⟩
  · obtain ⟨b, hb, rfl⟩ := List.mem_map.1 he
    exact ⟨b, h.perm.symm.subset hb, rfl⟩

theorem getElem?_cores {k : Nat} {e : Reduction × Draft} (he : (cores bindings)[k]? = some e) :
    ∃ v, bindings[k]? = some (e.1, v) ∧ e.2 = v.core := by
  obtain ⟨b, hb, rfl⟩ := getElem?_map_eq.1 he
  exact ⟨b.2, hb, rfl⟩

theorem nodup (h : Closed bindings factors used d) : (bindings.map (·.1.name)).Nodup :=
  (h.perm.map _).nodup_iff.1 (h.apart.nodup_bindings h.isScoped)

theorem fresh (h : Closed bindings factors used d) : ∀ e ∈ cores bindings, e.1.name ∉ used := by
  intro e he
  obtain ⟨b, hb, rfl⟩ := List.mem_map.1 he
  exact h.isScoped.fresh_of_mem_bound _ (mem_bound_of_mem_bindings d b (h.perm.symm.subset hb))

/-- The region may be placed anew. -/
theorem placeable (h : Closed bindings factors used d) :
    Placeable (cores bindings) (usesOf (cores bindings) d.core) factors used d.core :=
  h.fragment.placeable h.fresh

theorem lt_of_mem_bindings (h : Closed bindings factors used d) {k : Nat} {b c : Reduction × Draft}
    (hb : bindings[k]? = some b) (hc : c ∈ b.2.bindings) {j : Nat} {v : Draft}
    (hj : bindings[j]? = some (c.1, v)) : j < k := by
  have hval := h.fragment.value b (h.perm.symm.subset (List.mem_of_getElem? hb))
  obtain ⟨i, hi, u, hu⟩ := h.earlier k b hb c.1 (hval.isScoped.mem_refs_of_mem_bindings c hc)
  have hname : ∀ {m : Nat} {w : Draft}, bindings[m]? = some (c.1, w) →
      (bindings.map (·.1.name))[m]? = some c.1.name := fun hm => by
    rw [List.getElem?_map, hm]
    rfl
  obtain ⟨hlt, hje⟩ := List.getElem?_eq_some_iff.1 (hname hj)
  obtain ⟨hlt', hie⟩ := List.getElem?_eq_some_iff.1 (hname hu)
  obtain rfl : j = i := h.nodup.getElem_inj_iff.1 (hje.trans hie.symm)
  exact hi

theorem stocked (h : Closed bindings factors used d) :
    Stocked (cores bindings) (usesOf (cores bindings) d.core) factors used := by
  have hvalue : ∀ b ∈ bindings, Fragment (cores bindings) (usesOf (cores bindings) d.core) factors
      used b.2 := fun b hb => h.fragment.value b (h.perm.symm.subset hb)
  refine ⟨?_, ?_, ?_, h.fresh, ?_, ?_, ?_, ?_⟩
  · rw [cores, List.map_map]
    exact h.nodup
  · intro k e he x hx
    obtain ⟨v, hv, hcore⟩ := getElem?_cores he
    have hscoped := (hvalue _ (List.mem_of_getElem? hv)).isScoped
    obtain ⟨j, hj, u, hu⟩ := h.earlier k _ hv x (hscoped.mem_refs_core.2 (.inl (hcore ▸ hx)))
    exact ⟨j, hj, u.core, getElem?_map_eq.2 ⟨_, hu, rfl⟩⟩
  · intro e he
    obtain ⟨b, hb, rfl⟩ := List.mem_map.1 he
    rw [h.usesOf_eq]
    exact count_pos_of_mem_refs
      (h.isScoped.mem_refs_of_mem_bindings b (h.perm.symm.subset hb))
  · intro e he
    obtain ⟨b, hb, rfl⟩ := List.mem_map.1 he
    exact (hvalue b hb).placeable h.fresh
  · intro e he
    obtain ⟨b, hb, rfl⟩ := List.mem_map.1 he
    rw [expand_core]
    exact h.isScoped.expand_of_mem_bindings b (h.perm.symm.subset hb)
  · have hbound : ∀ k, ∃ bound : Finset Nat, ∀ e, (cores bindings)[k]? = some e →
        bound ⊆ Finset.range k ∧ Sealed (cores bindings) (usesOf (cores bindings) d.core)
          (fun x => x.sum.ReadsWithin factors e.1.sum) bound e.2 := by
      intro k
      cases hk : (cores bindings)[k]? with
      | none => exact ⟨∅, by simp⟩
      | some e =>
        obtain ⟨v, hv, hcore⟩ := getElem?_cores hk
        have hmem := List.mem_of_getElem? hv
        have hfrag := hvalue _ hmem
        have hsum := h.isScoped.expand_of_mem_bindings _ (h.perm.symm.subset hmem)
        have hreads : ∀ x, Free x v → x.sum.ReadsWithin factors e.1.sum := fun x hx => by
          rw [← hsum]
          exact hfrag.isScoped.readsWithin_of_free hx
        obtain ⟨bound, hbound, hseal⟩ := hfrag.isSealed hreads
        refine ⟨bound, fun f hf => ?_⟩
        obtain rfl : e = f := by simpa using hf
        refine ⟨fun j hj => Finset.mem_range.2 ?_, hcore ▸ hseal⟩
        obtain ⟨c, hc, hjc⟩ := hbound j hj
        obtain ⟨u, hu, -⟩ := getElem?_cores hjc
        exact h.lt_of_mem_bindings hv hc hu
    choose bound hbound using hbound
    exact ⟨bound, fun k e he => hbound k e he⟩
  · intro e he
    obtain ⟨b, hb, rfl⟩ := List.mem_map.1 he
    exact h.ne_ref b hb

end Closed

end Extraction

end TensorRecipe
