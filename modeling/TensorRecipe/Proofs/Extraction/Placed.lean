import TensorRecipe.Proofs.Extraction.Supply

/-!
# Building drafts with places

A node over drafts with places is one (`Placed.node`), and so is a let of the entries that have all
of their uses in the values and the body (`Placed.temps`).  The counts see to it that an entry bound
in one part has no uses in another.
-/

namespace TensorRecipe

namespace Extraction

open Draft

variable {entries : List (Reduction × Draft)} {total : String → Nat} {factors : Index → List Index}
  {used : List String}

theorem add_le_sum {α : Type} {f : α → Nat} {xs : List α} {x y : α} (hx : x ∈ xs) (hy : y ∈ xs)
    (hne : x ≠ y) : f x + f y ≤ (xs.map f).sum := by
  obtain ⟨s, t, rfl⟩ := List.append_of_mem hx
  have hy' : y ∈ s ++ t := by
    simpa [hne.symm] using hy
  have hle : f y ≤ ((s ++ t).map f).sum := List.single_le_sum (by simp) _ (List.mem_map_of_mem hy')
  simp only [List.map_append, List.map_cons, List.sum_append, List.sum_cons] at hle ⊢
  omega

theorem filterMap_getElem?_range {α : Type} (xs : List α) :
    (List.range xs.length).filterMap (xs[·]?) = xs := by
  induction xs with
  | nil => rfl
  | cons x xs ih =>
    rw [List.length_cons, List.range_succ_eq_map, List.filterMap_cons, List.filterMap_map]
    simpa using ih

namespace Placed

variable {here : List Nat} {c d : Draft}

theorem mem_here_of_mem_bindings (h : Placed entries total factors used here c d) {x : Reduction}
    (hx : x ∈ d.bindings.map Prod.fst) : ∃ k ∈ here, ∃ e, entries[k]? = some (x, e) := by
  obtain ⟨⟨y, v⟩, hmem, rfl⟩ := List.mem_map.1 hx
  have hmem' := h.bindings.subset (List.mem_map_of_mem hmem)
  obtain ⟨k, hk, he⟩ := List.mem_filterMap.1 hmem'
  exact ⟨k, hk, v.core, he⟩

theorem lt_of_mem_here (hs : Stocked entries total factors used)
    (hc : Placeable entries total factors used c) (h : Placed entries total factors used here c d)
    {n : Nat} (hn : ∀ x ∈ c.refs, ∃ j < n, ∃ e, entries[j]? = some (x, e)) {k : Nat}
    {e : Reduction × Draft} (he : entries[k]? = some e) (hk : k ∈ here) : k < n := by
  refine h.induct_here (P := (· < n)) hs hc (fun i f hf hmem => ?_)
    (fun j _ hlt f hf i g hg hmem => ?_) he hk
  · obtain ⟨i', hi, g, hg⟩ := hn _ hmem
    obtain ⟨rfl, -⟩ := hs.eq_of_name hg hf rfl
    exact hi
  · obtain ⟨i', hij, g', hg'⟩ := hs.earlier j f hf _ hmem
    obtain ⟨rfl, -⟩ := hs.eq_of_name hg' hg rfl
    exact hij.trans hlt

/-- Where all references are to earlier entries, they are once entries have been bound. -/
theorem refs_lt (hs : Stocked entries total factors used)
    (hc : Placeable entries total factors used c) (h : Placed entries total factors used here c d)
    {n : Nat} (hn : ∀ x ∈ c.refs, ∃ j < n, ∃ e, entries[j]? = some (x, e)) :
    ∀ x ∈ d.refs, ∃ j < n, ∃ e, entries[j]? = some (x, e) := by
  intro x hx
  rcases h.mem_refs_iff.1 hx with hmem | ⟨j, hj, f, hf, hmem⟩
  · exact hn x hmem
  · obtain ⟨i, hij, g, hg⟩ := hs.earlier j f hf x hmem
    exact ⟨i, hij.trans (h.lt_of_mem_here hs hc hn hf hj), g, hg⟩

/-- A use in a part, of an entry not bound there, is a free reference. -/
theorem free_of_count_pos (hs : Stocked entries total factors used)
    (hc : Placeable entries total factors used c) (h : Placed entries total factors used here c d)
    {k : Nat} {e : Reduction × Draft} (he : entries[k]? = some e) (hk : k ∉ here)
    (hpos : 0 < d.count e.1.name) : Free e.1 d := by
  refine (h.isScoped.free_or_mem_bindings (h.exists_mem_refs hs hc he hpos)).resolve_right
    fun hmem => ?_
  obtain ⟨j, hj, f, hf⟩ := h.mem_here_of_mem_bindings hmem
  obtain ⟨rfl, -⟩ := hs.eq_of_name hf he rfl
  exact hk hj

end Placed

/-! ### Nodes -/

/-- A part of a draft: the entries bound in it, and the draft with their lets. -/
structure Part where
  here : List Nat
  draft : Draft

/-- What a part refers to freely is bound in no other part, if there are not too many uses. -/
theorem notMem_of_free {parts : List Part}
    (hplaced : ∀ p ∈ parts, ∃ c, Placed entries total factors used p.here c p.draft)
    (hsum : ∀ e ∈ entries, (parts.map fun p => p.draft.count e.1.name).sum ≤ total e.1.name)
    {p : Part} (hp : p ∈ parts) {x : Reduction} (hx : Free x p.draft) :
    ∃ k ∉ parts.flatMap Part.here, ∃ e, entries[k]? = some (x, e) := by
  obtain ⟨c, hpc⟩ := hplaced p hp
  obtain ⟨k, hk, e, he⟩ := hpc.free x hx
  refine ⟨k, fun hmem => ?_, e, he⟩
  obtain ⟨q, hq, hkq⟩ := List.mem_flatMap.1 hmem
  have hne : p ≠ q := by
    rintro rfl
    exact hk hkq
  obtain ⟨c', hqc⟩ := hplaced q hq
  have hfull := hqc.full k hkq _ he
  have hpos := hpc.isScoped.count_pos_of_free hx
  have hle := add_le_sum (f := fun p : Part => p.draft.count x.name) hp hq hne
  have := hsum _ (List.mem_of_getElem? he)
  simp only at hfull hle this
  omega

theorem bindings_flatMap {cs : List Draft} {parts : List Part}
    (h : List.Forall₂ (fun c (p : Part) => Placed entries total factors used p.here c p.draft) cs
      parts) :
    ((parts.flatMap fun p => p.draft.bindings).map fun b => (b.1, b.2.core)).Perm
      ((parts.flatMap Part.here).filterMap (entries[·]?)) := by
  induction h with
  | nil => simp
  | cons hp _ ih =>
    rw [List.flatMap_cons, List.map_append, List.flatMap_cons, List.filterMap_append]
    exact hp.bindings.append ih

theorem map_core_eq {cs : List Draft} {parts : List Part}
    (h : List.Forall₂ (fun c (p : Part) => Placed entries total factors used p.here c p.draft) cs
      parts) : (parts.map Part.draft).map core = cs := by
  induction h with
  | nil => rfl
  | cons hp _ ih => rw [List.map_cons, List.map_cons, hp.core, ih]

theorem Placed.node {shape : Shape} {cs : List Draft} {parts : List Part}
    (inner : shape.IsInner ∨ cs = []) (unbarred : ∀ g transpose, shape ≠ .recipe g transpose)
    (names : ∀ y ∈ shape.names, y ∈ used)
    (hparts : List.Forall₂ (fun c (p : Part) => Placed entries total factors used p.here c p.draft)
      cs parts)
    (hfree : ∀ (k : Nat) p, parts[k]? = some p → ∀ x, Free x p.draft →
      ¬ (shape.binder factors k).Captures factors x.sum)
    (hsum : ∀ e ∈ entries, (parts.map fun p => p.draft.count e.1.name).sum ≤ total e.1.name) :
    Placed entries total factors used (parts.flatMap Part.here) (.node shape cs)
      (.node shape (parts.map Part.draft)) := by
  have hplaced : ∀ p ∈ parts, ∃ c, Placed entries total factors used p.here c p.draft :=
    fun p hp => by
      obtain ⟨c, -, hc⟩ := Arena.exists_of_mem_right hparts hp
      exact ⟨c, hc⟩
  refine ⟨?_, ?_, ?_, ?_, ?_⟩
  · rw [core_node unbarred, map_core_eq hparts]
  · refine .node (inner.imp_right ?_) names ?_ ?_ fun g transpose hs => absurd hs (unbarred g transpose)
    · rintro rfl
      cases hparts
      rfl
    · intro d hd
      obtain ⟨p, hp, rfl⟩ := List.mem_map.1 hd
      obtain ⟨c, hc⟩ := hplaced p hp
      exact hc.isScoped
    · intro k d hk x hx
      rw [List.getElem?_map, Option.map_eq_some_iff] at hk
      obtain ⟨p, hp, rfl⟩ := hk
      exact hfree k p hp x hx
  · rw [bindings_node unbarred, List.flatMap_map]
    exact bindings_flatMap hparts
  · intro k hk e he
    obtain ⟨p, hp, hkp⟩ := List.mem_flatMap.1 hk
    obtain ⟨c, hc⟩ := hplaced p hp
    have hle := le_sum (f := fun p : Part => p.draft.count e.1.name) hp
    have hfull := hc.full k hkp e he
    rw [count_node, List.map_map]
    refine hfull.trans (hle.trans (Nat.le_add_left _ _))
  · intro x hx
    obtain ⟨d, hd, hx⟩ := free_node_iff.1 hx
    obtain ⟨p, hp, rfl⟩ := List.mem_map.1 hd
    exact notMem_of_free hplaced hsum hp hx

/-! ### Lets -/

/-- A value with its place: its number, its entry, and the part that its draft makes. -/
structure Value where
  number : Nat
  entry : Reduction × Draft
  part : Part

/-- The values of a let, all of whose uses are among them and in the body. -/
structure Lets (entries : List (Reduction × Draft)) (total : String → Nat)
    (factors : Index → List Index) (used : List String) (values : List Value) (body : Part) :
    Prop where
  entry : ∀ v ∈ values, entries[v.number]? = some v.entry
  placed : ∀ v ∈ values, Placed entries total factors used v.part.here v.entry.2 v.part.draft
  sorted : values.Pairwise (·.number < ·.number)
  fits : ∀ e ∈ entries, (values.map fun v => v.part.draft.count e.1.name).sum +
    body.draft.count e.1.name ≤ total e.1.name
  full : ∀ v ∈ values, total v.entry.1.name ≤
    (values.map fun w => w.part.draft.count v.entry.1.name).sum + body.draft.count v.entry.1.name
  apart : ∀ v ∈ values, v.number ∉ body.here ∧ ∀ w ∈ values, v.number ∉ w.part.here

namespace Lets

variable {values : List Value} {body : Part} {c : Draft}

/-- The let that binds the values around the body. -/
def draft (values : List Value) (body : Part) : Draft :=
  .temps (values.map (·.entry.1)) (values.map (·.part.draft)) body.draft

/-- What is bound in the let. -/
def here (values : List Value) (body : Part) : List Nat :=
  values.map Value.number ++ (values.flatMap (·.part.here) ++ body.here)

theorem eq_of_name (hs : Stocked entries total factors used)
    (h : Lets entries total factors used values body) {k : Nat} {e : Reduction × Draft}
    (he : entries[k]? = some e)
    (hname : e.1.name ∈ (values.map (·.entry.1)).map Reduction.name) :
    ∃ v ∈ values, v.number = k ∧ v.entry = e := by
  rw [List.map_map] at hname
  obtain ⟨v, hv, heq⟩ := List.mem_map.1 hname
  obtain ⟨hk, he⟩ := hs.eq_of_name (h.entry v hv) he heq
  exact ⟨v, hv, hk, he⟩

theorem mem_take_of_lt (h : Lets entries total factors used values body) {k : Nat} {v w : Value}
    (hv : values[k]? = some v) (hw : w ∈ values) (hlt : w.number < v.number) :
    w.entry.1 ∈ (values.map (·.entry.1)).take k := by
  obtain ⟨j, hj⟩ := List.mem_iff_getElem?.1 hw
  obtain ⟨hjl, rfl⟩ := List.getElem?_eq_some_iff.1 hj
  obtain ⟨hkl, rfl⟩ := List.getElem?_eq_some_iff.1 hv
  have hjk : j < k := by
    by_contra hno
    rcases Nat.lt_or_ge k j with hkj | hjk
    · have := List.pairwise_iff_getElem.1 h.sorted k j hkl hjl hkj
      omega
    · obtain rfl : j = k := by omega
      omega
  rw [← List.map_take]
  refine List.mem_map_of_mem (List.mem_iff_getElem?.2 ⟨j, ?_⟩)
  rw [List.getElem?_take, if_pos hjk]
  exact hj

/-- What is bound in the let has a use in its body, or else in a later value. -/
theorem needed (hs : Stocked entries total factors used)
    (hc : Placeable entries total factors used c)
    (hbody : Placed entries total factors used body.here c body.draft)
    (h : Lets entries total factors used values body) {k : Nat} {v : Value}
    (hv : values[k]? = some v) : Free v.entry.1 body.draft ∨
      ∃ l w, k < l ∧ values[l]? = some w ∧ Free v.entry.1 w.part.draft := by
  have hmem := List.mem_of_getElem? hv
  have he := h.entry v hmem
  have hpos := hs.needed _ (List.mem_of_getElem? he)
  have hfull := h.full v hmem
  rcases Nat.eq_zero_or_pos (body.draft.count v.entry.1.name) with h0 | hb
  · obtain ⟨w, hw, hwpos⟩ : ∃ w ∈ values, 0 < w.part.draft.count v.entry.1.name := by
      by_contra hno
      push Not at hno
      have : (values.map fun w => w.part.draft.count v.entry.1.name).sum = 0 :=
        List.sum_eq_zero (by simpa using fun w hw => Nat.le_zero.1 (hno w hw))
      omega
    right
    have hew := h.entry w hw
    have hcw := hs.placeable _ (List.mem_of_getElem? hew)
    have hfree := (h.placed w hw).free_of_count_pos hs hcw he ((h.apart v hmem).2 w hw) hwpos
    obtain ⟨j, hj, g, hg⟩ := (h.placed w hw).refs_lt hs hcw (hs.earlier _ _ hew) _
      ((h.placed w hw).isScoped.mem_refs_of_free hfree)
    obtain ⟨rfl, -⟩ := hs.eq_of_name hg he rfl
    obtain ⟨l, hl⟩ := List.mem_iff_getElem?.1 hw
    refine ⟨l, w, ?_, hl, hfree⟩
    by_contra hno
    obtain ⟨hkl, rfl⟩ := List.getElem?_eq_some_iff.1 hv
    obtain ⟨hll, rfl⟩ := List.getElem?_eq_some_iff.1 hl
    rcases Nat.lt_or_ge l k with hlk | hkl'
    · have := List.pairwise_iff_getElem.1 h.sorted l k hll hkl hlk
      omega
    · obtain rfl : l = k := by omega
      omega
  · exact .inl (hbody.free_of_count_pos hs hc he (h.apart v hmem).1 hb)

theorem isScoped (hs : Stocked entries total factors used)
    (hc : Placeable entries total factors used c)
    (hbody : Placed entries total factors used body.here c body.draft)
    (h : Lets entries total factors used values body) :
    (draft values body).Scoped factors used := by
  have hnumber : ∀ v ∈ values, ∀ w ∈ values, v.entry.1.name = w.entry.1.name →
      v.number = w.number := fun v hv w hw heq =>
    (hs.eq_of_name (h.entry v hv) (h.entry w hw) heq).1
  have hoff : ∀ {p : Part} {c : Draft}, Placed entries total factors used p.here c p.draft →
      ∀ y, Free y p.draft → ∃ k, ∃ e, entries[k]? = some (y, e) := fun hp y hy => by
    obtain ⟨k, -, e, he⟩ := hp.free y hy
    exact ⟨k, e, he⟩
  refine .temps (by simp) ?_ ?_ ?_ hbody.isScoped ?_ ?_ ?_ ?_
  · rw [List.map_map]
    refine List.pairwise_map.2 (h.sorted.imp_of_mem fun {v w} hv hw hlt heq => ?_)
    have := hnumber v hv w hw heq
    omega
  · intro x hx
    obtain ⟨v, hv, rfl⟩ := List.mem_map.1 hx
    exact hs.fresh _ (List.mem_of_getElem? (h.entry v hv))
  · intro d hd
    obtain ⟨v, hv, rfl⟩ := List.mem_map.1 hd
    exact (h.placed v hv).isScoped
  · intro k x d hx hd
    rw [List.getElem?_map, Option.map_eq_some_iff] at hx hd
    obtain ⟨v, hv, rfl⟩ := hx
    obtain ⟨w, hw, rfl⟩ := hd
    obtain rfl : v = w := by simpa [hv] using hw
    have hmem := List.mem_of_getElem? hv
    rw [← expand_core, (h.placed v hmem).core]
    exact hs.expand _ (List.mem_of_getElem? (h.entry v hmem))
  · intro k d hd y hy
    rw [List.getElem?_map, Option.map_eq_some_iff] at hd
    obtain ⟨v, hv, rfl⟩ := hd
    have hmem := List.mem_of_getElem? hv
    have he := h.entry v hmem
    have hcv := hs.placeable _ (List.mem_of_getElem? he)
    obtain ⟨j, hj, e, hje⟩ := (h.placed v hmem).refs_lt hs hcv (hs.earlier _ _ he) y
      ((h.placed v hmem).isScoped.mem_refs_of_free hy)
    by_cases hname : y.name ∈ (values.map (·.entry.1)).map Reduction.name
    · obtain ⟨w, hw, rfl, hwe⟩ := h.eq_of_name hs hje hname
      left
      have := h.mem_take_of_lt hv hw hj
      rwa [hwe] at this
    · exact .inr hname
  · intro y hy
    obtain ⟨j, e, hje⟩ := hoff hbody y hy
    by_cases hname : y.name ∈ (values.map (·.entry.1)).map Reduction.name
    · obtain ⟨w, hw, -, hwe⟩ := h.eq_of_name hs hje hname
      exact .inl (List.mem_map.2 ⟨w, hw, by rw [hwe]⟩)
    · exact .inr hname
  · intro k x hx
    rw [List.getElem?_map, Option.map_eq_some_iff] at hx
    obtain ⟨v, hv, rfl⟩ := hx
    refine (h.needed hs hc hbody hv).imp_right ?_
    rintro ⟨l, w, hkl, hl, hfree⟩
    exact ⟨l, w.part.draft, hkl, by rw [List.getElem?_map, hl]; rfl, hfree⟩

/-- The parts of the let. -/
def parts (values : List Value) (body : Part) : List Part := body :: values.map Value.part

theorem sum_parts (x : String) : ((parts values body).map fun p => p.draft.count x).sum =
    (values.map fun v => v.part.draft.count x).sum + body.draft.count x := by
  rw [parts, List.map_cons, List.sum_cons, List.map_map, Nat.add_comm]
  rfl

theorem count_draft_eq_sum (x : String) :
    (draft values body).count x = ((parts values body).map fun p => p.draft.count x).sum := by
  rw [sum_parts, draft, count_temps, List.map_map]
  rfl

theorem mem_here_iff {k : Nat} : k ∈ here values body ↔
    k ∈ values.map Value.number ∨ k ∈ (parts values body).flatMap Part.here := by
  simp only [here, parts, List.flatMap_cons, List.flatMap_map, List.mem_append]
  rw [or_comm (a := k ∈ body.here)]

theorem placed_parts (hbody : Placed entries total factors used body.here c body.draft)
    (h : Lets entries total factors used values body) :
    ∀ p ∈ parts values body, ∃ c, Placed entries total factors used p.here c p.draft := by
  intro p hp
  rcases List.mem_cons.1 hp with rfl | hp
  · exact ⟨c, hbody⟩
  · obtain ⟨v, hv, rfl⟩ := List.mem_map.1 hp
    exact ⟨_, h.placed v hv⟩

theorem zip_eq (hentry : ∀ v ∈ values, entries[v.number]? = some v.entry)
    (hplaced : ∀ v ∈ values, Placed entries total factors used v.part.here v.entry.2 v.part.draft) :
    ((values.map (·.entry.1)).zip (values.map (·.part.draft))).map (fun b => (b.1, b.2.core)) =
      (values.map Value.number).filterMap (entries[·]?) := by
  induction values with
  | nil => rfl
  | cons v values ih =>
    rw [List.map_cons, List.map_cons, List.zip_cons_cons, List.map_cons, List.map_cons,
      List.filterMap_cons, hentry v (by simp)]
    simp only [(hplaced v (by simp)).core]
    rw [ih (fun w hw => hentry w (List.mem_cons_of_mem v hw)) fun w hw =>
      hplaced w (List.mem_cons_of_mem v hw)]

theorem bindings_draft (hbody : Placed entries total factors used body.here c body.draft)
    (h : Lets entries total factors used values body) :
    ((draft values body).bindings.map fun b => (b.1, b.2.core)).Perm
      ((here values body).filterMap (entries[·]?)) := by
  have hvalues : List.Forall₂
      (fun c (p : Part) => Placed entries total factors used p.here c p.draft)
      (values.map (·.entry.2)) (values.map Value.part) := by
    rw [List.forall₂_map_left_iff, List.forall₂_map_right_iff, List.forall₂_same]
    exact h.placed
  have hperm := bindings_flatMap hvalues
  rw [List.flatMap_map, List.flatMap_map] at hperm
  rw [draft, Draft.bindings, bindingsAll_eq, List.flatMap_map, List.map_append, List.map_append,
    zip_eq h.entry h.placed, here, List.filterMap_append, List.filterMap_append]
  exact (hperm.append hbody.bindings).append_left _

theorem notMem_here_of_free (hbody : Placed entries total factors used body.here c body.draft)
    (h : Lets entries total factors used values body) {x : Reduction} (hx : Free x (draft values body)) :
    ∃ k ∉ here values body, ∃ e, entries[k]? = some (x, e) := by
  obtain ⟨hxs, hx⟩ := free_temps_iff.1 hx
  obtain ⟨p, hp, hx⟩ : ∃ p ∈ parts values body, Free x p.draft := by
    rcases hx with ⟨d, hd, hx⟩ | hx
    · obtain ⟨v, hv, rfl⟩ := List.mem_map.1 hd
      exact ⟨v.part, List.mem_cons_of_mem _ (List.mem_map_of_mem hv), hx⟩
    · exact ⟨body, by simp [parts], hx⟩
  obtain ⟨k, hk, e, he⟩ := notMem_of_free (h.placed_parts hbody)
    (fun e he => (sum_parts e.1.name).trans_le (h.fits e he)) hp hx
  refine ⟨k, fun hmem => ?_, e, he⟩
  rcases mem_here_iff.1 hmem with hmem | hmem
  · obtain ⟨v, hv, rfl⟩ := List.mem_map.1 hmem
    have heq : v.entry = (x, e) := by simpa [h.entry v hv] using he
    exact hxs (List.mem_map.2 ⟨v, hv, by rw [heq]⟩)
  · exact hk hmem

end Lets

theorem Placed.temps (hs : Stocked entries total factors used) {values : List Value} {body : Part}
    {c : Draft} (hc : Placeable entries total factors used c)
    (hbody : Placed entries total factors used body.here c body.draft)
    (h : Lets entries total factors used values body) :
    Placed entries total factors used (Lets.here values body) c (Lets.draft values body) := by
  refine ⟨hbody.core, h.isScoped hs hc hbody, h.bindings_draft hbody, ?_,
    fun x hx => h.notMem_here_of_free hbody hx⟩
  intro k hk e he
  rw [Lets.count_draft_eq_sum]
  rcases Lets.mem_here_iff.1 hk with hk | hk
  · obtain ⟨v, hv, rfl⟩ := List.mem_map.1 hk
    obtain rfl : v.entry = e := by simpa [h.entry v hv] using he
    rw [Lets.sum_parts]
    exact h.full v hv
  · obtain ⟨p, hp, hkp⟩ := List.mem_flatMap.1 hk
    obtain ⟨c', hpc⟩ := h.placed_parts hbody p hp
    exact (hpc.full k hkp e he).trans (le_sum (f := fun p : Part => p.draft.count e.1.name) hp)

end Extraction

end TensorRecipe
