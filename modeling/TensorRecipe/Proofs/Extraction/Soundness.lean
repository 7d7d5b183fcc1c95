import TensorRecipe.Proofs.Extraction.Draft

/-!
# The two readings of a draft

A scoped draft without free references reads and means the same as the tree it comes from
(`reads_toTree_iff`, `denote_toTree`).  With free references, the tree that the draft is reads
their names where the other reads what their sums read.
-/

namespace TensorRecipe

namespace Draft

variable {factors : Index → List Index} {used : List String}

/-! ### Leaves -/

theorem reads_index_or_var {shape : Shape} (h : ¬ shape.IsInner) {ts us : List Tree} {β : Binder}
    {leaf : Leaf} :
    (Tree.node shape ts).Reads factors β leaf ↔ (Tree.node shape us).Reads factors β leaf := by
  rcases shape.isInner_or with hs | ⟨i, rfl⟩ | ⟨x, rfl⟩
  · exact absurd hs h
  · exact Iff.rfl
  · exact Iff.rfl

theorem getElem?_map_eq {α β : Type*} {f : α → β} {xs : List α} {k : Nat} {y : β} :
    (xs.map f)[k]? = some y ↔ ∃ x, xs[k]? = some x ∧ f x = y := by
  rw [List.getElem?_map, Option.map_eq_some_iff]

theorem reads_letIn {names : List String} {ts : List Tree} {b : Tree} {β : Binder} {leaf : Leaf} :
    (Tree.node (.letIn names) (ts ++ [b])).Reads factors β leaf ↔
      (∃ (k : Nat) (t : Tree), ts[k]? = some t ∧
        t.Reads factors (⟨[], names.take k⟩ ++ β) leaf) ∨
      b.Reads factors (⟨[], names.take ts.length⟩ ++ β) leaf := by
  have hbinder : ∀ k, (Shape.letIn names).binder factors k = ⟨[], names.take k⟩ := fun _ => rfl
  rw [Tree.reads_node (by simp [Shape.IsInner])]
  simp only [hbinder]
  constructor
  · rintro ⟨k, t, hk, hr⟩
    rcases Nat.lt_or_ge k ts.length with hlt | hge
    · exact .inl ⟨k, t, by rwa [List.getElem?_append_left hlt] at hk, hr⟩
    · rw [List.getElem?_append_right hge, List.getElem?_singleton] at hk
      split at hk
      · next h0 =>
        obtain rfl : b = t := by simpa using hk
        obtain rfl : k = ts.length := by omega
        exact .inr hr
      · simp at hk
  · rintro (⟨k, t, hk, hr⟩ | hr)
    · exact ⟨k, t, by
        rw [List.getElem?_append_left (List.getElem?_eq_some_iff.1 hk).1]
        exact hk, hr⟩
    · exact ⟨ts.length, b, by simp, hr⟩

section

variable {β : Binder} {leaf : Leaf}

/-- The references to a bound sum lie in the body or in a later value, whose sum is bound as well;
so what carries over from sums to trees that refer to them carries over to the body. -/
theorem body_of_value {R : Tree → Prop} {xs : List Reduction} {values : List Draft} {body : Draft}
    (hlength : xs.length = values.length)
    (hexpand : ∀ (k : Nat) x d, xs[k]? = some x → values[k]? = some d → d.expand = x.sum)
    (hneeded : ∀ (k : Nat) x, xs[k]? = some x →
      Free x body ∨ ∃ (l : Nat) (d : Draft), k < l ∧ values[l]? = some d ∧ Free x d)
    (hvalues : ∀ d ∈ values, ∀ x, Free x d → R x.sum → R d.expand)
    (hbody : ∀ x, Free x body → R x.sum → R body.expand) {d : Draft} (hd : d ∈ values)
    (hr : R d.expand) : R body.expand := by
  obtain ⟨k, hk⟩ := List.mem_iff_getElem?.1 hd
  have hlt : k < xs.length := hlength ▸ (List.getElem?_eq_some_iff.1 hk).1
  have hxk : xs[k]? = some xs[k] := List.getElem?_eq_getElem hlt
  -- by induction on how many values come later
  induction hn : xs.length - k using Nat.strong_induction_on generalizing k d with
  | _ n ih =>
    rw [hexpand k _ d hxk hk] at hr
    rcases hneeded k _ hxk with hfree | ⟨l, e, hkl, hl, hfree⟩
    · exact hbody _ hfree hr
    · have hll : l < xs.length := hlength ▸ (List.getElem?_eq_some_iff.1 hl).1
      have he := List.mem_of_getElem? hl
      exact ih (xs.length - l) (by omega) he (hvalues e he _ hfree hr) l hl hll
        (List.getElem?_eq_getElem hll) rfl

/-- What the sum of a free reference reads, the tree that the draft comes from reads. -/
theorem Scoped.reads_expand_of_free {d : Draft} (h : d.Scoped factors used) {x : Reduction}
    (hx : Free x d) (hr : x.sum.Reads factors β leaf) : d.expand.Reads factors β leaf := by
  induction h generalizing x β with
  | @node shape children inner names parts free closed ih =>
    obtain ⟨d, hd, hx⟩ := free_node_iff.1 hx
    have hs : shape.IsInner := inner.resolve_right (List.ne_nil_of_mem hd)
    obtain ⟨k, hk⟩ := List.mem_iff_getElem?.1 hd
    rw [expand, expandAll_eq, Tree.reads_node hs]
    refine ⟨k, d.expand, getElem?_map_eq.2 ⟨d, hk, rfl⟩, ih d hd hx ?_⟩
    exact (Tree.reads_append (free k d hk x hx)).2 hr
  | ref _ _ =>
    obtain rfl := free_ref_iff.1 hx
    exact hr
  | @temps xs values body length nodup fresh parts last sums earlier apart needed ihv ihb =>
    obtain ⟨-, ⟨d, hd, hx⟩ | hx⟩ := free_temps_iff.1 hx
    · rw [Draft.expand]
      exact body_of_value (R := (·.Reads factors β leaf)) length sums needed
        (fun d hd x hx hr => ihv d hd hx hr) (fun x hx hr => ihb hx hr) hd (ihv d hd hx hr)
    · exact ihb hx hr

/-- The sum of a free reference reads no more than the tree that the draft comes from. -/
theorem Scoped.readsWithin_of_free {d : Draft} (h : d.Scoped factors used) {x : Reduction}
    (hx : Free x d) : x.sum.ReadsWithin factors d.expand := by
  induction h generalizing x with
  | @node shape children inner names parts free closed ih =>
    obtain ⟨d, hd, hx⟩ := free_node_iff.1 hx
    have hs : shape.IsInner := inner.resolve_right (List.ne_nil_of_mem hd)
    obtain ⟨k, hk⟩ := List.mem_iff_getElem?.1 hd
    rw [expand, expandAll_eq]
    exact (ih d hd hx).node hs (getElem?_map_eq.2 ⟨d, hk, rfl⟩) (free k d hk x hx)
  | ref _ _ =>
    obtain rfl := free_ref_iff.1 hx
    exact .refl _
  | @temps xs values body length nodup fresh parts last sums earlier apart needed ihv ihb =>
    obtain ⟨-, ⟨d, hd, hx⟩ | hx⟩ := free_temps_iff.1 hx
    · rw [Draft.expand]
      exact body_of_value (R := (x.sum.ReadsWithin factors ·)) length sums needed
        (fun d hd y hy hr => hr.trans (ihv d hd hy)) (fun y hy hr => hr.trans (ihb hy)) hd
        (ihv d hd hx)
    · exact ihb hx

/-- The tree that a draft is reads the names of free references, and what the other reads. -/
theorem Scoped.reads_expand {d : Draft} (h : d.Scoped factors used)
    (hr : d.toTree.Reads factors β leaf) :
    (∃ x, Free x d ∧ leaf = .name x.name) ∨ d.expand.Reads factors β leaf := by
  induction h generalizing β with
  | @node shape children inner names parts free closed ih =>
    by_cases hs : shape.IsInner
    · rw [toTree, toTrees_eq, Tree.reads_node hs] at hr
      obtain ⟨k, t, ht, hr⟩ := hr
      obtain ⟨d, hk, rfl⟩ := getElem?_map_eq.1 ht
      have hd : d ∈ children := List.mem_of_getElem? hk
      rcases ih d hd hr with ⟨x, hx, hleaf⟩ | hr
      · exact .inl ⟨x, .node hd hx, hleaf⟩
      · right
        rw [expand, expandAll_eq, Tree.reads_node hs]
        exact ⟨k, d.expand, getElem?_map_eq.2 ⟨d, hk, rfl⟩, hr⟩
    · exact .inr ((reads_index_or_var hs).1 hr)
  | @ref x fresh names =>
    obtain ⟨hleaf, -⟩ := Tree.reads_var.1 hr
    exact .inl ⟨x, .ref, hleaf⟩
  | @temps xs values body length nodup fresh parts last sums earlier apart needed ihv ihb =>
    have hnames : ∀ {k : Nat} {y : Reduction}, y ∈ xs.take k →
        y.name ∈ (xs.map Reduction.name).take k := by
      intro k y hy
      rw [← List.map_take]
      exact List.mem_map_of_mem hy
    have hoff : ∀ {y : Reduction}, y.name ∉ xs.map Reduction.name → y ∉ xs := fun hy hmem =>
      hy (List.mem_map_of_mem hmem)
    rw [toTree, toTrees_eq, reads_letIn, List.length_map, ← length] at hr
    rcases hr with ⟨k, t, ht, hr⟩ | hr
    · obtain ⟨d, hk, rfl⟩ := getElem?_map_eq.1 ht
      have hd : d ∈ values := List.mem_of_getElem? hk
      rcases ihv d hd hr with ⟨y, hy, rfl⟩ | hr
      · rcases earlier k d hk y hy with hmem | hmem
        · exact absurd (List.mem_append_left _ (hnames hmem)) hr.name_notMem
        · exact .inl ⟨y, .value (hoff hmem) hd hy, rfl⟩
      · right
        rw [Draft.expand]
        exact body_of_value (R := (·.Reads factors β leaf)) length sums needed
          (fun d hd x hx hr => (parts d hd).reads_expand_of_free hx hr)
          (fun x hx hr => last.reads_expand_of_free hx hr) hd hr.of_append
    · rcases ihb hr with ⟨y, hy, rfl⟩ | hr
      · rcases apart y hy with hmem | hmem
        · refine absurd (List.mem_append_left _ (hnames (k := xs.length) ?_)) hr.name_notMem
          rwa [List.take_length]
        · exact .inl ⟨y, .body (hoff hmem) hy, rfl⟩
      · exact .inr hr.of_append

/-- What the tree that a draft comes from reads, the other reads, or the sum of a free reference. -/
theorem Scoped.reads_toTree {d : Draft} (h : d.Scoped factors used)
    (hr : d.expand.Reads factors β leaf) :
    (∃ x, Free x d ∧ x.sum.Reads factors β leaf) ∨ d.toTree.Reads factors β leaf := by
  induction h generalizing β with
  | @node shape children inner names parts free closed ih =>
    by_cases hs : shape.IsInner
    · rw [expand, expandAll_eq, Tree.reads_node hs] at hr
      obtain ⟨k, t, ht, hr⟩ := hr
      obtain ⟨d, hk, rfl⟩ := getElem?_map_eq.1 ht
      have hd : d ∈ children := List.mem_of_getElem? hk
      rcases ih d hd hr with ⟨x, hx, hr⟩ | hr
      · exact .inl ⟨x, .node hd hx, hr.of_append⟩
      · right
        rw [toTree, toTrees_eq, Tree.reads_node hs]
        exact ⟨k, d.toTree, getElem?_map_eq.2 ⟨d, hk, rfl⟩, hr⟩
    · exact .inr ((reads_index_or_var hs).1 hr)
  | @ref x fresh names => exact .inl ⟨x, .ref, hr⟩
  | @temps xs values body length nodup fresh parts last sums earlier apart needed ihv ihb =>
    -- what is read has a name in use, if any, and so none that the let binds
    have hleaf : ∀ y ∈ xs.map Reduction.name, leaf ≠ .name y := by
      rintro y hy rfl
      obtain ⟨x, hx, rfl⟩ := List.mem_map.1 hy
      exact fresh x hx (last.names_expand _ hr.mem_names)
    have hbind : ∀ {t : Tree} (k : Nat), t.Reads factors β leaf →
        t.Reads factors (⟨[], (xs.map Reduction.name).take k⟩ ++ β) leaf := fun k ht =>
      ht.bind_names fun y hy => hleaf y (List.mem_of_mem_take hy)
    have hsum : ∀ (n : Nat) (x : Reduction), xs[n]? = some x → x.sum.Reads factors β leaf →
        (∃ y, Free y (.temps xs values body) ∧ y.sum.Reads factors β leaf) ∨
          (Draft.temps xs values body).toTree.Reads factors β leaf := by
      intro n
      induction n using Nat.strong_induction_on with
      | _ n ihn =>
        intro x hx hr
        have hlt : n < values.length := length ▸ (List.getElem?_eq_some_iff.1 hx).1
        have hd : values[n]? = some values[n] := List.getElem?_eq_getElem hlt
        rw [← sums n x _ hx hd] at hr
        rcases ihv _ (List.getElem_mem hlt) hr with ⟨y, hy, hr⟩ | hr
        · rcases earlier n _ hd y hy with hmem | hmem
          · obtain ⟨m, hm⟩ := List.mem_iff_getElem?.1 hmem
            rw [List.getElem?_take] at hm
            split at hm
            · next hmn => exact ihn m hmn y hm hr
            · simp at hm
          · exact .inl ⟨y, .value (fun h => hmem (List.mem_map_of_mem h))
              (List.getElem_mem hlt) hy, hr⟩
        · right
          rw [toTree, toTrees_eq, reads_letIn]
          exact .inl ⟨n, _, getElem?_map_eq.2 ⟨_, hd, rfl⟩, hbind n hr⟩
    rcases ihb hr with ⟨x, hx, hr⟩ | hr
    · rcases apart x hx with hmem | hmem
      · obtain ⟨n, hn⟩ := List.mem_iff_getElem?.1 hmem
        exact hsum n x hn hr
      · exact .inl ⟨x, .body (fun h => hmem (List.mem_map_of_mem h)) hx, hr⟩
    · right
      rw [toTree, reads_letIn]
      exact .inr (hbind _ hr)

end

theorem Scoped.reads_toTree_iff {d : Draft} (h : d.Scoped factors used) (hd : ∀ x, ¬ Free x d)
    {β : Binder} {leaf : Leaf} :
    d.toTree.Reads factors β leaf ↔ d.expand.Reads factors β leaf :=
  ⟨fun hr => (h.reads_expand hr).resolve_left fun ⟨x, hx, _⟩ => hd x hx,
    fun hr => (h.reads_toTree hr).resolve_left fun ⟨x, hx, _⟩ => hd x hx⟩

/-! ### Meanings -/

section

variable {V D : Type*} {ι : Interpretation V D}

/-- Names are assigned what their sums mean in another environment; only names that a let binds may
differ there. -/
structure Assigns (ι : Interpretation V D) (factors : Index → List Index) (xs assigned : List Reduction)
    (ρ σ : Env V D) : Prop where
  index : σ.index = ρ.index
  name : ∀ y ∈ assigned, σ.name y.name = y.sum.denote ι factors ρ
  other : ∀ y ∉ xs.map Reduction.name, σ.name y = ρ.name y

namespace Assigns

variable {xs assigned : List Reduction} {ρ σ : Env V D}

theorem refl : Assigns ι factors xs [] ρ ρ := ⟨rfl, by simp, fun _ _ => rfl⟩

theorem setName {k : Nat} {x : Reduction} (h : Assigns ι factors xs (xs.take k) ρ σ)
    (hnodup : (xs.map Reduction.name).Nodup) (hk : xs[k]? = some x) :
    Assigns ι factors xs (xs.take (k + 1)) ρ (σ.setName x.name (x.sum.denote ι factors ρ)) := by
  have hx : x ∈ xs := List.mem_of_getElem? hk
  refine ⟨h.index, fun y hy => ?_, fun y hy => ?_⟩
  · by_cases hyx : y.name = x.name
    · obtain rfl := List.inj_on_of_nodup_map hnodup (List.mem_of_mem_take hy) hx hyx
      simp [Env.setName]
    · have hy' : y ∈ xs.take k := by
        rw [List.take_add_one, hk, List.mem_append] at hy
        refine hy.resolve_right fun hmem => hyx ?_
        obtain rfl : y = x := by simpa using hmem
        rfl
      simpa [Env.setName, hyx] using h.name y hy'
  · have hyx : y ≠ x.name := fun heq => hy (heq ▸ List.mem_map_of_mem hx)
    simpa [Env.setName, hyx] using h.other y hy

/-- Fresh names have no say in what a tree means whose names are in use. -/
theorem denote_eq (h : Assigns ι factors xs assigned ρ σ)
    (hfactors : ∀ i, ∀ f ∈ factors i, factors f = [f]) (hx : ∀ x ∈ xs, x.name ∉ used) {t : Tree}
    (ht : ∀ y ∈ t.names, y ∈ used) : t.denote ι factors σ = t.denote ι factors ρ := by
  refine Tree.denote_eq_of_not_captures (β := ⟨[], xs.map Reduction.name⟩) hfactors ?_
    (fun i _ => congrFun h.index i) h.other
  rintro (⟨i, hi, -⟩ | ⟨y, hy, found, hmem, hleaf⟩)
  · simp at hi
  · obtain ⟨x, hxs, rfl⟩ := List.mem_map.1 hy
    exact hx x hxs (ht _ ((Tree.mem_of_mem_leaves hmem).2 _ hleaf))

/-- The name of a free reference means its sum, be it assigned or as before. -/
theorem name_of_free (h : Assigns ι factors xs assigned ρ σ)
    (hfactors : ∀ i, ∀ f ∈ factors i, factors f = [f]) (hx : ∀ x ∈ xs, x.name ∉ used) {d : Draft}
    (hd : d.Scoped factors used) {y : Reduction} (hy : Free y d)
    (hor : y ∈ assigned ∨
      y.name ∉ xs.map Reduction.name ∧ ρ.name y.name = y.sum.denote ι factors ρ) :
    σ.name y.name = y.sum.denote ι factors σ := by
  rw [h.denote_eq hfactors hx (hd.of_free hy).2]
  rcases hor with hmem | ⟨hoff, hρ⟩
  · exact h.name y hmem
  · exact (h.other _ hoff).trans hρ

end Assigns

/-- Values that mean their sums make a let whose body sees the meanings of all sums. -/
theorem interpretLet_temps {xs : List Reduction} {children : List (Env V D → D)} {ρ : Env V D}
    (hlength : xs.length = children.length) (hnodup : (xs.map Reduction.name).Nodup)
    (hvalue : ∀ (k : Nat) x c (σ : Env V D), xs[k]? = some x → children[k]? = some c →
      Assigns ι factors xs (xs.take k) ρ σ → c σ = x.sum.denote ι factors ρ) (body : Env V D → D) :
    ∀ n k (σ : Env V D), n + k = xs.length → Assigns ι factors xs (xs.take k) ρ σ →
      ∃ τ, Assigns ι factors xs xs ρ τ ∧
        Shape.interpretLet ι ((xs.map Reduction.name).drop k) (children.drop k ++ [body]) σ =
          body τ := by
  intro n
  induction n with
  | zero =>
    intro k σ hk hσ
    obtain rfl : k = xs.length := by omega
    rw [List.take_length] at hσ
    refine ⟨σ, hσ, ?_⟩
    rw [List.drop_eq_nil_of_le (by simp), List.drop_eq_nil_of_le (by omega)]
    rfl
  | succ n ih =>
    intro k σ hk hσ
    have hlt : k < xs.length := by omega
    have hltc : k < children.length := by omega
    have hx : xs[k]? = some xs[k] := List.getElem?_eq_getElem hlt
    have hnames : (xs.map Reduction.name).drop k =
        xs[k].name :: (xs.map Reduction.name).drop (k + 1) := by
      rw [List.drop_eq_getElem_cons (by simpa using hlt), List.getElem_map]
    have hc : children.drop k = children[k] :: children.drop (k + 1) :=
      List.drop_eq_getElem_cons hltc
    rw [hnames, hc, List.cons_append, Shape.interpretLet,
      hvalue k _ _ σ hx (List.getElem?_eq_getElem hltc) hσ]
    exact ih (k + 1) _ (by omega) (hσ.setName hnodup hx)

/-- The tree that a draft is means the same as the one it comes from, where the names of free
references mean their sums. -/
theorem Scoped.denote_toTree_of_free (hfactors : ∀ i, ∀ f ∈ factors i, factors f = [f]) {d : Draft}
    (h : d.Scoped factors used) :
    ∀ {ρ : Env V D}, (∀ x, Free x d → ρ.name x.name = x.sum.denote ι factors ρ) →
      d.toTree.denote ι factors ρ = d.expand.denote ι factors ρ := by
  induction h with
  | @node shape children inner names parts free closed ih =>
    intro ρ hρ
    rcases shape.isInner_or with hs | ⟨i, rfl⟩ | ⟨x, rfl⟩
    · rw [toTree, expand, Tree.denote, Tree.denote, toTrees_eq, expandAll_eq, Tree.denoteAll_eq,
        Tree.denoteAll_eq, List.map_map, List.map_map]
      refine Shape.interpret_congr (by simp) (fun k c c' hc hc' σ σ' hσ => ?_)
        (fun i hi => absurd hi (hs.1 i)) (fun x hx => absurd hx (hs.2 x))
      obtain ⟨d, hk, rfl⟩ := getElem?_map_eq.1 hc
      obtain ⟨d', hk', rfl⟩ := getElem?_map_eq.1 hc'
      obtain rfl : d = d' := by simpa [hk] using hk'
      obtain rfl := hσ.eq
      have hd : d ∈ children := List.mem_of_getElem? hk
      refine ih d hd fun x hx => ?_
      have hgiven : x.name ∉ shape.given.take k := fun hmem =>
        ((parts d hd).of_free hx).1 (names _ (Shape.names_of_given (List.mem_of_mem_take hmem)))
      rw [(hσ.name_of_notMem _ hgiven).1, hρ x (.node hd hx)]
      refine (Tree.denote_eq_of_not_captures hfactors (free k d hk x hx) (fun i hi => ?_)
        fun y hy => (hσ.name_of_notMem y hy).1).symm
      exact (hσ.index_of_notMem i fun hmem => hi (List.mem_append_right _ hmem)).1
    · rfl
    · rfl
  | @ref x fresh names => exact fun hρ => hρ x .ref
  | @temps xs values body length nodup fresh parts last sums earlier apart needed ihv ihb =>
    intro ρ hρ
    have hoff : ∀ {y : Reduction}, y.name ∉ xs.map Reduction.name → y ∉ xs := fun hy hmem =>
      hy (List.mem_map_of_mem hmem)
    have hvalue : ∀ (k : Nat) x c (σ : Env V D), xs[k]? = some x →
        (values.map fun d => d.toTree.denote ι factors)[k]? = some c →
        Assigns ι factors xs (xs.take k) ρ σ → c σ = x.sum.denote ι factors ρ := by
      intro k x c σ hx hc hσ
      obtain ⟨d, hk, rfl⟩ := getElem?_map_eq.1 hc
      have hd : d ∈ values := List.mem_of_getElem? hk
      calc d.toTree.denote ι factors σ = d.expand.denote ι factors σ := ihv d hd fun y hy =>
            hσ.name_of_free hfactors fresh (parts d hd) hy ((earlier k d hk y hy).imp_right
              fun hname => ⟨hname, hρ y (.value (hoff hname) hd hy)⟩)
        _ = d.expand.denote ι factors ρ := hσ.denote_eq hfactors fresh (parts d hd).names_expand
        _ = x.sum.denote ι factors ρ := by rw [sums k x d hx hk]
    obtain ⟨τ, hτ, heq⟩ := interpretLet_temps (by simpa using length) nodup hvalue
      (body.toTree.denote ι factors) xs.length 0 ρ (by omega) .refl
    calc (Draft.temps xs values body).toTree.denote ι factors ρ
        = body.toTree.denote ι factors τ := by
          rw [toTree, toTrees_eq, Tree.denote, Tree.denoteAll_eq, List.map_append, List.map_map]
          exact heq
      _ = body.expand.denote ι factors τ := ihb fun y hy =>
          hτ.name_of_free hfactors fresh last hy ((apart y hy).imp_right
            fun hname => ⟨hname, hρ y (.body (hoff hname) hy)⟩)
      _ = body.expand.denote ι factors ρ := hτ.denote_eq hfactors fresh last.names_expand

theorem Scoped.denote_toTree (hfactors : ∀ i, ∀ f ∈ factors i, factors f = [f]) {d : Draft}
    (h : d.Scoped factors used) (hd : ∀ x, ¬ Free x d) (ρ : Env V D) :
    d.toTree.denote ι factors ρ = d.expand.denote ι factors ρ :=
  h.denote_toTree_of_free hfactors fun x hx => absurd hx (hd x)

end

end Draft

end TensorRecipe
