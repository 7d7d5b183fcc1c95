import TensorRecipe.Proofs.Extraction.Fragments
import TensorRecipe.Proofs.Extraction.Scopes

/-!
# Reductions that wait for their scopes

While the sums of a region are replaced, each becomes a reference, and its draft floats until the
visit of its home ends (`Drafted`): there it is bound around all that refers to it (`Drafted.close`).
At the end of the region nothing floats any more.  The drafts made so are never built by the pass,
which keeps all temporaries of the region pending; but they show where these could be bound.
-/

namespace TensorRecipe

namespace Extraction

open Draft

/-- Those that float and have a given home. -/
def floatsAt (n : Nat) (floats : List (Reduction × Draft)) : List (Reduction × Draft) :=
  floats.filter fun b => b.1.home = n

/-- Those that float and have another home. -/
def floatsBeyond (n : Nat) (floats : List (Reduction × Draft)) : List (Reduction × Draft) :=
  floats.filter fun b => !decide (b.1.home = n)

/-- A draft inside a let of floating reductions, if there are any. -/
def bindIn (floats : List (Reduction × Draft)) (f : Draft) : Draft :=
  if floats.isEmpty then f else .temps (floats.map Prod.fst) (floats.map Prod.snd) f

section

theorem forall_mem_concat {α : Type} {P : α → Prop} {xs : List α} {y : α} (h : ∀ x ∈ xs, P x)
    (hy : P y) : ∀ x ∈ xs ++ [y], P x :=
  List.forall_mem_append.2 ⟨h, List.forall_mem_singleton.2 hy⟩

variable {floats : List (Reduction × Draft)} {f : Draft} {x : Reduction}

theorem expand_bindIn : (bindIn floats f).expand = f.expand := by
  unfold bindIn
  split <;> rfl

theorem core_bindIn : (bindIn floats f).core = f.core := by
  unfold bindIn
  split <;> rfl

theorem free_bindIn_iff : Free x (bindIn floats f) ↔
    x ∉ floats.map Prod.fst ∧ ((∃ b ∈ floats, Free x b.2) ∨ Free x f) := by
  have hmem : (∃ d ∈ floats.map Prod.snd, Free x d) ↔ ∃ b ∈ floats, Free x b.2 := by
    constructor
    · rintro ⟨d, hd, hx⟩
      obtain ⟨b, hb, rfl⟩ := List.mem_map.1 hd
      exact ⟨b, hb, hx⟩
    · rintro ⟨b, hb, hx⟩
      exact ⟨b.2, List.mem_map_of_mem hb, hx⟩
  unfold bindIn
  split
  · next h =>
    obtain rfl := List.isEmpty_iff.1 h
    simp
  · rw [free_temps_iff, hmem]

theorem mem_refs_bindIn : x ∈ (bindIn floats f).refs ↔ (∃ b ∈ floats, x ∈ b.2.refs) ∨ x ∈ f.refs := by
  unfold bindIn
  split
  · next h =>
    obtain rfl := List.isEmpty_iff.1 h
    simp
  · rw [refs, refsAll_eq, List.mem_append, List.flatMap_map, List.mem_flatMap]

theorem mem_regions_bindIn {r : Draft} :
    r ∈ (bindIn floats f).regions ↔ (∃ b ∈ floats, r ∈ b.2.regions) ∨ r ∈ f.regions := by
  unfold bindIn
  split
  · next h =>
    obtain rfl := List.isEmpty_iff.1 h
    simp
  · rw [regions, regionsAll_eq, List.mem_append, List.flatMap_map, List.mem_flatMap]

end

/-! ### What drafts hold -/

section

variable {β : Type} (g : Draft → List β) (h : Reduction × Draft → β)

/-- What several drafts hold and what floats holds, each of which is one more. -/
def held (fs : List Draft) (floats : List (Reduction × Draft)) : List β :=
  fs.flatMap g ++ floats.flatMap fun b => h b :: g b.2

variable {g h} {fs gs : List Draft} {floats more : List (Reduction × Draft)}

theorem held_append : (held g h (fs ++ gs) (floats ++ more)).Perm
    (held g h fs floats ++ held g h gs more) := by
  unfold held
  rw [List.flatMap_append, List.flatMap_append, ← Multiset.coe_eq_coe]
  simp only [← Multiset.coe_add]
  abel

theorem held_bindIn {f : Draft} (n : Nat)
    (hbind : ∀ bs, (g (bindIn bs f)).Perm (held g h [f] bs)) :
    (held g h [bindIn (floatsAt n floats) f] (floatsBeyond n floats)).Perm
      (held g h [f] floats) := by
  have hsplit : (floats.flatMap fun b => h b :: g b.2).Perm
      ((floatsAt n floats).flatMap (fun b => h b :: g b.2) ++
        (floatsBeyond n floats).flatMap fun b => h b :: g b.2) := by
    rw [← List.flatMap_append]
    exact (List.filter_append_perm _ floats).symm.flatMap_right _
  have hone := hbind (floatsAt n floats)
  unfold held at hone ⊢
  rw [List.flatMap_singleton] at hone ⊢
  rw [List.flatMap_singleton]
  refine (hone.append_right _).trans ?_
  rw [List.append_assoc]
  exact hsplit.symm.append_left _

theorem mem_held_of_mem_floats {b : Reduction × Draft} (hb : b ∈ floats) :
    h b ∈ held g h fs floats :=
  List.mem_append_right _ (List.mem_flatMap.2 ⟨b, hb, by simp⟩)

end

theorem flatMap_cons_perm {α β : Type} {k : α → β} {g : α → List β} :
    ∀ xs : List α, (xs.flatMap fun x => k x :: g x).Perm (xs.map k ++ xs.flatMap g)
  | [] => .nil
  | x :: xs => by
    rw [List.flatMap_cons, List.flatMap_cons, List.map_cons, List.cons_append, List.cons_append]
    refine .cons _ (((flatMap_cons_perm xs).append_left _).trans ?_)
    exact List.perm_append_comm_assoc _ _ _

theorem bindings_bindIn (f : Draft) (bs : List (Reduction × Draft)) :
    (bindIn bs f).bindings.Perm (held bindings id [f] bs) := by
  have hzip : (bs.map Prod.fst).zip (bs.map Prod.snd) = bs := (List.zip_of_prod rfl rfl).symm
  have hflat := flatMap_cons_perm (k := id) (g := fun b : Reduction × Draft => b.2.bindings) bs
  unfold bindIn held
  rw [List.flatMap_singleton]
  split
  · next h =>
    obtain rfl := List.isEmpty_iff.1 h
    simp
  · rw [bindings, bindingsAll_eq, hzip, List.flatMap_map]
    rw [List.map_id] at hflat
    refine List.Perm.trans ?_ (hflat.symm.append_left _)
    rw [← List.append_assoc]
    exact List.perm_append_comm

theorem bound_bindIn (f : Draft) (bs : List (Reduction × Draft)) :
    (bindIn bs f).bound.Perm (held bound Prod.fst [f] bs) := by
  have hflat := flatMap_cons_perm (k := Prod.fst) (g := fun b : Reduction × Draft => b.2.bound) bs
  unfold bindIn held
  rw [List.flatMap_singleton]
  split
  · next h =>
    obtain rfl := List.isEmpty_iff.1 h
    simp
  · rw [bound, boundAll_eq, List.flatMap_map]
    refine List.Perm.trans ?_ (hflat.symm.append_left _)
    rw [← List.append_assoc]
    exact List.perm_append_comm

/-- A reduction is referred to freely in drafts or in the values that float. -/
def Loose (fs : List Draft) (floats : List (Reduction × Draft)) (x : Reduction) : Prop :=
  (∃ f ∈ fs, Free x f) ∨ ∃ b ∈ floats, Free x b.2

/-- What the sums in several trees have become, inside some scopes.  Before, the reductions `before`
were known in the region, and `after` are now; `floats` are those that are bound nowhere yet. -/
structure Drafted (factors : Index → List Index) (used : List String) (scopes : List Scope)
    (last : Nat) (before after : List (Reduction × Draft)) (fs : List Draft)
    (floats : List (Reduction × Draft)) : Prop where
  isScoped : ∀ f ∈ fs, f.Scoped factors used
  values : ∀ b ∈ floats, b.2.Scoped factors used
  expand : ∀ b ∈ floats, b.2.expand = b.1.sum
  fresh : ∀ b ∈ floats, b.1.name ∉ used
  loose : ∀ x, Loose fs floats x →
    x ∈ (before ++ floats).map Prod.fst ∧ IsHome factors x.sum scopes x.home
  earlier : floats.Pairwise fun b c => ¬ Free c.1 b.2
  proper : ∀ b ∈ floats, ¬ Free b.1 b.2
  needed : ∀ b ∈ floats, Loose fs floats b.1
  kept : ∃ new, after = before ++ new ∧ new.Perm (held bindings id fs floats)
  nodup : (after.map (·.1.name)).Nodup
  inner : ∀ b ∈ after, b ∈ before ∨ b ∈ floats ∨ last < b.1.home
  refs : ∀ f ∈ fs, ∀ x ∈ f.refs, x ∈ after.map Prod.fst

namespace Drafted

variable {factors : Index → List Index} {used : List String} {scopes : List Scope} {last : Nat}
  {before after : List (Reduction × Draft)} {fs : List Draft} {floats : List (Reduction × Draft)}

theorem mem_after_of_mem_before (h : Drafted factors used scopes last before after fs floats)
    {b : Reduction × Draft} (hb : b ∈ before) : b ∈ after := by
  obtain ⟨new, rfl, -⟩ := h.kept
  exact List.mem_append_left _ hb

theorem mem_after_of_mem_floats (h : Drafted factors used scopes last before after fs floats)
    {b : Reduction × Draft} (hb : b ∈ floats) : b ∈ after := by
  obtain ⟨new, rfl, hnew⟩ := h.kept
  exact List.mem_append_right _ (hnew.symm.subset (mem_held_of_mem_floats hb))

theorem eq_of_name (h : Drafted factors used scopes last before after fs floats)
    {b c : Reduction × Draft} (hb : b ∈ after) (hc : c ∈ after) (heq : b.1.name = c.1.name) : b = c :=
  List.inj_on_of_nodup_map h.nodup hb hc heq

theorem nil (hnodup : (before.map (·.1.name)).Nodup) :
    Drafted factors used scopes last before before [] [] := by
  refine ⟨by simp, by simp, by simp, by simp, ?_, .nil, by simp, by simp, ⟨[], by simp, .nil⟩,
    hnodup, fun b hb => .inl hb, by simp⟩
  rintro x (⟨f, hf, -⟩ | ⟨b, hb, -⟩)
  · simp at hf
  · simp at hb

theorem notMem_before (h : Drafted factors used scopes last before after fs floats)
    {b : Reduction × Draft} (hb : b ∈ floats) : b.1.name ∉ before.map (·.1.name) := by
  obtain ⟨new, rfl, hnew⟩ := h.kept
  have hnodup := h.nodup
  rw [List.map_append] at hnodup
  intro hmem
  refine List.disjoint_of_nodup_append hnodup hmem ?_
  exact List.mem_map.2 ⟨b, hnew.symm.subset (mem_held_of_mem_floats hb), rfl⟩

theorem exists_mem_of_loose (h : Drafted factors used scopes last before after fs floats)
    {x : Reduction} (hx : Loose fs floats x) : ∃ v, (x, v) ∈ before ∨ (x, v) ∈ floats := by
  obtain ⟨b, hb, rfl⟩ := List.mem_map.1 (h.loose x hx).1
  exact ⟨b.2, List.mem_append.1 hb⟩

theorem loose_append {gs : List Draft} {more : List (Reduction × Draft)} {x : Reduction} :
    Loose (fs ++ gs) (floats ++ more) x ↔ Loose fs floats x ∨ Loose gs more x := by
  unfold Loose
  simp only [List.mem_append, or_and_right, exists_or]
  rw [or_or_or_comm]

theorem append {mid : List (Reduction × Draft)} {last' : Nat} {gs : List Draft}
    {more : List (Reduction × Draft)} (hscopes : Numbered scopes last) (hlast : last ≤ last')
    (h : Drafted factors used scopes last before mid fs floats)
    (h' : Drafted factors used scopes last' mid after gs more) :
    Drafted factors used scopes last before after (fs ++ gs) (floats ++ more) := by
  refine ⟨?_, ?_, ?_, ?_, ?_, ?_, ?_, ?_, ?_, h'.nodup, ?_, ?_⟩
  · exact fun f hf => (List.mem_append.1 hf).elim (h.isScoped f) (h'.isScoped f)
  · exact fun b hb => (List.mem_append.1 hb).elim (h.values b) (h'.values b)
  · exact fun b hb => (List.mem_append.1 hb).elim (h.expand b) (h'.expand b)
  · exact fun b hb => (List.mem_append.1 hb).elim (h.fresh b) (h'.fresh b)
  · intro x hx
    rcases loose_append.1 hx with hx | hx
    · obtain ⟨hmem, hhome⟩ := h.loose x hx
      refine ⟨?_, hhome⟩
      rw [← List.append_assoc, List.map_append]
      exact List.mem_append_left _ hmem
    · obtain ⟨hmem, hhome⟩ := h'.loose x hx
      refine ⟨?_, hhome⟩
      obtain ⟨b, hb, rfl⟩ := List.mem_map.1 hmem
      refine List.mem_map_of_mem ?_
      rcases List.mem_append.1 hb with hb | hb
      · rcases h.inner b hb with hb | hb | hlt
        · exact List.mem_append_left _ hb
        · exact List.mem_append_right _ (List.mem_append_left _ hb)
        · have := hhome.le hscopes
          omega
      · exact List.mem_append_right _ (List.mem_append_right _ hb)
  · refine List.pairwise_append.2 ⟨h.earlier, h'.earlier, fun b hb c hc hfree => ?_⟩
    obtain ⟨v, hv⟩ := h.exists_mem_of_loose (.inr ⟨b, hb, hfree⟩)
    refine h'.notMem_before hc (List.mem_map.2 ⟨(c.1, v), ?_, rfl⟩)
    exact hv.elim h.mem_after_of_mem_before h.mem_after_of_mem_floats
  · exact fun b hb => (List.mem_append.1 hb).elim (h.proper b) (h'.proper b)
  · exact fun b hb => loose_append.2 ((List.mem_append.1 hb).imp (h.needed b) (h'.needed b))
  · obtain ⟨new, rfl, hnew⟩ := h.kept
    obtain ⟨new', rfl, hnew'⟩ := h'.kept
    exact ⟨new ++ new', by simp, (hnew.append hnew').trans held_append.symm⟩
  · intro b hb
    rcases h'.inner b hb with hb | hb | hlt
    · exact (h.inner b hb).imp_right (.imp_left (List.mem_append_left _))
    · exact .inr (.inl (List.mem_append_right _ hb))
    · exact .inr (.inr (by omega))
  · intro f hf x hx
    rcases List.mem_append.1 hf with hf | hf
    · obtain ⟨b, hb, rfl⟩ := List.mem_map.1 (h.refs f hf x hx)
      exact List.mem_map_of_mem (h'.mem_after_of_mem_before hb)
    · exact h'.refs f hf x hx

/-! ### The end of a scope -/

/-- A value refers to no reduction whose home is further inside than its own. -/
theorem ne_serial_of_free {s : Scope} {f : Draft} (hscopes : Numbered scopes last)
    (hs : last < s.serial)
    (h : Drafted factors used (s :: scopes) s.serial before after [f] floats)
    {b : Reduction × Draft} (hb : b ∈ floats) (hne : b.1.home ≠ s.serial) {x : Reduction}
    (hx : Free x b.2) : x.home ≠ s.serial := by
  intro heq
  have hcap := (h.loose x (.inr ⟨b, hb, hx⟩)).2.captures_of_eq hscopes hs heq
  have hread := (h.values b hb).readsWithin_of_free hx
  rw [h.expand b hb] at hread
  exact ((h.loose b.1 (h.needed b hb)).2.outside_of_ne hne).1 (hcap.of_readsWithin hread)

theorem nodup_floats (h : Drafted factors used scopes last before after fs floats) :
    (floats.map (·.1.name)).Nodup := by
  obtain ⟨new, rfl, hnew⟩ := h.kept
  have hnodup := h.nodup
  rw [List.map_append] at hnodup
  have hperm : new.Perm (fs.flatMap bindings ++ (floats.map id ++ floats.flatMap (·.2.bindings))) :=
    hnew.trans ((flatMap_cons_perm floats).append_left _)
  have hnew' := (hperm.map (·.1.name)).nodup_iff.1 hnodup.of_append_right
  rw [List.map_append, List.map_append, List.map_id] at hnew'
  exact hnew'.of_append_right.of_append_left

theorem lt_of_free (h : Drafted factors used scopes last before after fs floats)
    {bs : List (Reduction × Draft)} (hbs : bs.Sublist floats) {j k : Nat}
    {b c : Reduction × Draft} (hj : bs[j]? = some c) (hk : bs[k]? = some b)
    (hfree : Free c.1 b.2) : j < k := by
  obtain ⟨hjl, rfl⟩ := List.getElem?_eq_some_iff.1 hj
  obtain ⟨hkl, rfl⟩ := List.getElem?_eq_some_iff.1 hk
  rcases Nat.lt_trichotomy j k with hlt | rfl | hlt
  · exact hlt
  · exact absurd hfree (h.proper _ (hbs.subset (List.getElem_mem hkl)))
  · exact absurd hfree (List.pairwise_iff_getElem.1 (h.earlier.sublist hbs) k j hkl hjl hlt)

/-- The reductions whose home is a scope are bound where the scope ends. -/
theorem isScoped_bindIn {f : Draft} {bs : List (Reduction × Draft)}
    (h : Drafted factors used scopes last before after [f] floats) (hbs : bs.Sublist floats)
    (hneeded : ∀ b ∈ bs, Free b.1 f ∨ ∃ c ∈ bs, Free b.1 c.2) :
    (bindIn bs f).Scoped factors used := by
  have hmem : ∀ b ∈ bs, b ∈ floats := fun b hb => hbs.subset hb
  have hbefore : ∀ x, Loose [f] floats x → x ∈ bs.map Prod.fst ∨
      x.name ∉ (bs.map Prod.fst).map Reduction.name := by
    intro x hx
    by_contra hcon
    push Not at hcon
    obtain ⟨hno, hname⟩ := hcon
    obtain ⟨y, hy, hyx⟩ := List.mem_map.1 hname
    obtain ⟨b, hb, rfl⟩ := List.mem_map.1 hy
    obtain ⟨v, hv⟩ := h.exists_mem_of_loose hx
    have hafter : (x, v) ∈ after := hv.elim h.mem_after_of_mem_before h.mem_after_of_mem_floats
    have heq := h.eq_of_name (h.mem_after_of_mem_floats (hmem b hb)) hafter hyx
    exact hno (List.mem_map.2 ⟨b, hb, by rw [heq]⟩)
  unfold bindIn
  split
  · exact h.isScoped f (by simp)
  · refine .temps (by simp) ?_ ?_ ?_ (h.isScoped f (by simp)) ?_ ?_ ?_ ?_
    · rw [List.map_map]
      exact (hbs.map _).nodup h.nodup_floats
    · intro x hx
      obtain ⟨b, hb, rfl⟩ := List.mem_map.1 hx
      exact h.fresh b (hmem b hb)
    · intro d hd
      obtain ⟨b, hb, rfl⟩ := List.mem_map.1 hd
      exact h.values b (hmem b hb)
    · intro k x d hx hd
      rw [List.getElem?_map, Option.map_eq_some_iff] at hx hd
      obtain ⟨b, hb, rfl⟩ := hx
      obtain ⟨c, hc, rfl⟩ := hd
      obtain rfl : b = c := by simpa [hb] using hc
      exact h.expand b (hmem b (List.mem_of_getElem? hb))
    · intro k d hd y hy
      obtain ⟨b, hb, rfl⟩ := getElem?_map_eq.1 hd
      refine (hbefore y (.inr ⟨b, hmem b (List.mem_of_getElem? hb), hy⟩)).imp_left fun hyb => ?_
      obtain ⟨c, hc, rfl⟩ := List.mem_map.1 hyb
      obtain ⟨j, hj⟩ := List.mem_iff_getElem?.1 hc
      rw [← List.map_take]
      refine List.mem_map_of_mem (List.mem_iff_getElem?.2 ⟨j, ?_⟩)
      rw [List.getElem?_take, if_pos (h.lt_of_free hbs hj hb hy)]
      exact hj
    · intro y hy
      exact hbefore y (.inl ⟨f, by simp, hy⟩)
    · intro k x hx
      obtain ⟨b, hb, rfl⟩ := getElem?_map_eq.1 hx
      refine (hneeded b (List.mem_of_getElem? hb)).imp_right ?_
      rintro ⟨c, hc, hfree⟩
      obtain ⟨l, hl⟩ := List.mem_iff_getElem?.1 hc
      exact ⟨l, c.2, h.lt_of_free hbs hb hl hfree, getElem?_map_eq.2 ⟨c, hl, rfl⟩, hfree⟩

theorem mem_floatsAt {n : Nat} {b : Reduction × Draft} :
    b ∈ floatsAt n floats ↔ b ∈ floats ∧ b.1.home = n := by
  simp [floatsAt]

theorem mem_floatsBeyond {n : Nat} {b : Reduction × Draft} :
    b ∈ floatsBeyond n floats ↔ b ∈ floats ∧ b.1.home ≠ n := by
  simp [floatsBeyond]

section

variable {s : Scope} {f : Draft}

/-- What is still loose where a scope ends has its home outside. -/
theorem loose_of_close (hs : last < s.serial) (hscopes : Numbered scopes last)
    (hbefore : ∀ b ∈ before, b.1.home ≤ last)
    (h : Drafted factors used (s :: scopes) s.serial before after [f] floats) {x : Reduction}
    (hx : Loose [bindIn (floatsAt s.serial floats) f] (floatsBeyond s.serial floats) x) :
    Loose [f] floats x ∧ x.home ≠ s.serial := by
  rcases hx with ⟨g, hg, hx⟩ | ⟨b, hb, hx⟩
  · obtain rfl : g = bindIn (floatsAt s.serial floats) f := by simpa using hg
    obtain ⟨hno, hx⟩ := free_bindIn_iff.1 hx
    have hl : Loose [f] floats x := by
      rcases hx with ⟨b, hb, hx⟩ | hx
      · exact .inr ⟨b, (mem_floatsAt.1 hb).1, hx⟩
      · exact .inl ⟨f, by simp, hx⟩
    refine ⟨hl, fun heq => ?_⟩
    obtain ⟨v, hv | hv⟩ := h.exists_mem_of_loose hl
    · have hle : x.home ≤ last := hbefore _ hv
      omega
    · exact hno (List.mem_map.2 ⟨_, mem_floatsAt.2 ⟨hv, heq⟩, rfl⟩)
  · obtain ⟨hb, hne⟩ := mem_floatsBeyond.1 hb
    exact ⟨.inr ⟨b, hb, hx⟩, h.ne_serial_of_free hscopes hs hb hne hx⟩

/-- What is bound where a scope ends is referred to there. -/
theorem needed_of_close (hs : last < s.serial) (hscopes : Numbered scopes last)
    (h : Drafted factors used (s :: scopes) s.serial before after [f] floats) :
    ∀ b ∈ floatsAt s.serial floats,
      Free b.1 f ∨ ∃ c ∈ floatsAt s.serial floats, Free b.1 c.2 := by
  intro b hb
  obtain ⟨hbf, heq⟩ := mem_floatsAt.1 hb
  rcases h.needed b hbf with ⟨g, hg, hx⟩ | ⟨c, hc, hx⟩
  · obtain rfl : g = f := by simpa using hg
    exact .inl hx
  · refine .inr ⟨c, mem_floatsAt.2 ⟨hc, ?_⟩, hx⟩
    by_contra hne
    exact h.ne_serial_of_free hscopes hs hc hne hx heq

/-- What still floats where a scope ends is loose there. -/
theorem loose_of_mem_floatsBeyond
    (h : Drafted factors used (s :: scopes) s.serial before after [f] floats) :
    ∀ b ∈ floatsBeyond s.serial floats,
      Loose [bindIn (floatsAt s.serial floats) f] (floatsBeyond s.serial floats) b.1 := by
  intro b hb
  obtain ⟨hbf, hne⟩ := mem_floatsBeyond.1 hb
  have hno : b.1 ∉ (floatsAt s.serial floats).map Prod.fst := fun hmem => by
    obtain ⟨c, hc, heq⟩ := List.mem_map.1 hmem
    exact hne (heq ▸ (mem_floatsAt.1 hc).2)
  rcases h.needed b hbf with ⟨g, hg, hx⟩ | ⟨c, hc, hx⟩
  · have hgf : g = f := by simpa using hg
    rw [hgf] at hx
    exact .inl ⟨_, List.mem_singleton_self _, free_bindIn_iff.2 ⟨hno, .inr hx⟩⟩
  · by_cases heq : c.1.home = s.serial
    · refine .inl ⟨_, List.mem_singleton_self _, free_bindIn_iff.2 ⟨hno, .inl ?_⟩⟩
      exact ⟨c, mem_floatsAt.2 ⟨hc, heq⟩, hx⟩
    · exact .inr ⟨c, mem_floatsBeyond.2 ⟨hc, heq⟩, hx⟩

/-- The reductions that a scope captures stay inside it; no others do. -/
theorem close (hscopes : Numbered scopes last) (hs : s.serial = last + 1)
    (hbefore : ∀ b ∈ before, b.1.home ≤ last)
    (hrefs : ∀ b ∈ after, ∀ x ∈ b.2.refs, x ∈ after.map Prod.fst)
    (h : Drafted factors used (s :: scopes) s.serial before after [f] floats) :
    Drafted factors used scopes last before after [bindIn (floatsAt s.serial floats) f]
        (floatsBeyond s.serial floats) ∧
      ∀ x, Free x (bindIn (floatsAt s.serial floats) f) → ¬ s.binder.Captures factors x.sum := by
  have hlt : last < s.serial := by omega
  have hloose := fun x => h.loose_of_close (x := x) hlt hscopes hbefore
  have hsub : (floatsAt s.serial floats).Sublist floats := List.filter_sublist
  have hsub' : (floatsBeyond s.serial floats).Sublist floats := List.filter_sublist
  refine ⟨⟨?_, fun b hb => h.values b (hsub'.subset hb), fun b hb => h.expand b (hsub'.subset hb),
    fun b hb => h.fresh b (hsub'.subset hb), ?_, h.earlier.sublist hsub',
    fun b hb => h.proper b (hsub'.subset hb), h.loose_of_mem_floatsBeyond, ?_, h.nodup, ?_, ?_⟩, ?_⟩
  · intro g hg
    obtain rfl : g = bindIn (floatsAt s.serial floats) f := by simpa using hg
    exact h.isScoped_bindIn hsub (h.needed_of_close hlt hscopes)
  · intro x hx
    obtain ⟨hl, hne⟩ := hloose x hx
    refine ⟨?_, ((h.loose x hl).2.outside_of_ne hne).2⟩
    obtain ⟨v, hv | hv⟩ := h.exists_mem_of_loose hl
    · exact List.mem_map.2 ⟨_, List.mem_append_left _ hv, rfl⟩
    · exact List.mem_map.2 ⟨_, List.mem_append_right _ (mem_floatsBeyond.2 ⟨hv, hne⟩), rfl⟩
  · obtain ⟨new, heq, hnew⟩ := h.kept
    exact ⟨new, heq, hnew.trans (held_bindIn _ (bindings_bindIn f)).symm⟩
  · intro b hb
    rcases h.inner b hb with hb | hb | hlt'
    · exact .inl hb
    · by_cases heq : b.1.home = s.serial
      · exact .inr (.inr (by omega))
      · exact .inr (.inl (mem_floatsBeyond.2 ⟨hb, heq⟩))
    · exact .inr (.inr (by omega))
  · intro g hg x hx
    obtain rfl : g = bindIn (floatsAt s.serial floats) f := by simpa using hg
    rcases mem_refs_bindIn.1 hx with ⟨b, hb, hx⟩ | hx
    · exact hrefs b (h.mem_after_of_mem_floats (hsub.subset hb)) x hx
    · exact h.refs f (by simp) x hx
  · intro x hx
    obtain ⟨hl, hne⟩ := hloose x (.inl ⟨_, List.mem_singleton_self _, hx⟩)
    exact ((h.loose x hl).2.outside_of_ne hne).1

end

/-! ### Nodes and references -/

/-- A node over trees whose reductions it does not capture. -/
theorem node {shape : Shape} (inner : shape.IsInner ∨ fs = [])
    (unbarred : ∀ g transpose, shape ≠ .recipe g transpose) (names : ∀ y ∈ shape.names, y ∈ used)
    (hfree : ∀ (k : Nat) f, fs[k]? = some f → ∀ x, Free x f →
      ¬ (shape.binder factors k).Captures factors x.sum)
    (h : Drafted factors used scopes last before after fs floats) :
    Drafted factors used scopes last before after [.node shape fs] floats := by
  have hloose : ∀ x, Loose [.node shape fs] floats x ↔ Loose fs floats x := fun x => by
    simp [Loose, free_node_iff]
  refine ⟨?_, h.values, h.expand, h.fresh, fun x hx => h.loose x ((hloose x).1 hx), h.earlier,
    h.proper, fun b hb => (hloose _).2 (h.needed b hb), ?_, h.nodup, h.inner, ?_⟩
  · intro f hf
    obtain rfl : f = .node shape fs := by simpa using hf
    exact .node inner names h.isScoped hfree fun g transpose hs => absurd hs (unbarred g transpose)
  · obtain ⟨new, heq, hnew⟩ := h.kept
    refine ⟨new, heq, hnew.trans (.of_eq ?_)⟩
    rw [held, held, List.flatMap_singleton, bindings_node unbarred]
  · intro f hf x hx
    obtain rfl : f = .node shape fs := by simpa using hf
    rw [refs_node unbarred] at hx
    obtain ⟨g, hg, hx⟩ := List.mem_flatMap.1 hx
    exact h.refs g hg x hx

/-- A recipe is a region of its own, from which nothing floats. -/
theorem recipe {g : IndexDeclaration} {transpose : Option (List Nat)} {d : Draft}
    (hnodup : (before.map (·.1.name)).Nodup) (hd : d.Scoped factors used) (hclosed : ∀ x, ¬ Free x d) :
    Drafted factors used scopes last before before [.node (.recipe g transpose) [d]] [] := by
  have hfree : ∀ x, ¬ Free x (.node (.recipe g transpose) [d]) := by
    simpa [free_node_iff] using hclosed
  refine ⟨?_, by simp, by simp, by simp, ?_, .nil, by simp, by simp,
    ⟨[], by simp, .of_eq (by simp [held, Draft.bindings])⟩, hnodup, fun b hb => .inl hb,
    by simp [Draft.refs]⟩
  · intro f hf
    obtain rfl : f = .node (.recipe g transpose) [d] := by simpa using hf
    refine .node (.inl (by simp [Shape.IsInner])) (by simp [Shape.names]) (by simpa using hd) ?_
      (by simpa using hclosed)
    intro k e he x hx
    obtain rfl : e = d := by simpa using List.mem_of_getElem? he
    exact absurd hx (hclosed x)
  · rintro x (⟨f, hf, hx⟩ | ⟨b, hb, -⟩)
    · obtain rfl : f = .node (.recipe g transpose) [d] := by simpa using hf
      exact absurd hx (hfree x)
    · simp at hb

theorem ref {b : Reduction × Draft} (hnodup : (before.map (·.1.name)).Nodup) (hb : b ∈ before)
    (hfresh : b.1.name ∉ used) (hnames : ∀ y ∈ b.1.sum.names, y ∈ used)
    (hhome : IsHome factors b.1.sum scopes b.1.home) :
    Drafted factors used scopes last before before [.ref b.1] [] := by
  refine ⟨by simpa using .ref hfresh hnames, by simp, by simp, by simp, ?_, .nil, by simp, by simp,
    ⟨[], by simp, .refl _⟩, hnodup, fun c hc => .inl hc, ?_⟩
  · rintro x (⟨f, hf, hx⟩ | ⟨c, hc, -⟩)
    · obtain rfl : f = .ref b.1 := by simpa using hf
      obtain rfl := free_ref_iff.1 hx
      exact ⟨by simpa using ⟨b.2, hb⟩, hhome⟩
    · simp at hc
  · intro f hf x hx
    obtain rfl : f = .ref b.1 := by simpa using hf
    obtain rfl : x = b.1 := by simpa [Draft.refs] using hx
    exact List.mem_map_of_mem hb

/-- What a reduction that floats holds is what its value has held, and the reduction itself. -/
theorem held_extract {v : Draft} {x : Reduction} :
    (held bindings id [v] floats ++ [(x, v)]).Perm
      (held bindings id [.ref x] (floats ++ [(x, v)])) := by
  simp only [held, List.flatMap_singleton, bindings, List.flatMap_append, List.nil_append, id]
  rw [← Multiset.coe_eq_coe]
  simp only [← Multiset.coe_add, ← Multiset.cons_coe, ← Multiset.singleton_add, Multiset.coe_nil,
    add_zero]
  abel

/-- A sum becomes a reduction that floats, and a reference to it. -/
theorem extract {v : Draft} {x : Reduction} (hfresh : x.name ∉ used)
    (hnames : ∀ y ∈ x.sum.names, y ∈ used) (hnew : x.name ∉ after.map (·.1.name))
    (hhome : IsHome factors x.sum scopes x.home) (hexpand : v.expand = x.sum)
    (h : Drafted factors used scopes last before after [v] floats) :
    Drafted factors used scopes last before (after ++ [(x, v)]) [.ref x] (floats ++ [(x, v)]) := by
  have hloose : ∀ y, Loose [.ref x] (floats ++ [(x, v)]) y ↔ y = x ∨ Loose [v] floats y := by
    intro y
    simp only [Loose, List.mem_singleton, exists_eq_left, free_ref_iff, List.mem_append,
      or_and_right, exists_or, exists_eq_left]
    rw [or_comm (a := ∃ b ∈ floats, Free y b.2)]
  -- the new name is unlike any that has been referred to
  have hnot : ¬ Loose [v] floats x := by
    intro hx
    obtain ⟨u, hu⟩ := h.exists_mem_of_loose hx
    exact hnew (List.mem_map.2 ⟨(x, u), hu.elim h.mem_after_of_mem_before h.mem_after_of_mem_floats,
      rfl⟩)
  refine ⟨by simpa using .ref hfresh hnames, forall_mem_concat h.values (h.isScoped v (by simp)),
    forall_mem_concat h.expand hexpand, forall_mem_concat h.fresh hfresh, ?_, ?_,
    forall_mem_concat h.proper fun hfree => hnot (.inl ⟨v, by simp, hfree⟩),
    forall_mem_concat (fun b hb => (hloose _).2 (.inr (h.needed b hb))) ((hloose _).2 (.inl rfl)),
    ?_, ?_, forall_mem_concat (fun b hb => ?_) (.inr (.inl (by simp))), ?_⟩
  · intro y hy
    rw [← List.append_assoc, List.map_append, List.mem_append]
    rcases (hloose y).1 hy with rfl | hy
    · exact ⟨.inr (by simp), hhome⟩
    · exact ⟨.inl (h.loose y hy).1, (h.loose y hy).2⟩
  · refine List.pairwise_append.2 ⟨h.earlier, by simp, fun b hb c hc hfree => ?_⟩
    obtain rfl : c = (x, v) := by simpa using hc
    exact hnot (.inr ⟨b, hb, hfree⟩)
  · obtain ⟨new, rfl, hperm⟩ := h.kept
    exact ⟨new ++ [(x, v)], by simp, (hperm.append_right _).trans held_extract⟩
  · simpa [List.concat_eq_append] using h.nodup.concat hnew
  · exact (h.inner b hb).imp_right (.imp_left (List.mem_append_left _))
  · intro f hf y hy
    obtain rfl : f = .ref x := by simpa using hf
    obtain rfl : y = x := by simpa [Draft.refs] using hy
    simp

end Drafted

end Extraction

end TensorRecipe
