import TensorRecipe.Proofs.LoopBinding.Completeness
import TensorRecipe.Proofs.Tree.Positions

/-!
# What lies around the loops put in

`Tree.Adds` tells where binding puts a loop in, by its position in the bound tree; all that stands at
other positions comes from the tree (`Tree.adds_iff_not_lifted`).  What encloses a loop put in never
binds the same index, with one exception: a loop put in around a let does not see the recipes in its
values, whose loops are their own (`Tree.Adds.enclosed`).

Indices are the same only if their handles are.  So an index may still be bound again through a
factor that it shares with another.
-/

namespace TensorRecipe

namespace Tree

/-! ### Loops put in -/

/-- The loops that a node of a shape lacks around its body: it may be a recipe. -/
def lacking (above : List Index) : Shape → List Tree → List Index
  | .recipe g _, children => g.missing above (loopsAll above children)
  | _, _ => []

/-- The way to something that may have been put below a loop over the indices. -/
def under (is : List Index) (p : List Nat) : List Nat := if is.isEmpty then p else 0 :: p

/-- Binding puts in a loop over the indices, at the position of the bound tree. -/
inductive Adds : List Index → Tree → List Nat → List Index → Prop
  | put {above : List Index} {shape : Shape} {children : List Tree}
      (lacks : lacking above shape children ≠ []) :
      Adds above (node shape children) [0] (lacking above shape children)
  | child {above is : List Index} {shape : Shape} {children : List Tree} {k : Nat} {c : Tree}
      {p : List Nat} (child : children[k]? = some c) (adds : Adds (shape.scope ++ above) c p is) :
      Adds above (node shape children) (under (lacking above shape children) (k :: p)) is

/-- Where in the bound tree that stands which stood at a position. -/
def lifted (above : List Index) : Tree → List Nat → List Nat
  | _, [] => []
  | node shape children, k :: p =>
    match children[k]? with
    | some c => under (lacking above shape children) (k :: lifted (shape.scope ++ above) c p)
    | none => k :: p

/-- The position is in a value of a let. -/
def InValue : Tree → List Nat → Prop
  | _, [] => False
  | node shape children, k :: p =>
    ((∃ names, shape = .letIn names) ∧ k + 1 < children.length) ∨
      match children[k]? with
      | some c => InValue c p
      | none => False

/-- A recipe in the tree declares some scalar factor twice. -/
def DeclaresTwice (factors : Index → List Index) (t : Tree) : Prop :=
  ∃ p g transpose children, t.at? p = some (node (.recipe g transpose) children) ∧
    ¬ (g.toList.flatMap factors).Nodup

section

variable {factors : Index → List Index} {above is : List Index} {shape : Shape}
  {children : List Tree} {k : Nat} {c t v : Tree} {p q r : List Nat}

theorem scope_eq_nil (h : lacking above shape children ≠ []) : shape.scope = [] := by
  cases shape
  case recipe g transpose => rfl
  all_goals exact absurd rfl h

theorem lacking_eq_nil (h : ∀ g transpose, shape ≠ .recipe g transpose) :
    lacking above shape children = [] := by
  cases shape
  case recipe g transpose => exact absurd rfl (h g transpose)
  all_goals rfl

/-- All of a node is kept, but a recipe gets its transpose and the loops it lacks. -/
theorem withLoops_eq (factors : Index → List Index) (above : List Index) (shape : Shape)
    (children : List Tree) :
    ∃ shape', (shape' = shape ∨ ∃ g old new, shape = .recipe g old ∧ shape' = .recipe g new) ∧
      (node shape children).withLoops factors above = node shape' (wrap (lacking above shape children)
        (withLoopsAll factors (shape.scope ++ above) children)) := by
  obtain ⟨g, transpose, rfl⟩ | hr := shape.recipe_or
  · exact ⟨_, .inr ⟨g, transpose, _, rfl, rfl⟩, rfl⟩
  · refine ⟨shape, .inl rfl, ?_⟩
    rw [withLoops_node hr, lacking_eq_nil hr]
    rfl

theorem getElem?_withLoopsAll : ∀ (ts : List Tree) (k : Nat),
    (withLoopsAll factors above ts)[k]? = ts[k]?.map (withLoops factors above)
  | [], _ => rfl
  | _ :: _, 0 => rfl
  | _ :: ts, k + 1 => getElem?_withLoopsAll ts k

theorem at?_under {is : List Index} {children : List Tree} :
    (node shape (wrap is children)).at? (under is (k :: p)) = some v ↔
      (node shape children).at? (k :: p) = some v := by
  rw [wrap, under]
  split
  · rfl
  · rw [at?_cons_eq_some, at?_cons_eq_some]
    simp [at?_cons_eq_some]

theorem under_ne_nil (is : List Index) (k : Nat) (p : List Nat) : under is (k :: p) ≠ [] := by
  rw [under]
  split <;> simp

theorem under_ne_singleton (h : is ≠ []) (k : Nat) (p : List Nat) : under is (k :: p) ≠ [0] := by
  rw [under, if_neg (by simpa using h)]
  simp

theorem under_inj {j : Nat} : under is (j :: p) = under is (k :: q) ↔ j = k ∧ p = q := by
  rw [under, under]
  split <;> simp

theorem Adds.ne_nil (h : Adds above t p is) : p ≠ [] := by
  cases h with
  | put => simp
  | child => exact under_ne_nil _ _ _

/-- In a bound tree stand its root, the loop put in below it, and what stands in bound children. -/
theorem at?_withLoops_cases (h : ((node shape children).withLoops factors above).at? q = some v) :
    q = [] ∨ (lacking above shape children ≠ [] ∧ q = [0]) ∨
      ∃ k c p, children[k]? = some c ∧ q = under (lacking above shape children) (k :: p) ∧
        (c.withLoops factors (shape.scope ++ above)).at? p = some v := by
  obtain ⟨shape', -, heq⟩ := withLoops_eq factors above shape children
  rw [heq] at h
  have hchild : ∀ {k p}, (node shape' (withLoopsAll factors (shape.scope ++ above) children)).at?
      (k :: p) = some v → ∃ c, children[k]? = some c ∧
        (c.withLoops factors (shape.scope ++ above)).at? p = some v := by
    intro k p hat
    obtain ⟨d, hd, hat⟩ := at?_cons_eq_some.1 hat
    rw [getElem?_withLoopsAll, Option.map_eq_some_iff] at hd
    obtain ⟨c, hc, rfl⟩ := hd
    exact ⟨c, hc, hat⟩
  rcases q with _ | ⟨j, q⟩
  · exact .inl rfl
  by_cases hnil : lacking above shape children = []
  · rw [hnil] at h
    obtain ⟨c, hc, hat⟩ := hchild h
    exact .inr (.inr ⟨j, c, q, hc, by rw [hnil]; rfl, hat⟩)
  · have hisEmpty : (lacking above shape children).isEmpty ≠ true := by simpa using hnil
    have hj : j = 0 := by
      obtain ⟨d, hd, -⟩ := at?_cons_eq_some.1 h
      rw [wrap, if_neg hisEmpty, List.getElem?_singleton] at hd
      by_contra hne
      rw [if_neg hne] at hd
      cases hd
    obtain rfl := hj
    rcases q with _ | ⟨k, q⟩
    · exact .inr (.inl ⟨hnil, rfl⟩)
    · have hunder : 0 :: k :: q = under (lacking above shape children) (k :: q) := by
        rw [under, if_neg hisEmpty]
      rw [hunder, at?_under] at h
      obtain ⟨c, hc, hat⟩ := hchild h
      exact .inr (.inr ⟨k, c, q, hc, hunder, hat⟩)

theorem Adds.exists_forAll (factors : Index → List Index) (h : Adds above t p is) :
    ∃ cs, (t.withLoops factors above).at? p = some (node (.forAll is) cs) := by
  induction h with
  | @put above shape children lacks =>
    obtain ⟨shape', -, heq⟩ := withLoops_eq factors above shape children
    rw [heq, wrap, if_neg (by simpa using lacks)]
    exact ⟨_, rfl⟩
  | @child above is shape children k c p hc _ ih =>
    obtain ⟨cs, hcs⟩ := ih
    obtain ⟨shape', -, heq⟩ := withLoops_eq factors above shape children
    refine ⟨cs, ?_⟩
    rw [heq, at?_under, at?_cons_eq_some]
    exact ⟨_, by rw [getElem?_withLoopsAll, hc]; rfl, hcs⟩

theorem Adds.not_mem_above (h : Adds above t p is) {i : Index} (hi : i ∈ is) : i ∉ above := by
  induction h with
  | @put above shape children lacks =>
    cases shape with
    | recipe g transpose => exact (mem_missing.1 hi).2.1
    | _ => cases hi
  | child _ _ ih => exact fun ha => ih hi (List.mem_append_right _ ha)

theorem adds_under (hc : children[k]? = some c) :
    Adds above (node shape children) (under (lacking above shape children) (k :: p)) is ↔
      Adds (shape.scope ++ above) c p is := by
  refine ⟨fun h => ?_, .child hc⟩
  generalize hq : under (lacking above shape children) (k :: p) = q at h
  cases h with
  | put lacks => exact absurd hq (under_ne_singleton lacks k p)
  | @child _ _ _ _ k' c' p' hc' adds =>
    obtain ⟨rfl, rfl⟩ := under_inj.1 hq
    obtain rfl : c = c' := Option.some.inj (hc.symm.trans hc')
    exact adds

/-- What stands at a position of the tree still does where it has been lifted to, but a recipe may
have another transpose. -/
theorem at?_lifted : ∀ {t : Tree} {above : List Index} {p : List Nat} {shape : Shape}
    {children : List Tree}, t.at? p = some (node shape children) →
      ∃ shape' children', (t.withLoops factors above).at? (t.lifted above p) =
        some (node shape' children') ∧
          (shape' = shape ∨ ∃ g old new, shape = .recipe g old ∧ shape' = .recipe g new)
  | node shape children, above, [], _, _, h => by
    obtain ⟨shape', hshape, heq⟩ := withLoops_eq factors above shape children
    cases h
    exact ⟨shape', _, by rw [heq]; rfl, hshape⟩
  | node shape children, above, k :: p, _, _, h => by
    obtain ⟨c, hc, h⟩ := at?_cons_eq_some.1 h
    obtain ⟨shape', -, heq⟩ := withLoops_eq factors above shape children
    obtain ⟨found, below, hfound, hshape⟩ := @at?_lifted c (shape.scope ++ above) p _ _ h
    refine ⟨found, below, ?_, hshape⟩
    rw [heq, lifted]
    simp only [hc]
    rw [at?_under, at?_cons_eq_some]
    exact ⟨_, by rw [getElem?_withLoopsAll, hc]; rfl, hfound⟩

theorem lifted_cons (hc : children[k]? = some c) :
    (node shape children).lifted above (k :: p) =
      under (lacking above shape children) (k :: c.lifted (shape.scope ++ above) p) := by
  rw [lifted]
  simp only [hc]

/-- The loops put in are what stands in the bound tree and does not come from the tree. -/
theorem adds_iff_not_lifted {t : Tree} :
    ∀ {above : List Index} {q : List Nat} {v : Tree},
      (t.withLoops factors above).at? q = some v →
        ((∃ is, t.Adds above q is) ↔ ∀ p u, t.at? p = some u → t.lifted above p ≠ q) := by
  induction t using Tree.induct with
  | node shape children ih =>
    intro above q v h
    rcases at?_withLoops_cases h with rfl | ⟨hlacks, rfl⟩ | ⟨k, c, q, hc, rfl, hq⟩
    · refine iff_of_false (fun ⟨is, hadds⟩ => hadds.ne_nil rfl) fun hno => ?_
      exact hno [] _ rfl (by rw [lifted])
    · refine iff_of_true ⟨_, .put hlacks⟩ fun p u hu => ?_
      rcases p with _ | ⟨k, p⟩
      · simp [lifted]
      · obtain ⟨c, hc, -⟩ := at?_cons_eq_some.1 hu
        rw [lifted_cons hc]
        exact under_ne_singleton hlacks _ _
    · simp only [adds_under hc, ih c (List.mem_of_getElem? hc) hq]
      constructor
      · rintro hno (_ | ⟨j, p⟩) u hu
        · exact (under_ne_nil _ _ _).symm
        · obtain ⟨d, hd, hu⟩ := at?_cons_eq_some.1 hu
          rw [lifted_cons hd]
          intro heq
          obtain ⟨rfl, hlifted⟩ := under_inj.1 heq
          obtain rfl : c = d := Option.some.inj (hc.symm.trans hd)
          exact hno p u hu hlifted
      · intro hno p u hu heq
        refine hno (k :: p) u (at?_cons_eq_some.2 ⟨c, hc, hu⟩) ?_
        rw [lifted_cons hc, heq]

/-! ### What encloses them -/

theorem inValue_cons (hc : children[k]? = some c) : (node shape children).InValue (k :: p) ↔
    ((∃ names, shape = .letIn names) ∧ k + 1 < children.length) ∨ c.InValue p := by
  rw [InValue]
  simp only [hc]

theorem inValue_under {is : List Index} (hc : children[k]? = some c) (h : c.InValue p) :
    (node shape (wrap is children)).InValue (under is (k :: p)) := by
  rw [wrap, under]
  split
  · exact (inValue_cons hc).2 (.inr h)
  · exact (inValue_cons rfl).2 (.inr ((inValue_cons hc).2 (.inr h)))

theorem loops_subset_loopsAll {ts : List Tree} {t : Tree} (h : t ∈ ts) :
    loops above t ⊆ loopsAll above ts := by
  induction ts with
  | nil => cases h
  | cons u us ih =>
    rw [loopsAll]
    rcases List.mem_cons.1 h with rfl | h
    · exact List.subset_append_right _ _
    · exact List.subset_append_of_subset_left _ (ih h)

/-- A tree shows the loops of its children, but those of the values of a let. -/
theorem loops_subset_loops (hc : children[k]? = some c)
    (h : ∀ names, shape = .letIn names → children.length ≤ k + 1) :
    loops (shape.scope ++ above) c ⊆ loops above (node shape children) := by
  have hall : loops (shape.scope ++ above) c ⊆ loopsAll (shape.scope ++ above) children :=
    loops_subset_loopsAll (List.mem_of_getElem? hc)
  cases shape with
  | recipe g transpose => exact List.subset_append_of_subset_right _ hall
  | forAll is => exact List.subset_append_of_subset_right _ hall
  | letIn names =>
    have hk : k + 1 = children.length := by
      have := (List.getElem?_eq_some_iff.1 hc).1
      have := h names rfl
      omega
    obtain ⟨ts, last, rfl⟩ : ∃ ts last, children = ts ++ [last] :=
      ⟨_, _, (List.dropLast_append_getLast (List.ne_nil_of_length_eq_add_one hk.symm)).symm⟩
    obtain rfl : c = last := by
      rw [List.length_append, List.length_singleton, Nat.add_right_cancel_iff] at hk
      simpa [hk] using hc.symm
    rw [loops, loopsLast_append_singleton]
    exact List.Subset.refl _
  | _ => exact hall

/-- What is put into a tree shows outside, or else it is in a value of a let. -/
theorem Adds.inValue_or_subset_loops (factors : Index → List Index) (h : Adds above t p is) :
    (t.withLoops factors above).InValue p ∨ is ⊆ loops above t := by
  induction h with
  | @put above shape children lacks =>
    cases shape with
    | recipe g transpose => exact .inr (List.subset_append_left _ _)
    | _ => exact absurd rfl lacks
  | @child above is shape children k c p hc _ ih =>
    obtain ⟨shape', hshape, heq⟩ := withLoops_eq factors above shape children
    have hd : (withLoopsAll factors (shape.scope ++ above) children)[k]? =
        some (c.withLoops factors (shape.scope ++ above)) := by
      rw [getElem?_withLoopsAll, hc]
      rfl
    rw [heq]
    rcases ih with hvalue | hshown
    · exact .inl (inValue_under hd hvalue)
    · by_cases hlet : ∀ names, shape = .letIn names → children.length ≤ k + 1
      · exact .inr (List.Subset.trans hshown (loops_subset_loops hc hlet))
      · push Not at hlet
        obtain ⟨names, rfl, hk⟩ := hlet
        obtain rfl : shape' = .letIn names := by
          rcases hshape with rfl | ⟨_, _, _, hno, -⟩
          · rfl
          · cases hno
        refine .inl ((inValue_cons hd).2 (.inl ⟨⟨names, rfl⟩, ?_⟩))
        exact length_withLoopsAll children ▸ hk

theorem DeclaresTwice.of_child (hc : children[k]? = some c) (h : c.DeclaresTwice factors) :
    (node shape children).DeclaresTwice factors := by
  obtain ⟨p, g, transpose, below, hat, hno⟩ := h
  exact ⟨k :: p, g, transpose, below, at?_cons_eq_some.2 ⟨c, hc, hat⟩, hno⟩

theorem BindableAll.of_mem {ts : List Tree} (h : BindableAll factors above ts) {t : Tree}
    (ht : t ∈ ts) : t.Bindable factors above := by
  induction ts with
  | nil => cases ht
  | cons u us ih =>
    rcases List.mem_cons.1 ht with rfl | ht
    · exact h.1
    · exact ih h.2 ht

theorem Bindable.child (h : (node shape children).Bindable factors above)
    (hc : children[k]? = some c) : c.Bindable factors (shape.scope ++ above) := by
  have hmem := List.mem_of_getElem? hc
  cases shape with
  | recipe g transpose => exact h.1.of_mem hmem
  | _ => exact BindableAll.of_mem h hmem

theorem not_mem_loopsAll_of_mem_lacking {i : Index} (h : i ∈ lacking above shape children) :
    i ∉ loopsAll (shape.scope ++ above) children := by
  cases shape with
  | recipe g transpose => exact (mem_missing.1 h).2.2
  | _ => cases h

/-- Where no factor is declared twice, loops put around others share no factor with them. -/
theorem Bindable.disjoint_lacking (h : (node shape children).Bindable factors above)
    (hno : ¬ (node shape children).DeclaresTwice factors) {i j f : Index}
    (hi : i ∈ loopsAll (shape.scope ++ above) children) (hj : j ∈ lacking above shape children)
    (hfi : f ∈ factors i) : f ∉ factors j := by
  intro hfj
  cases shape with
  | recipe g transpose =>
    have hnodup : (g.toList.flatMap factors).Nodup := by
      by_contra htwice
      exact hno ⟨[], g, transpose, children, rfl, htwice⟩
    have hall := h.2.nodup_iff.2 (hnodup.sublist (List.filter_sublist.flatMap factors))
    rw [List.flatMap_append] at hall
    exact List.disjoint_of_nodup_append hall (List.mem_flatMap.2 ⟨j, hj, hfj⟩)
      (List.mem_flatMap.2 ⟨i, hi, hfi⟩)
  | _ => cases hj

theorem mem_scope_of_root {root : Shape} {children cs : List Tree} {j : Index}
    (hat : ((node root children).withLoops factors above).at? [] = some (node shape cs))
    (hj : j ∈ shape.scope) : j ∈ root.scope := by
  obtain ⟨root', hshape, heq⟩ := withLoops_eq factors above root children
  cases heq.symm.trans (Option.some.inj hat)
  rcases hshape with rfl | ⟨_, _, _, rfl, rfl⟩
  · exact hj
  · cases hj

/-- A loop put in binds nothing that an enclosing loop binds, unless that was put in too and the way
leads through a value of a let.  But indices may differ and still share a factor: then the enclosing
loop is one of the tree, or some recipe declares a factor twice. -/
theorem Adds.enclosed (h : Adds above t p is) (hb : t.Bindable factors above)
    (hpq : p = q ++ r) (hr : r ≠ []) {cs : List Tree}
    (hv : (t.withLoops factors above).at? q = some (node shape cs)) {i j f : Index} (hi : i ∈ is)
    (hj : j ∈ shape.scope) (hfi : f ∈ factors i) (hfj : f ∈ factors j) :
    (t.Adds above q shape.scope ∧ (node shape cs).InValue r) ∨
      (i ≠ j ∧ (t.Adds above q shape.scope → t.DeclaresTwice factors)) := by
  induction h generalizing q r with
  | @put above root children lacks =>
    rcases List.append_eq_singleton_iff.1 hpq.symm with ⟨rfl, -⟩ | ⟨-, hnil⟩
    · have hscope := mem_scope_of_root hv hj
      rw [scope_eq_nil lacks] at hscope
      cases hscope
    · exact absurd hnil hr
  | @child above is root children k c p hc hadds ih =>
    rcases at?_withLoops_cases hv with rfl | ⟨hlacks, rfl⟩ | ⟨k', c', q, hc', rfl, hq⟩
    · refine .inr ⟨?_, fun hno => absurd rfl hno.ne_nil⟩
      rintro rfl
      exact hadds.not_mem_above hi (List.mem_append_left _ (mem_scope_of_root hv hj))
    · -- the encloser is the loop put in around the children
      have hisEmpty : (lacking above root children).isEmpty ≠ true := by simpa using hlacks
      obtain ⟨root', -, heq⟩ := withLoops_eq factors above root children
      rw [heq, wrap, if_neg hisEmpty] at hv
      cases hv
      obtain rfl : k :: p = r := by
        rw [under, if_neg hisEmpty] at hpq
        simpa using hpq
      rcases hadds.inValue_or_subset_loops factors with hvalue | hshown
      · refine .inl ⟨.put hlacks, (inValue_cons ?_).2 (.inr hvalue)⟩
        rw [getElem?_withLoopsAll, hc]
        rfl
      · have hbelow : i ∈ loopsAll (root.scope ++ above) children :=
          loops_subset_loopsAll (List.mem_of_getElem? hc) (hshown hi)
        refine .inr ⟨?_, fun _ => ?_⟩
        · rintro rfl
          exact not_mem_loopsAll_of_mem_lacking hj hbelow
        · by_contra hno
          exact hb.disjoint_lacking hno hbelow hj hfi hfj
    · obtain ⟨rfl, rfl⟩ : k = k' ∧ p = q ++ r := by
        rw [under, under] at hpq
        split at hpq <;> simpa using hpq
      obtain rfl : c = c' := Option.some.inj (hc.symm.trans hc')
      rw [adds_under hc]
      exact (ih (hb.child hc) rfl hr hq hi).imp_right fun h =>
        ⟨h.1, fun hput => (h.2 hput).of_child hc⟩

end

end Tree

/-! ### The pass -/

namespace LoopBinding

open PassM

/-- What stands in a tree still stands in the bound tree where it has been lifted to, and all else
there are the loops put in.  None of these binds an index that a loop or sum around it binds, unless
that is a loop put in too, around a let in whose value the other is.  Where two different indices of
the two share a factor, the outer is one of the tree or some recipe declares a factor twice. -/
theorem enclosed_bind {root id : NodeId} {t : Tree} {w w' : Workspace Marks}
    (h : w.arena.WellFormed root t) (hok : bind root w = .ok id w') :
    ∃ u, w'.arena.Unfolds id u ∧
      (∀ p shape children, t.at? p = some (.node shape children) → ∃ shape' children',
        u.at? (t.lifted [] p) = some (.node shape' children') ∧
          (shape' = shape ∨ ∃ g old new, shape = .recipe g old ∧ shape' = .recipe g new)) ∧
      (∀ q v, u.at? q = some v →
        ((∃ is, t.Adds [] q is) ↔ ∀ p v', t.at? p = some v' → t.lifted [] p ≠ q)) ∧
      ∀ p is, t.Adds [] p is → (∃ cs, u.at? p = some (.node (.forAll is) cs)) ∧
        ∀ q r shape cs, p = q ++ r → r ≠ [] → u.at? q = some (.node shape cs) →
          ∀ i ∈ is, ∀ j ∈ shape.scope, ∀ f ∈ w.arena.factors i, f ∈ w.arena.factors j →
            (t.Adds [] q shape.scope ∧ (Tree.node shape cs).InValue r) ∨
              (i ≠ j ∧ (t.Adds [] q shape.scope → t.DeclaresTwice w.arena.factors)) := by
  have hb : t.Bindable w.arena.factors [] := (decides_bind h).ok_iff.1.1 ⟨_, _, hok⟩
  obtain ⟨-, hun⟩ := (decides_bind h).ok_iff.2 _ _ hok
  refine ⟨_, hun, fun p shape children => Tree.at?_lifted, fun q v => Tree.adds_iff_not_lifted,
    fun p is hadds => ?_⟩
  refine ⟨hadds.exists_forAll _, fun q r shape cs hpq hr hv i hi j hj f hfi hfj => ?_⟩
  exact hadds.enclosed hb hpq hr hv hi hj hfi hfj

/-- A recipe that declares an index, and below it a let whose value is a recipe that declares it
too. -/
def privateLoop : Arena where
  nodes := #[.var "u", .recipe ⟨⟨[⟨0⟩], [], []⟩, ⟨0⟩, none⟩, .var "x", .letIn [⟨"x", ⟨1⟩⟩] ⟨2⟩,
    .recipe ⟨⟨[⟨0⟩], [], []⟩, ⟨3⟩, none⟩]
  indices := #[⟨"i", 2, .domain, []⟩]

/-- What the recipe is as a tree. -/
def privateLoopTree : Tree :=
  .node (.recipe ⟨[⟨0⟩], [], []⟩ none) [.node (.letIn ["x"])
    [.node (.recipe ⟨[⟨0⟩], [], []⟩ none) [.node (.var "u") []], .node (.var "x") []]]

theorem wellFormed_privateLoop : privateLoop.WellFormed ⟨4⟩ privateLoopTree := by
  have hvalue : privateLoop.Unfolds ⟨1⟩
      (.node (.recipe ⟨[⟨0⟩], [], []⟩ none) [.node (.var "u") []]) :=
    ⟨_, rfl, rfl, ⟨_, rfl, rfl, trivial⟩, trivial⟩
  have hbody : privateLoop.Unfolds ⟨2⟩ (.node (.var "x") []) := ⟨_, rfl, rfl, trivial⟩
  refine ⟨⟨_, rfl, rfl, ⟨_, rfl, rfl, hvalue, hbody, trivial⟩, trivial⟩, ?_⟩
  have hi : privateLoop.Resolves ⟨0⟩ := .intro rfl (by simp [privateLoop])
  simp [privateLoopTree, Tree.indices, Tree.indicesAll, Shape.indices, IndexDeclaration.toList, hi]

theorem bindable_privateLoop : privateLoopTree.Bindable privateLoop.factors [] :=
  ⟨⟨⟨⟨⟨trivial, trivial⟩, by decide⟩, trivial, trivial⟩, trivial⟩, by decide⟩

/-- Both recipes get a loop over the index, one around the other. -/
theorem adds_privateLoop : privateLoopTree.Adds [] [0] [⟨0⟩] ∧
    privateLoopTree.Adds [] [0, 0, 0, 0] [⟨0⟩] := by
  refine ⟨.put (by decide), ?_⟩
  have hvalue : Tree.Adds [] (.node (.recipe ⟨[⟨0⟩], [], []⟩ none) [.node (.var "u") []]) [0] [⟨0⟩] :=
    .put (by decide)
  have hlet : Tree.Adds [] (.node (.letIn ["x"])
      [.node (.recipe ⟨[⟨0⟩], [], []⟩ none) [.node (.var "u") []], .node (.var "x") []])
      [0, 0] [⟨0⟩] := .child (k := 0) rfl hvalue
  exact .child (k := 0) rfl hlet

/-- The inner loop is in the value of the let. -/
theorem enclosed_bind_privateLoop :
    ∃ id w' u cs, bind ⟨4⟩ ⟨privateLoop, [], .empty⟩ = .ok id w' ∧ w'.arena.Unfolds id u ∧
      u.at? [0] = some (.node (.forAll [⟨0⟩]) cs) ∧
      (Tree.node (.forAll [⟨0⟩]) cs).InValue [0, 0, 0] := by
  obtain ⟨id, w', hok, -, hun⟩ := (decides_bind (w := ⟨privateLoop, [], .empty⟩)
    wellFormed_privateLoop).1 bindable_privateLoop
  obtain ⟨u, hu, -, -, hadds⟩ := enclosed_bind wellFormed_privateLoop hok
  obtain ⟨⟨cs, hcs⟩, -⟩ := hadds _ _ adds_privateLoop.1
  obtain ⟨-, henclosed⟩ := hadds _ _ adds_privateLoop.2
  have hfactor : (⟨0⟩ : Index) ∈ privateLoop.factors ⟨0⟩ := by decide
  rcases henclosed [0] [0, 0, 0] _ cs rfl (by simp) hcs ⟨0⟩ (by simp) ⟨0⟩ (by simp [Shape.scope])
    ⟨0⟩ hfactor hfactor with ⟨-, hvalue⟩ | ⟨hne, -⟩
  · exact ⟨id, w', u, cs, hok, hu, hcs, hvalue⟩
  · exact absurd rfl hne

/-- So a loop put in may bind an index that is bound around it. -/
theorem enclosed_again_of_privateLoop :
    ¬ ∀ (w w' : Workspace Marks) (root id : NodeId) (t u : Tree), w.arena.WellFormed root t →
      bind root w = .ok id w' → w'.arena.Unfolds id u → ∀ p is, t.Adds [] p is →
        ∀ q r shape cs, p = q ++ r → r ≠ [] → u.at? q = some (.node shape cs) →
          ∀ i ∈ is, ∀ j ∈ shape.scope, ∀ f ∈ w.arena.factors i, f ∉ w.arena.factors j := by
  intro h
  obtain ⟨id, w', hok, -, hun⟩ := (decides_bind (w := ⟨privateLoop, [], .empty⟩)
    wellFormed_privateLoop).1 bindable_privateLoop
  have hfactor : (⟨0⟩ : Index) ∈ privateLoop.factors ⟨0⟩ := by decide
  obtain ⟨cs, hcs⟩ := adds_privateLoop.1.exists_forAll privateLoop.factors
  exact h _ _ _ _ _ _ wellFormed_privateLoop hok hun _ _ adds_privateLoop.2 [0] [0, 0, 0] _ cs rfl
    (by simp) hcs ⟨0⟩ (by simp) ⟨0⟩ (by simp [Shape.scope]) ⟨0⟩ hfactor hfactor

end LoopBinding

end TensorRecipe
