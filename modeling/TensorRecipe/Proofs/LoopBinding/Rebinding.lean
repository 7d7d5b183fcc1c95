import TensorRecipe.Proofs.LoopBinding.Claiming
import TensorRecipe.Proofs.LoopBinding.Completeness

/-!
# Binding twice

Binding a tree whose indices are bound puts no further loop in.  What it may change are transposes,
since loops are put in and read off in different ways: of several indices in one loop the first is
recorded as the outermost when the loop is put in, and as the innermost when it is found in the
tree.  So nothing changes just when each group of loops put in, `Tree.added`, flattens to the same
factors either way round.

And it may fail.  The loops of a let's value do not count outside, so binding may put a loop over an
index around a let with a recipe over the same index in a value; there the index is then bound from
outside, yet still looped over.  `Tree.Uncovered` says that this is not so.  Main statement:
`bind_bind`.
-/

namespace TensorRecipe

theorem getElem?_positions {declared loops : List Index} (h : loops.Perm declared) :
    (positions declared loops).map (declared[·]?) = loops.map some := by
  obtain ⟨ps, hps⟩ := transposition_isOk_iff.2 h
  rw [positions, hps]
  exact (transposition_eq_ok_iff.1 hps).get

/-- A transpose tells the order of the loops. -/
theorem positions_inj {declared loops loops' : List Index} (h : loops.Perm declared)
    (h' : loops'.Perm declared) :
    positions declared loops = positions declared loops' ↔ loops = loops' := by
  refine ⟨fun heq => ?_, fun heq => by rw [heq]⟩
  have hsome : loops.map some = loops'.map some := by
    rw [← getElem?_positions h, heq, getElem?_positions h']
  exact (Option.some_injective Index).list_map hsome

namespace Tree

/-! ### What binding adds -/

mutual

/-- The loops that binding puts in, one group for each recipe. -/
def added (above : List Index) : Tree → List (List Index)
  | node (.recipe g _) children =>
    g.missing above (loopsAll above children) :: addedAll above children
  | node shape children => addedAll (shape.scope ++ above) children

/-- The loops that binding puts into several trees. -/
def addedAll (above : List Index) : List Tree → List (List Index)
  | [] => []
  | t :: ts => added above t ++ addedAll above ts

end

mutual

/-- No recipe declares an index that only loops put around it bind, the `new` ones among them. -/
def Uncovered (above new : List Index) : Tree → Prop
  | node (.recipe g _) children =>
    (∀ i ∈ g.toList, i ∈ new → i ∈ above) ∧
      UncoveredAll above (g.missing above (loopsAll above children) ++ new) children
  | node shape children => UncoveredAll (shape.scope ++ above) new children

/-- None of the trees has such a recipe. -/
def UncoveredAll (above new : List Index) : List Tree → Prop
  | [] => True
  | t :: ts => Uncovered above new t ∧ UncoveredAll above new ts

end

mutual

/-- The tree without its transposes. -/
def untransposed : Tree → Tree
  | node (.recipe g _) children => node (.recipe g none) (untransposedAll children)
  | node shape children => node shape (untransposedAll children)

/-- The trees without their transposes. -/
def untransposedAll : List Tree → List Tree
  | [] => []
  | t :: ts => untransposed t :: untransposedAll ts

end

section

variable {factors : Index → List Index}

/-! ### Loops put in -/

theorem loopsAll_wrap {above is : List Index} {ts : List Tree} :
    loopsAll above (wrap is ts) = is.reverse ++ loopsAll (is ++ above) ts := by
  rw [wrap]
  split
  · next h =>
    obtain rfl : is = [] := by simpa using h
    rfl
  · simp [loopsAll, loops]

theorem bindableAll_wrap {above is : List Index} {ts : List Tree} :
    BindableAll factors above (wrap is ts) ↔ BindableAll factors (is ++ above) ts := by
  rw [wrap]
  split
  · next h =>
    obtain rfl : is = [] := by simpa using h
    rfl
  · simp [BindableAll, Bindable, Shape.scope]

theorem withLoopsAll_wrap {above is : List Index} {ts : List Tree} :
    withLoopsAll factors above (wrap is ts) =
      wrap is (withLoopsAll factors (is ++ above) ts) := by
  rw [wrap, wrap]
  split
  · next h =>
    obtain rfl : is = [] := by simpa using h
    rfl
  · simp [withLoopsAll, withLoops, Shape.scope]

theorem untransposedAll_wrap {is : List Index} {ts : List Tree} :
    untransposedAll (wrap is ts) = wrap is (untransposedAll ts) := by
  rw [wrap, wrap]
  split <;> simp [untransposedAll, untransposed]

theorem wrap_inj {is : List Index} {ts us : List Tree} : wrap is ts = wrap is us ↔ ts = us := by
  rw [wrap, wrap]
  split <;> simp

theorem untransposed_node {shape : Shape} {children : List Tree}
    (h : ∀ g transpose, shape ≠ .recipe g transpose) :
    (node shape children).untransposed = node shape (untransposedAll children) := by
  cases shape
  case recipe g transpose => exact absurd rfl (h g transpose)
  all_goals rfl

theorem bindable_node {above : List Index} {shape : Shape} {children : List Tree}
    (h : ∀ g transpose, shape ≠ .recipe g transpose) :
    (node shape children).Bindable factors above ↔
      BindableAll factors (shape.scope ++ above) children := by
  cases shape
  case recipe g transpose => exact absurd rfl (h g transpose)
  all_goals rfl

theorem added_node {above : List Index} {shape : Shape} {children : List Tree}
    (h : ∀ g transpose, shape ≠ .recipe g transpose) :
    (node shape children).added above = addedAll (shape.scope ++ above) children := by
  cases shape
  case recipe g transpose => exact absurd rfl (h g transpose)
  all_goals rfl

theorem uncovered_node {above new : List Index} {shape : Shape} {children : List Tree}
    (h : ∀ g transpose, shape ≠ .recipe g transpose) :
    (node shape children).Uncovered above new ↔
      UncoveredAll (shape.scope ++ above) new children := by
  cases shape
  case recipe g transpose => exact absurd rfl (h g transpose)
  all_goals rfl

/-- Nothing is missing any more from a recipe whose missing loops have been put in. -/
theorem missing_eq_nil {g : IndexDeclaration} {above above' below below' : List Index}
    (h : above ⊆ above') (hp : below'.Perm below) :
    g.missing above' ((g.missing above below).reverse ++ below') = [] := by
  rw [IndexDeclaration.missing, List.filter_eq_nil_iff]
  intro i hi
  have := @h i
  simp only [List.mem_append, List.mem_reverse, mem_missing, hp.mem_iff, decide_eq_true_eq]
  tauto

theorem append_subset_append {is above above' : List Index} (h : above ⊆ above') :
    is ++ above ⊆ is ++ above' :=
  List.append_subset.2 ⟨List.subset_append_left _ _, List.subset_append_of_subset_right _ h⟩

mutual

/-- A bound tree shows the loops that the tree did before, if in another order. -/
theorem perm_loops_withLoops :
    ∀ {t : Tree} {above above' : List Index}, above ⊆ above' →
      (loops above' (t.withLoops factors above)).Perm (loops above t)
  | node shape children, above, above', h => by
    cases shape with
    | recipe g transpose =>
      have hp := @perm_loopsAll_withLoopsAll children _ _
        (List.subset_append_of_subset_right (g.missing above (loopsAll above children)) h)
      rw [withLoops, loops, loopsAll_wrap, missing_eq_nil h hp]
      exact (List.reverse_perm _).append hp
    | forAll is => exact (perm_loopsAll_withLoopsAll (append_subset_append h)).append_left _
    | indexSum is => exact perm_loopsAll_withLoopsAll (append_subset_append h)
    | letIn names => exact perm_loopsLast_withLoopsAll h
    | _ => exact perm_loopsAll_withLoopsAll h

theorem perm_loopsAll_withLoopsAll :
    ∀ {ts : List Tree} {above above' : List Index}, above ⊆ above' →
      (loopsAll above' (withLoopsAll factors above ts)).Perm (loopsAll above ts)
  | [], _, _, _ => .refl _
  | _ :: _, _, _, h => (perm_loopsAll_withLoopsAll h).append (perm_loops_withLoops h)

theorem perm_loopsLast_withLoopsAll :
    ∀ {ts : List Tree} {above above' : List Index}, above ⊆ above' →
      (loopsLast above' (withLoopsAll factors above ts)).Perm (loopsLast above ts)
  | [], _, _, _ => .refl _
  | [_], _, _, h => perm_loops_withLoops h
  | _ :: t :: ts, _, _, h => @perm_loopsLast_withLoopsAll (t :: ts) _ _ h

end

theorem missing_withLoopsAll {g : IndexDeclaration} {above above' : List Index}
    {children : List Tree} (h : above ⊆ above') :
    g.missing above' ((g.missing above (loopsAll above children)).reverse ++
      loopsAll (g.missing above (loopsAll above children) ++ above')
        (withLoopsAll factors above children)) = [] :=
  missing_eq_nil h (perm_loopsAll_withLoopsAll (List.subset_append_of_subset_right _ h))

theorem perm_flatMap_withLoopsAll {g : IndexDeclaration} {above above' : List Index}
    {children : List Tree} (h : above ⊆ above') :
    (((g.missing above (loopsAll above children)).reverse ++
        loopsAll (g.missing above (loopsAll above children) ++ above')
          (withLoopsAll factors above children)).flatMap factors).Perm
      ((g.missing above (loopsAll above children) ++ loopsAll above children).flatMap factors) :=
  ((List.reverse_perm _).append (perm_loopsAll_withLoopsAll
    (List.subset_append_of_subset_right _ h))).flatMap_right factors

mutual

/-- Where no group of loops put in depends on its order, the loops shown are the same. -/
theorem flatMap_loops_withLoops :
    ∀ {t : Tree} {above above' : List Index}, above ⊆ above' →
      (∀ is ∈ t.added above, is.reverse.flatMap factors = is.flatMap factors) →
      (loops above' (t.withLoops factors above)).flatMap factors = (loops above t).flatMap factors
  | node shape children, above, above', h, hsame => by
    cases shape with
    | recipe g transpose =>
      obtain ⟨hgroup, hrest⟩ := List.forall_mem_cons.1 hsame
      have h' := List.subset_append_of_subset_right (g.missing above (loopsAll above children)) h
      rw [withLoops, loops, loops, loopsAll_wrap, missing_withLoopsAll h, List.nil_append,
        List.flatMap_append, List.flatMap_append, hgroup, flatMap_loopsAll_withLoopsAll h' hrest]
    | forAll is =>
      have h' : is ++ above ⊆ is ++ above' := append_subset_append h
      have hbody := flatMap_loopsAll_withLoopsAll h' hsame
      simpa only [withLoops, loops, Shape.scope, List.flatMap_append,
        List.append_cancel_left_eq] using hbody
    | indexSum is => exact flatMap_loopsAll_withLoopsAll (append_subset_append h) hsame
    | letIn names => exact flatMap_loopsLast_withLoopsAll h hsame
    | _ => exact flatMap_loopsAll_withLoopsAll h hsame

theorem flatMap_loopsAll_withLoopsAll :
    ∀ {ts : List Tree} {above above' : List Index}, above ⊆ above' →
      (∀ is ∈ addedAll above ts, is.reverse.flatMap factors = is.flatMap factors) →
      (loopsAll above' (withLoopsAll factors above ts)).flatMap factors =
        (loopsAll above ts).flatMap factors
  | [], _, _, _, _ => rfl
  | t :: ts, above, above', h, hsame => by
    obtain ⟨hhead, htail⟩ := List.forall_mem_append.1 hsame
    rw [withLoopsAll, loopsAll, loopsAll, List.flatMap_append, List.flatMap_append,
      flatMap_loops_withLoops h hhead, flatMap_loopsAll_withLoopsAll h htail]

theorem flatMap_loopsLast_withLoopsAll :
    ∀ {ts : List Tree} {above above' : List Index}, above ⊆ above' →
      (∀ is ∈ addedAll above ts, is.reverse.flatMap factors = is.flatMap factors) →
      (loopsLast above' (withLoopsAll factors above ts)).flatMap factors =
        (loopsLast above ts).flatMap factors
  | [], _, _, _, _ => rfl
  | [_], _, _, h, hsame => flatMap_loops_withLoops h (by simpa [addedAll] using hsame)
  | _ :: t :: ts, _, _, h, hsame =>
    @flatMap_loopsLast_withLoopsAll (t :: ts) _ _ h (List.forall_mem_append.1 hsame).2

end

/-! ### When binding again succeeds -/

/-- Loops that are put around the children are new to them. -/
theorem mem_put_append_iff (put : List Index) {above above' new : List Index}
    (hnew : ∀ i, i ∈ above' ↔ i ∈ new ∨ i ∈ above) :
    ∀ i, i ∈ put ++ above' ↔ i ∈ put ++ new ∨ i ∈ above := by
  simp [hnew, or_assoc]

/-- Loops of the tree itself are not new to the children. -/
theorem mem_own_append_iff {own above above' new : List Index}
    (hnew : ∀ i, i ∈ above' ↔ i ∈ new ∨ i ∈ above) :
    ∀ i, i ∈ own ++ above' ↔ i ∈ new ∨ i ∈ own ++ above := by
  intro i
  rw [List.mem_append, List.mem_append, hnew, or_left_comm]

/-- More indices bound around a recipe leave it the same factors just when it declares none of
them. -/
theorem perm_flatMap_filter_iff {declared above above' : List Index}
    (hne : ∀ i ∈ declared, factors i ≠ []) (h : above ⊆ above') :
    ((declared.filter (· ∉ above)).flatMap factors).Perm
        ((declared.filter (· ∉ above')).flatMap factors) ↔
      ∀ i ∈ declared, i ∈ above' → i ∈ above := by
  constructor
  · intro hperm
    -- what is bound by `above'` alone makes no difference, hence it is nothing
    have hkept : (declared.filter (· ∉ above)).filter (· ∉ above') =
        declared.filter (· ∉ above') := by
      rw [List.filter_filter]
      refine List.filter_congr fun i _ => ?_
      have := @h i
      simp only [← Bool.decide_and, decide_eq_decide]
      tauto
    have hsplit := (List.filter_append_perm (· ∉ above')
      (declared.filter (· ∉ above))).flatMap_right factors
    rw [hkept, List.flatMap_append] at hsplit
    have hlen := hsplit.length_eq.trans hperm.length_eq
    rw [List.length_append] at hlen
    have hnil := List.flatMap_eq_nil_iff.1 (List.length_eq_zero_iff.1 (Nat.add_eq_left.1 hlen))
    intro i hi hi'
    by_contra hno
    exact hne i hi (hnil i (by simp [hi, hi', hno]))
  · intro hiff
    rw [List.filter_congr (q := (· ∉ above')) fun i hi => ?_]
    have := @h i
    have := hiff i hi
    simp only [decide_eq_decide]
    tauto

mutual

/-- A bound tree can be bound once more just when no recipe in it is covered. -/
theorem bindable_withLoops_iff :
    ∀ {t : Tree} {above above' new : List Index}, (∀ i ∈ t.indices, factors i ≠ []) →
      (∀ i, i ∈ above' ↔ i ∈ new ∨ i ∈ above) → t.Bindable factors above →
        ((t.withLoops factors above).Bindable factors above' ↔ t.Uncovered above new)
  | node shape children, above, above', new, hne, hnew, hb => by
    obtain ⟨hneShape, hneAll⟩ := List.forall_mem_append.1 hne
    have hsub : above ⊆ above' := fun i hi => (hnew i).2 (.inr hi)
    obtain ⟨g, transpose, rfl⟩ | hr := shape.recipe_or
    · obtain ⟨hbAll, hbPerm⟩ := hb
      have hshown := (perm_flatMap_withLoopsAll hsub).trans hbPerm
      have hdeclared : (∀ i ∈ g.toList, i ∈ new → i ∈ above) ↔
          ∀ i ∈ g.toList, i ∈ above' → i ∈ above := by
        refine forall₂_congr fun i _ => ?_
        rw [hnew]
        tauto
      have hchildren := bindableAll_withLoopsAll_iff hneAll
        (mem_put_append_iff (g.missing above (loopsAll above children)) hnew) hbAll
      rw [withLoops, Bindable, loopsAll_wrap, missing_withLoopsAll hsub, List.nil_append,
        bindableAll_wrap, Uncovered, hshown.congr_left,
        perm_flatMap_filter_iff (show ∀ i ∈ g.toList, factors i ≠ [] from hneShape) hsub,
        hdeclared, hchildren, and_comm]
    · rw [withLoops_node hr, bindable_node hr, uncovered_node hr]
      exact bindableAll_withLoopsAll_iff hneAll (mem_own_append_iff hnew) ((bindable_node hr).1 hb)

theorem bindableAll_withLoopsAll_iff :
    ∀ {ts : List Tree} {above above' new : List Index}, (∀ i ∈ indicesAll ts, factors i ≠ []) →
      (∀ i, i ∈ above' ↔ i ∈ new ∨ i ∈ above) → BindableAll factors above ts →
        (BindableAll factors above' (withLoopsAll factors above ts) ↔ UncoveredAll above new ts)
  | [], _, _, _, _, _, _ => .rfl
  | t :: ts, _, _, _, hne, hnew, hb => by
    obtain ⟨hneHead, hneTail⟩ := List.forall_mem_append.1 hne
    exact and_congr (bindable_withLoops_iff hneHead hnew hb.1)
      (bindableAll_withLoopsAll_iff hneTail hnew hb.2)

end

/-! ### What binding again changes -/

theorem withLoops_withLoops_recipe {g : IndexDeclaration} {transpose : Option (List Nat)}
    {above above' : List Index} {children : List Tree} (h : above ⊆ above') :
    ((node (.recipe g transpose) children).withLoops factors above).withLoops factors above' =
      let missing := g.missing above (loopsAll above children)
      let bound := withLoopsAll factors above children
      node
        (.recipe g (some (positions ((g.toList.filter (· ∉ above')).flatMap factors)
          ((missing.reverse ++ loopsAll (missing ++ above') bound).flatMap factors))))
        (wrap missing (withLoopsAll factors (missing ++ above') bound)) := by
  rw [withLoops, withLoops, withLoopsAll_wrap, loopsAll_wrap, missing_withLoopsAll h,
    List.nil_append]
  rfl

mutual

theorem untransposed_withLoops_withLoops :
    ∀ {t : Tree} {above above' : List Index}, above ⊆ above' →
      ((t.withLoops factors above).withLoops factors above').untransposed =
        (t.withLoops factors above).untransposed
  | node shape children, above, above', h => by
    obtain ⟨g, transpose, rfl⟩ | hr := shape.recipe_or
    · rw [withLoops_withLoops_recipe h, withLoops, untransposed, untransposed,
        untransposedAll_wrap, untransposedAll_wrap, untransposedAll_withLoopsAll_withLoopsAll
          (List.subset_append_of_subset_right _ h)]
    · rw [withLoops_node hr, withLoops_node hr, untransposed_node hr, untransposed_node hr,
        untransposedAll_withLoopsAll_withLoopsAll (append_subset_append h)]

theorem untransposedAll_withLoopsAll_withLoopsAll :
    ∀ {ts : List Tree} {above above' : List Index}, above ⊆ above' →
      untransposedAll (withLoopsAll factors above' (withLoopsAll factors above ts)) =
        untransposedAll (withLoopsAll factors above ts)
  | [], _, _, _ => rfl
  | t :: ts, above, above', h => by
    rw [withLoopsAll, withLoopsAll, untransposedAll, untransposedAll,
      untransposed_withLoops_withLoops h, untransposedAll_withLoopsAll_withLoopsAll h]

end

mutual

/-- Binding again changes nothing at all just when no group of loops put in depends on its
order. -/
theorem withLoops_withLoops_iff :
    ∀ {t : Tree} {above above' new : List Index}, (∀ i, i ∈ above' ↔ i ∈ new ∨ i ∈ above) →
      t.Bindable factors above → t.Uncovered above new →
        ((t.withLoops factors above).withLoops factors above' = t.withLoops factors above ↔
          ∀ is ∈ t.added above, is.reverse.flatMap factors = is.flatMap factors)
  | node shape children, above, above', new, hnew, hb, hc => by
    have hsub : above ⊆ above' := fun i hi => (hnew i).2 (.inr hi)
    obtain ⟨g, transpose, rfl⟩ | hr := shape.recipe_or
    · obtain ⟨hbAll, hbPerm⟩ := hb
      obtain ⟨hdeclared, hcAll⟩ := hc
      have hsub' := List.subset_append_of_subset_right
        (g.missing above (loopsAll above children)) hsub
      have hshown := (perm_flatMap_withLoopsAll hsub).trans hbPerm
      have hleft : g.toList.filter (· ∉ above') = g.toList.filter (· ∉ above) := by
        refine List.filter_congr fun i hi => ?_
        have := hdeclared i hi
        simp only [hnew, decide_eq_decide]
        tauto
      have hchildren := withLoopsAll_withLoopsAll_iff
        (mem_put_append_iff (g.missing above (loopsAll above children)) hnew) hbAll hcAll
      rw [withLoops_withLoops_recipe hsub, withLoops, added, List.forall_mem_cons, hleft]
      simp only [node.injEq, Shape.recipe.injEq, Option.some.injEq, true_and, wrap_inj]
      rw [positions_inj hshown hbPerm, hchildren]
      -- the loops of the children agree by now, so the two lists differ at most in the group
      refine and_congr_left fun hsame => ?_
      rw [List.flatMap_append, List.flatMap_append, flatMap_loopsAll_withLoopsAll hsub' hsame,
        List.append_cancel_right_eq]
    · rw [withLoops_node hr, withLoops_node hr, added_node hr, node.injEq]
      refine (and_iff_right rfl).trans ?_
      exact withLoopsAll_withLoopsAll_iff (mem_own_append_iff hnew) ((bindable_node hr).1 hb)
        ((uncovered_node hr).1 hc)

theorem withLoopsAll_withLoopsAll_iff :
    ∀ {ts : List Tree} {above above' new : List Index}, (∀ i, i ∈ above' ↔ i ∈ new ∨ i ∈ above) →
      BindableAll factors above ts → UncoveredAll above new ts →
        (withLoopsAll factors above' (withLoopsAll factors above ts) =
            withLoopsAll factors above ts ↔
          ∀ is ∈ addedAll above ts, is.reverse.flatMap factors = is.flatMap factors)
  | [], _, _, _, _, _, _ => by simp [withLoopsAll, addedAll]
  | t :: ts, _, _, _, hnew, hb, hc => by
    rw [withLoopsAll, withLoopsAll, List.cons.injEq, addedAll, List.forall_mem_append,
      withLoops_withLoops_iff hnew hb.1 hc.1, withLoopsAll_withLoopsAll_iff hnew hb.2 hc.2]

end

end

/-! ### Where no recipe is covered -/

mutual

/-- No recipe stands in a value of a let, so that binding has nothing to put in there. -/
def PlainValues : Tree → Prop
  | node (.letIn _) children => PlainValuesLast children
  | node _ children => PlainValuesAll children

/-- No recipe stands in a value of a let in any of the trees. -/
def PlainValuesAll : List Tree → Prop
  | [] => True
  | t :: ts => PlainValues t ∧ PlainValuesAll ts

/-- Nor does one stand in any of the trees but the last. -/
def PlainValuesLast : List Tree → Prop
  | [] => True
  | [t] => PlainValues t
  | t :: ts => (∀ above, t.added above = []) ∧ PlainValuesLast ts

end

mutual

theorem uncovered_of_added_eq_nil :
    ∀ {t : Tree} {above new : List Index}, t.added above = [] → t.Uncovered above new
  | node shape children, above, new, h => by
    cases shape with
    | recipe g transpose => exact absurd h (by simp [added])
    | _ => exact uncoveredAll_of_addedAll_eq_nil h

theorem uncoveredAll_of_addedAll_eq_nil :
    ∀ {ts : List Tree} {above new : List Index}, addedAll above ts = [] →
      UncoveredAll above new ts
  | [], _, _, _ => trivial
  | _ :: _, _, _, h => by
    obtain ⟨hhead, htail⟩ := List.append_eq_nil_iff.1 h
    exact ⟨uncovered_of_added_eq_nil hhead, uncoveredAll_of_addedAll_eq_nil htail⟩

end

mutual

/-- A recipe shows what it declares to the recipes around it, unless it stands in a value of a let;
so they put no loop over it around it. -/
theorem uncovered_of_plainValues :
    ∀ {t : Tree} {above new : List Index}, t.PlainValues → (∀ i ∈ new, i ∉ loops above t) →
      t.Uncovered above new
  | node shape children, above, new, h, hnew => by
    cases shape with
    | recipe g transpose =>
      have hnew' : ∀ i ∈ new, i ∉ g.missing above (loopsAll above children) ∧
          i ∉ loopsAll above children := fun i hi => by
        simpa [loops, not_or] using hnew i hi
      refine ⟨fun i hi hin => ?_, uncoveredAll_of_plainValuesAll h fun i hi => ?_⟩
      · obtain ⟨hmissing, hbelow⟩ := hnew' i hin
        rw [mem_missing] at hmissing
        tauto
      · rcases List.mem_append.1 hi with hi | hi
        · exact (mem_missing.1 hi).2.2
        · exact (hnew' i hi).2
    | forAll is =>
      refine uncoveredAll_of_plainValuesAll h fun i hi hbelow => hnew i hi ?_
      exact List.mem_append_right _ hbelow
    | letIn names => exact uncoveredAll_of_plainValuesLast h hnew
    | _ => exact uncoveredAll_of_plainValuesAll h hnew

theorem uncoveredAll_of_plainValuesAll :
    ∀ {ts : List Tree} {above new : List Index}, PlainValuesAll ts →
      (∀ i ∈ new, i ∉ loopsAll above ts) → UncoveredAll above new ts
  | [], _, _, _, _ => trivial
  | t :: ts, above, new, h, hnew => by
    have hnew' : ∀ i ∈ new, i ∉ loopsAll above ts ∧ i ∉ loops above t := fun i hi => by
      simpa [loopsAll, not_or] using hnew i hi
    exact ⟨uncovered_of_plainValues h.1 fun i hi => (hnew' i hi).2,
      uncoveredAll_of_plainValuesAll h.2 fun i hi => (hnew' i hi).1⟩

theorem uncoveredAll_of_plainValuesLast :
    ∀ {ts : List Tree} {above new : List Index}, PlainValuesLast ts →
      (∀ i ∈ new, i ∉ loopsLast above ts) → UncoveredAll above new ts
  | [], _, _, _, _ => trivial
  | [_], _, _, h, hnew => ⟨uncovered_of_plainValues h hnew, trivial⟩
  | _ :: t :: ts, _, _, h, hnew =>
    ⟨uncovered_of_added_eq_nil (h.1 _), @uncoveredAll_of_plainValuesLast (t :: ts) _ _ h.2 hnew⟩

end

end Tree

/-! ### The pass -/

namespace LoopBinding

open PassM

/-- Binding the result of binding succeeds just when no recipe is covered; so it does where no value
of a let holds a recipe.  It then puts no further loop in and leaves all but transposes as it is, and
these too just when each group of loops put in flattens to the same factors either way round; so it
does where no recipe lacks more than one loop. -/
theorem bind_bind {root id : NodeId} {t : Tree} {w w' v : Workspace Marks}
    (h : w.arena.WellFormed root t) (hok : bind root w = .ok id w') (hv : v.arena = w'.arena) :
    ((∃ id' v', bind id v = .ok id' v') ↔ t.Uncovered [] []) ∧
      (t.PlainValues → t.Uncovered [] []) ∧
      ∀ id' v', bind id v = .ok id' v' → ∃ u u', v'.arena.Unfolds id u ∧ v'.arena.Unfolds id' u' ∧
        u'.untransposed = u.untransposed ∧
        (u' = u ↔ ∀ is ∈ t.added [],
          is.reverse.flatMap w.arena.factors = is.flatMap w.arena.factors) ∧
        ((∀ is ∈ t.added [], is.length ≤ 1) → u' = u) := by
  have hb : t.Bindable w.arena.factors [] := (decides_bind h).ok_iff.1.1 ⟨_, _, hok⟩
  obtain ⟨hext, hun⟩ := (decides_bind h).ok_iff.2 _ _ hok
  have hF : v.arena.factors = w.arena.factors := Arena.factors_congr (hv ▸ hext.indices)
  have hwf : v.arena.WellFormed id (t.withLoops w.arena.factors []) :=
    hv ▸ wellFormed_withLoops h hext hun
  have hne : ∀ i ∈ t.indices, w.arena.factors i ≠ [] := fun i hi => (h.resolves i hi).factors_ne_nil
  have hnone : ∀ i : Index, i ∈ ([] : List Index) ↔ i ∈ ([] : List Index) ∨ i ∈ [] := by simp
  have hiff := Tree.bindable_withLoops_iff hne hnone hb
  have hrun := decides_bind hwf
  rw [hF] at hrun
  refine ⟨hrun.ok_iff.1.trans hiff,
    fun hplain => Tree.uncovered_of_plainValues hplain fun _ hi => absurd hi List.not_mem_nil,
    fun id' v' hok' => ?_⟩
  obtain ⟨hext', hun'⟩ := hrun.ok_iff.2 _ _ hok'
  have hclear := hiff.1 (hrun.ok_iff.1.1 ⟨_, _, hok'⟩)
  have hsame := Tree.withLoops_withLoops_iff hnone hb hclear
  refine ⟨_, _, hwf.unfolds.mono hext', hun',
    Tree.untransposed_withLoops_withLoops (List.Subset.refl []), hsame, fun hshort => ?_⟩
  refine hsame.2 fun is his => ?_
  match is, hshort is his with
  | [], _ => rfl
  | [_], _ => rfl

/-- A recipe with one missing loop is bound for good. -/
theorem bind_bind_halfLooped :
    ∃ id w' id' v' u, bind ⟨2⟩ ⟨halfLooped, [], .empty⟩ = .ok id w' ∧
      bind id ⟨w'.arena, [], .empty⟩ = .ok id' v' ∧ v'.arena.Unfolds id u ∧
        v'.arena.Unfolds id' u := by
  obtain ⟨id, w', hok, -⟩ := (decides_bind (w := ⟨halfLooped, [], .empty⟩)
    wellFormed_halfLooped).1 ⟨by simp [Tree.Bindable, Tree.BindableAll], by decide⟩
  obtain ⟨hiff, hplain, hsame⟩ :=
    bind_bind (v := ⟨w'.arena, [], .empty⟩) wellFormed_halfLooped hok rfl
  obtain ⟨id', v', hok'⟩ := hiff.2 (hplain (by simp [Tree.PlainValues, Tree.PlainValuesAll]))
  obtain ⟨u, u', hun, hun', -, -, hshort⟩ := hsame id' v' hok'
  obtain rfl := hshort (by decide)
  exact ⟨id, w', id', v', u', hok, hok', hun, hun'⟩

/-- A recipe over two scalar indices whose body loops over neither. -/
def unlooped : Arena where
  nodes := #[.var "u", .recipe ⟨⟨[⟨0⟩, ⟨1⟩], [], []⟩, ⟨0⟩, none⟩]
  indices := #[⟨"i", 2, .domain, []⟩, ⟨"j", 3, .domain, []⟩]

theorem wellFormed_unlooped :
    unlooped.WellFormed ⟨1⟩ (.node (.recipe ⟨[⟨0⟩, ⟨1⟩], [], []⟩ none) [.node (.var "u") []]) := by
  refine ⟨⟨_, rfl, rfl, ⟨_, rfl, rfl, trivial⟩, trivial⟩, ?_⟩
  have hi : unlooped.Resolves ⟨0⟩ := .intro rfl (by simp [unlooped])
  have hj : unlooped.Resolves ⟨1⟩ := .intro rfl (by simp [unlooped])
  simp [Tree.indices, Tree.indicesAll, Shape.indices, IndexDeclaration.toList, hi, hj]

/-- The one loop over both indices is put in as it is declared and found the other way round. -/
theorem bind_bind_ne_of_unlooped :
    ¬ ∀ (w : Workspace Marks) (root : NodeId) (t : Tree), w.arena.WellFormed root t →
      ∀ id w', bind root w = .ok id w' → ∃ id' v', bind id ⟨w'.arena, [], .empty⟩ = .ok id' v' ∧
        ∃ u, v'.arena.Unfolds id u ∧ v'.arena.Unfolds id' u := by
  intro h
  have hb : Tree.Bindable unlooped.factors [] (.node (.recipe ⟨[⟨0⟩, ⟨1⟩], [], []⟩ none)
      [.node (.var "u") []]) := ⟨by simp [Tree.Bindable, Tree.BindableAll], by decide⟩
  obtain ⟨id, w', hok, hext, hun⟩ := (decides_bind (w := ⟨unlooped, [], .empty⟩)
    wellFormed_unlooped).1 hb
  obtain ⟨id', v', hok', u, hu, hu'⟩ := h _ _ _ wellFormed_unlooped id w' hok
  have hwf := wellFormed_withLoops wellFormed_unlooped hext hun
  obtain ⟨hext', hun'⟩ := (decides_bind (w := ⟨w'.arena, [], .empty⟩) hwf).ok_iff.2 _ _ hok'
  have hsame := (hun'.unique hu').trans (hu.unique (hwf.unfolds.mono hext'))
  rw [show (⟨w'.arena, [], .empty⟩ : Workspace Marks).arena.factors = unlooped.factors from
    Arena.factors_congr hext.indices] at hsame
  have hnone : ∀ i : Index, i ∈ ([] : List Index) ↔ i ∈ ([] : List Index) ∨ i ∈ [] := by simp
  have hgroups := (Tree.withLoops_withLoops_iff hnone hb
    (by simp [Tree.Uncovered, Tree.UncoveredAll])).1 hsame
  exact absurd hgroups (by decide)

end LoopBinding

end TensorRecipe
