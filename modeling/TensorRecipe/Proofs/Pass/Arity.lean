import TensorRecipe.Arena.FreeIndices
import TensorRecipe.Proofs.Pass.Steps

/-!
# Numbers of children

`KeepsArity` says of steps, begun in whatever state, that they do not stop because a node was given
another number of children than it has, and `IsLookup` says so of what is looked up in an arena.
Here is what every lookup and every walk keeps; what passes keep follows from the steps they are
composed of.
-/

namespace TensorRecipe

/-- The steps do not stop because a node was given another number of children than it has. -/
def KeepsArity {σ α : Type} (steps : EStateM Fault σ α) : Prop :=
  ∀ s fault s', steps s = .error fault s' → fault.report.code ≠ .mismatchedArity

/-- Nothing is wrong with the number of children of a node where something is looked up. -/
def IsLookup {α : Type} (r : Except Fault α) : Prop :=
  ∀ fault, r = .error fault → fault.report.code ≠ .mismatchedArity

/-! ### Lookups -/

section

variable {α β : Type}

theorem isLookup_ok (x : α) : IsLookup (.ok x) := fun _ h => nomatch h

theorem isLookup_error {fault : Fault} (h : fault.report.code ≠ .mismatchedArity) :
    IsLookup (.error fault : Except Fault α) := by
  rintro _ ⟨⟩
  exact h

theorem IsLookup.bind {r : Except Fault α} {f : α → Except Fault β} (h : IsLookup r)
    (hf : ∀ x, IsLookup (f x)) : IsLookup (r >>= f) := by
  cases r with
  | ok x => exact hf x
  | error fault => exact isLookup_error (h fault rfl)

theorem isLookup_mapM {f : α → Except Fault β} (h : ∀ x, IsLookup (f x)) :
    ∀ xs : List α, IsLookup (xs.mapM f)
  | [] => isLookup_ok []
  | x :: xs => by
    rw [List.mapM_cons]
    exact (h x).bind fun y => (isLookup_mapM h xs).bind fun ys => isLookup_ok (y :: ys)

namespace Arena

theorem isLookup_get (a : Arena) (id : NodeId) : IsLookup (a.get id) := by
  unfold get
  split
  · exact isLookup_ok _
  · exact isLookup_error nofun

theorem isLookup_indexInfo (a : Arena) (i : Index) : IsLookup (a.indexInfo i) := by
  unfold indexInfo
  split
  · exact isLookup_ok _
  · exact isLookup_error nofun

theorem isLookup_flattenWithin (a : Arena) :
    ∀ (depth : Nat) (i : Index), IsLookup (a.flattenWithin depth i)
  | 0, _ => isLookup_error nofun
  | depth + 1, i => by
    unfold flattenWithin
    refine (isLookup_indexInfo a i).bind fun info => ?_
    split
    · exact (isLookup_mapM (isLookup_flattenWithin a depth) _).bind fun _ => isLookup_ok _
    · exact isLookup_ok _

theorem isLookup_flatten (a : Arena) (is : List Index) : IsLookup (a.flatten is) :=
  (isLookup_mapM (a.isLookup_flattenWithin _) is).bind fun _ => isLookup_ok _

theorem isLookup_isBound (a : Arena) (bound : List Index) (i : Index) :
    IsLookup (a.isBound bound i) := by
  unfold isBound
  split
  · exact isLookup_ok _
  · exact (a.isLookup_flatten _).bind fun _ => isLookup_ok _

theorem isLookup_boundBelow (a : Arena) (bound : List Index) (node : Node) :
    IsLookup (a.boundBelow bound node) := by
  unfold boundBelow
  split
  · exact (a.isLookup_flatten _).bind fun _ => isLookup_ok _
  · exact isLookup_ok _

theorem isLookup_freeWithin (a : Arena) :
    ∀ (depth : Nat) (bound : List Index) (id : NodeId), IsLookup (a.freeWithin depth bound id)
  | 0, _, _ => isLookup_error nofun
  | depth + 1, bound, id => by
    unfold freeWithin
    refine (a.isLookup_get id).bind fun node => ?_
    split
    · exact (a.isLookup_isBound bound _).bind fun _ => isLookup_ok _
    · refine (a.isLookup_boundBelow bound node).bind fun below => ?_
      exact (isLookup_mapM (isLookup_freeWithin a depth below) _).bind fun _ => isLookup_ok _

end Arena

end

/-! ### Steps -/

section

variable {σ α β : Type}

theorem keepsArity_pure (x : α) : KeepsArity (pure x : EStateM Fault σ α) :=
  fun _ _ _ h => nomatch h

theorem keepsArity_throw {fault : Fault} (h : fault.report.code ≠ .mismatchedArity) :
    KeepsArity (throw fault : EStateM Fault σ α) := by
  rintro _ _ _ ⟨⟩
  exact h

theorem KeepsArity.bind {steps : EStateM Fault σ α} {f : α → EStateM Fault σ β}
    (h : KeepsArity steps) (hf : ∀ x s s', steps s = .ok x s' → KeepsArity (f x)) :
    KeepsArity (steps >>= f) := by
  intro s fault s' hrun
  change EStateM.bind steps f s = _ at hrun
  unfold EStateM.bind at hrun
  split at hrun
  · next x s₁ hx => exact hf x s s₁ hx _ _ _ hrun
  · next fault' s₁ hx =>
    cases hrun
    exact h _ _ _ hx

/-- As `KeepsArity.bind`, where nothing need be known of the answer. -/
theorem KeepsArity.seq {steps : EStateM Fault σ α} {f : α → EStateM Fault σ β}
    (h : KeepsArity steps) (hf : ∀ x, KeepsArity (f x)) : KeepsArity (steps >>= f) :=
  h.bind fun x _ _ _ => hf x

theorem keepsArity_ofExcept {r : Except Fault α} (h : IsLookup r) :
    KeepsArity (MonadExcept.ofExcept r : EStateM Fault σ α) := by
  cases r with
  | ok x => exact keepsArity_pure x
  | error fault => exact keepsArity_throw (h fault rfl)

theorem keepsArity_forM {f : α → EStateM Fault σ PUnit} (h : ∀ x, KeepsArity (f x)) :
    ∀ xs : List α, KeepsArity (xs.forM f)
  | [] => keepsArity_pure _
  | x :: xs => (h x).seq fun _ => keepsArity_forM h xs

theorem keepsArity_modifyGet (f : σ → α × σ) : KeepsArity (modifyGet f : EStateM Fault σ α) :=
  fun _ _ _ h => nomatch h

namespace Visitor

theorem keepsArity_visitIndex (v : Visitor σ) (a : Arena) (i : Index) :
    KeepsArity (v.visitIndex a i) := by
  refine (keepsArity_ofExcept (a.isLookup_indexInfo i)).seq fun info => ?_
  refine (keepsArity_modifyGet _).seq fun enters => ?_
  split
  · exact keepsArity_modifyGet _
  · exact keepsArity_pure _

theorem keepsArity_walkWithin (v : Visitor σ) (a : Arena) :
    ∀ (depth : Nat) (id : NodeId), KeepsArity (v.walkWithin a depth id)
  | 0, _ => keepsArity_throw nofun
  | depth + 1, id => by
    unfold walkWithin
    refine (keepsArity_ofExcept (a.isLookup_get id)).seq fun node => ?_
    refine (keepsArity_modifyGet _).seq fun enters => ?_
    split
    · refine (keepsArity_forM (v.keepsArity_visitIndex a) _).seq fun _ => ?_
      exact (keepsArity_forM (keepsArity_walkWithin v a depth) _).seq fun _ =>
        keepsArity_modifyGet _
    · exact keepsArity_pure _

end Visitor

end

end TensorRecipe
