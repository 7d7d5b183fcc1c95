import TensorRecipe.Proofs.Pass.Ensures

/-!
# Steps one after another

`PassM.through f xs` takes the steps `f` with each member of a list, and hands a value on; visiting
several trees is of this kind (`Visit.all_eq_through`).  A relation between workspaces that holds
from before to after each of the steps holds from before to after all of them (`ensures_through`),
and from after any one of them to after the last (`through_between`).  Steps that do the same wherever
they are reached do the same together (`through_congr`).
-/

namespace TensorRecipe

namespace PassM

variable {ω α β τ : Type}

/-- Go through a list from left to right and hand a value on. -/
def through (f : α → τ → PassM ω (β × τ)) : List α → τ → PassM ω (List β × τ)
  | [], passed => return ([], passed)
  | x :: xs, passed => do
    let (y, passed) ← f x passed
    let (ys, passed) ← through f xs passed
    return (y :: ys, passed)

variable {f : α → τ → PassM ω (β × τ)} {x : α} {y : β} {xs : List α} {ys : List β}
  {passed passed₁ passed₂ : τ} {w w₁ w₂ v u : Workspace ω}

theorem through_cons_of_ok (hx : f x passed w = .ok (y, passed₁) w₁)
    (hxs : through f xs passed₁ w₁ = .ok (ys, passed₂) w₂) :
    through f (x :: xs) passed w = .ok (y :: ys, passed₂) w₂ := by
  rw [through, bind_of_ok hx]
  show (through f xs passed₁ >>= _) w₁ = _
  rw [bind_of_ok hxs]
  rfl

theorem ok_of_through_cons {r : List β × τ} (h : through f (x :: xs) passed w = .ok r w₂) :
    ∃ y passed₁ w₁ ys passed₂, f x passed w = .ok (y, passed₁) w₁ ∧
      through f xs passed₁ w₁ = .ok (ys, passed₂) w₂ ∧ r = (y :: ys, passed₂) := by
  obtain ⟨⟨y, passed₁⟩, w₁, hx, h⟩ := ok_of_bind_eq_ok h
  obtain ⟨⟨ys, passed₂⟩, w₂, hxs, h⟩ := ok_of_bind_eq_ok h
  cases h
  exact ⟨y, passed₁, w₁, ys, passed₂, hx, hxs, rfl⟩

/-- Each step that is reached goes from one workspace to a related one. -/
def EachKeeps (G : Workspace ω → Workspace ω → Prop) (f : α → τ → PassM ω (β × τ)) (xs : List α)
    (passed : τ) (w : Workspace ω) : Prop :=
  ∀ (k : Nat) x done passed' v, xs[k]? = some x →
    through f (xs.take k) passed w = .ok (done, passed') v →
      (f x passed').Ensures v fun _ v' => G v v'

section

variable {G : Workspace ω → Workspace ω → Prop}

theorem EachKeeps.tail (h : EachKeeps G f (x :: xs) passed w)
    (hx : f x passed w = .ok (y, passed₁) w₁) : EachKeeps G f xs passed₁ w₁ :=
  fun k x' done passed' v hx' hdone =>
    h (k + 1) x' (y :: done) passed' v hx' (through_cons_of_ok hx hdone)

theorem EachKeeps.take (h : EachKeeps G f xs passed w) (j : Nat) :
    EachKeeps G f (xs.take j) passed w := by
  intro k x' done passed' v hx' hdone
  rw [List.getElem?_take] at hx'
  split at hx'
  · next hkj =>
    rw [List.take_take, min_eq_left hkj.le] at hdone
    exact h k x' done passed' v hx' hdone
  · cases hx'

variable (refl : ∀ w, G w w) (trans : ∀ {w v u}, G w v → G v u → G w u)

include refl trans

theorem ensures_through (h : EachKeeps G f xs passed w) :
    (through f xs passed).Ensures w fun _ w' => G w w' := by
  induction xs generalizing passed w with
  | nil => exact ensures_pure (refl w)
  | cons x xs ih =>
    intro r w₂ hrun
    obtain ⟨y, passed₁, w₁, ys, passed₂, hx, hxs, -⟩ := ok_of_through_cons hrun
    exact trans (h 0 x [] passed w rfl rfl _ _ hx) (ih (h.tail hx) _ _ hxs)

/-- What is done after one of the steps. -/
theorem through_between (h : EachKeeps G f xs passed w) {k : Nat} {done : List β} {r : List β × τ}
    (hx : xs[k]? = some x) (hbefore : through f (xs.take k) passed w = .ok (done, passed₁) v)
    (hrun : through f xs passed w = .ok r u) : ∃ y v', f x passed₁ v = .ok y v' ∧ G v' u := by
  induction xs generalizing k passed w r done with
  | nil => cases hx
  | cons x' xs ih =>
    obtain ⟨y, passed', w', ys, passed₂, hx', hxs, -⟩ := ok_of_through_cons hrun
    cases k with
    | zero =>
      cases hbefore
      obtain rfl : x' = x := by simpa using hx
      exact ⟨_, _, hx', ensures_through refl trans (h.tail hx') _ _ hxs⟩
    | succ k =>
      obtain ⟨y₁, passed₁', w₁, _, _, hx₁, hdone, heq⟩ := ok_of_through_cons hbefore
      cases heq
      cases hx'.symm.trans hx₁
      exact ih (h.tail hx') (by simpa using hx) hdone hxs

end

theorem bind_congr_at {γ : Type} {steps steps' : PassM ω α} {g h : α → PassM ω γ}
    (hsteps : steps w = steps' w) (hgh : ∀ x v, steps w = .ok x v → g x v = h x v) :
    (steps >>= g) w = (steps' >>= h) w := by
  show EStateM.bind steps g w = EStateM.bind steps' h w
  rw [EStateM.bind, EStateM.bind, ← hsteps]
  cases hrun : steps w with
  | ok x v => exact hgh x v hrun
  | error fault v => rfl

/-- Steps are the same if they are where they are reached. -/
theorem through_congr {g : α → τ → PassM ω (β × τ)}
    (h : ∀ (k : Nat) x done passed' v, xs[k]? = some x →
      through f (xs.take k) passed w = .ok (done, passed') v → f x passed' v = g x passed' v) :
    through f xs passed w = through g xs passed w := by
  induction xs generalizing passed w with
  | nil => rfl
  | cons x xs ih =>
    refine bind_congr_at (h 0 x [] passed w rfl rfl) ?_
    rintro ⟨y, passed₁⟩ w₁ hx
    refine bind_congr_at (ih fun k x' done passed' v hx' hdone => ?_) fun _ _ _ => rfl
    exact h (k + 1) x' (y :: done) passed' v hx' (through_cons_of_ok hx hdone)

theorem exists_through_take {r : List β × τ} (hrun : through f xs passed w = .ok r u) (k : Nat) :
    ∃ r' v, through f (xs.take k) passed w = .ok r' v := by
  induction xs generalizing k passed w r with
  | nil => exact ⟨_, _, by rw [List.take_nil]; rfl⟩
  | cons x xs ih =>
    cases k with
    | zero => exact ⟨_, _, rfl⟩
    | succ k =>
      obtain ⟨y, passed₁, w₁, ys, passed₂, hx, hxs, -⟩ := ok_of_through_cons hrun
      obtain ⟨⟨ys', passed'⟩, v, hdone⟩ := ih hxs k
      exact ⟨_, _, through_cons_of_ok hx hdone⟩

end PassM

open PassM

theorem Visit.all_eq_through {ω τ : Type} (visit : Visit ω τ) (ids : List NodeId) (passed : τ) :
    visit.all ids passed = through visit ids passed := by
  induction ids generalizing passed with
  | nil => rfl
  | cons id ids ih =>
    rw [Visit.all, through]
    refine bind_congr ?_
    rintro ⟨_, passed'⟩
    simp only [ih]

end TensorRecipe
