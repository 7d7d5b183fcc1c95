import TensorRecipe.Proofs.Tree.Capture
import TensorRecipe.Proofs.Tree.Positions

/-!
# Homes

On the way to a position a tree may be captured by loops and lets, and the innermost of these is its
home there (`Tree.home`).  A home is told by the child that is entered: the body of a loop, or one
value or the body of a let, each of which sees names of its own.

Two positions below different children of a node have the same home only if it is further up, and
so it is with their regions (`Tree.home_eq_of_ne`, `Tree.region_eq_of_ne`).
-/

namespace TensorRecipe

section

variable {factors : Index → List Index}

instance Tree.decidableHasVar (x : String) (t : Tree) : Decidable (t.HasVar factors x) :=
  inferInstanceAs (Decidable (∃ found ∈ t.leaves factors, found.2 = .name x))

instance Binder.decidableCaptures (β : Binder) (t : Tree) : Decidable (β.Captures factors t) :=
  inferInstanceAs (Decidable (_ ∨ _))

end

namespace Shape

section

variable (factors : Index → List Index) (s : Tree)

/-- The home of a tree at a position below a node of a shape, given which child the position is in
and the home there. -/
def homeBelow (shape : Shape) (k : Nat) : Option (List Nat) → Option (List Nat)
  | some home => some (k :: home)
  | none => if (shape.binder factors k).Captures factors s then some [k] else none

end

variable {factors : Index → List Index} {s : Tree} {shape : Shape} {j k : Nat}
  {home home' : Option (List Nat)}

theorem homeBelow_eq_none : shape.homeBelow factors s k home = none ↔
    home = none ∧ ¬ (shape.binder factors k).Captures factors s := by
  cases home <;> simp [homeBelow]

theorem homeBelow_cases (shape : Shape) (factors : Index → List Index) (s : Tree) (k : Nat)
    (home : Option (List Nat)) : shape.homeBelow factors s k home = none ∨
      ∃ q, shape.homeBelow factors s k home = some (k :: q) := by
  cases home with
  | some q => exact .inr ⟨q, rfl⟩
  | none =>
    rw [homeBelow]
    split
    · exact .inr ⟨[], rfl⟩
    · exact .inl rfl

theorem homeBelow_inj (h : home ≠ some []) (h' : home' ≠ some []) :
    shape.homeBelow factors s k home = shape.homeBelow factors s k home' ↔ home = home' := by
  refine ⟨fun heq => ?_, fun heq => heq ▸ rfl⟩
  cases home with
  | none =>
    cases home' with
    | none => rfl
    | some q => simp_all [homeBelow]
  | some q =>
    cases home' with
    | none => simp_all [homeBelow]
    | some q' => simpa [homeBelow] using heq

theorem homeBelow_eq_of_ne (h : j ≠ k) :
    shape.homeBelow factors s j home = shape.homeBelow factors s k home' ↔
      shape.homeBelow factors s j home = none ∧ shape.homeBelow factors s k home' = none := by
  refine ⟨fun heq => ?_, fun hnone => hnone.1.trans hnone.2.symm⟩
  rcases shape.homeBelow_cases factors s j home with hj | ⟨q, hj⟩
  · exact ⟨hj, heq ▸ hj⟩
  · rcases shape.homeBelow_cases factors s k home' with hk | ⟨q', hk⟩
    · exact ⟨heq ▸ hk, hk⟩
    · rw [hj, hk] at heq
      simp [h] at heq

theorem regionBelow_eq_nil {top : List Nat} : shape.regionBelow k top = [] ↔
    top = [] ∧ ∀ g transpose, shape ≠ .recipe g transpose := by
  cases shape <;> cases top <;> simp [regionBelow]

theorem regionBelow_cases (shape : Shape) (k : Nat) (top : List Nat) :
    shape.regionBelow k top = [] ∨ shape.regionBelow k top = k :: top := by
  cases shape <;> cases top <;> simp [regionBelow]

theorem regionBelow_inj {top top' : List Nat} :
    shape.regionBelow k top = shape.regionBelow k top' ↔ top = top' := by
  cases shape <;> cases top <;> cases top' <;> simp [regionBelow]

theorem regionBelow_eq_of_ne {top top' : List Nat} (h : j ≠ k) :
    shape.regionBelow j top = shape.regionBelow k top' ↔
      shape.regionBelow j top = [] ∧ shape.regionBelow k top' = [] := by
  refine ⟨fun heq => ?_, fun hnil => hnil.1.trans hnil.2.symm⟩
  rcases shape.regionBelow_cases j top with hj | hj
  · exact ⟨hj, heq ▸ hj⟩
  · rcases shape.regionBelow_cases k top' with hk | hk
    · exact ⟨heq ▸ hk, hk⟩
    · rw [hj, hk] at heq
      simp [h] at heq

end Shape

namespace Tree

/-- The home of a tree `s` in another at a position: the innermost child on the way that lies below
a binder which captures `s`. -/
def home (factors : Index → List Index) (s : Tree) : Tree → List Nat → Option (List Nat)
  | _, [] => none
  | node shape children, k :: p =>
    match children[k]? with
    | some c => shape.homeBelow factors s k (home factors s c p)
    | none => none

variable {factors : Index → List Index} {s c d : Tree} {shape : Shape} {children : List Tree}
  {j k : Nat} {p q : List Nat}

theorem home_cons (h : children[k]? = some c) :
    s.home factors (node shape children) (k :: p) =
      shape.homeBelow factors s k (s.home factors c p) := by
  rw [home]
  simp only [h]

theorem home_ne_nil : ∀ {t : Tree} {p : List Nat}, s.home factors t p ≠ some []
  | _, [] => by simp [home]
  | node shape children, k :: p => by
    rw [home]
    split
    · next c _ =>
      rcases shape.homeBelow_cases factors s k (s.home factors c p) with h | ⟨q, h⟩ <;> simp [h]
    · simp

theorem home_inj (h : children[k]? = some c) :
    s.home factors (node shape children) (k :: p) = s.home factors (node shape children) (k :: q) ↔
      s.home factors c p = s.home factors c q := by
  rw [home_cons h, home_cons h, Shape.homeBelow_inj home_ne_nil home_ne_nil]

theorem region_inj (h : children[k]? = some c) :
    (node shape children).region (k :: p) = (node shape children).region (k :: q) ↔
      c.region p = c.region q := by
  rw [region_cons h, region_cons h, Shape.regionBelow_inj]

/-- In different children there is the same home only further up. -/
theorem home_eq_of_ne (hc : children[j]? = some c) (hd : children[k]? = some d) (h : j ≠ k) :
    s.home factors (node shape children) (j :: p) = s.home factors (node shape children) (k :: q) ↔
      s.home factors (node shape children) (j :: p) = none ∧
        s.home factors (node shape children) (k :: q) = none := by
  rw [home_cons hc, home_cons hd, Shape.homeBelow_eq_of_ne h]

/-- In different children there is the same region only further up. -/
theorem region_eq_of_ne (hc : children[j]? = some c) (hd : children[k]? = some d) (h : j ≠ k) :
    (node shape children).region (j :: p) = (node shape children).region (k :: q) ↔
      (node shape children).region (j :: p) = [] ∧ (node shape children).region (k :: q) = [] := by
  rw [region_cons hc, region_cons hd, Shape.regionBelow_eq_of_ne h]

/-- Only the body of a recipe is another region. -/
theorem region_cons_eq_nil {node : Node} (h : ∀ q, node ≠ .recipe q) (hc : children[k]? = some c) :
    (Tree.node node.shape children).region (k :: p) = [] ↔ c.region p = [] := by
  rw [region_cons hc, Shape.regionBelow_eq_nil]
  refine and_iff_left fun g transpose hshape => ?_
  cases node
  case recipe q => exact h q rfl
  all_goals cases hshape

/-- What is in the outermost region of a tree that stands in that region is in it. -/
theorem region_append_eq_nil {t u : Tree} (h : t.at? p = some u) :
    t.region (p ++ q) = [] ↔ t.region p = [] ∧ u.region q = [] := by
  induction p generalizing t with
  | nil =>
    obtain rfl : t = u := by simpa [at?] using h
    simp [region]
  | cons k p ih =>
    obtain ⟨shape, children⟩ := t
    obtain ⟨c, hc, h⟩ := at?_cons_eq_some.1 h
    rw [List.cons_append, region_cons hc, region_cons hc, Shape.regionBelow_eq_nil,
      Shape.regionBelow_eq_nil, ih h, and_right_comm]

end Tree

/-! ### Handles at positions -/

namespace Arena

/-- The handle at a position below another. -/
def at? (a : Arena) : NodeId → List Nat → Option NodeId
  | id, [] => some id
  | id, k :: p =>
    match a.get id with
    | .ok node =>
      match node.children[k]? with
      | some c => at? a c p
      | none => none
    | .error _ => none

variable {a b : Arena} {id d : NodeId} {k : Nat} {p : List Nat}

theorem at?_cons_eq_some : a.at? id (k :: p) = some d ↔
    ∃ node c, a.get id = .ok node ∧ node.children[k]? = some c ∧ a.at? c p = some d := by
  rw [at?]
  split
  · next node hnode =>
    split
    · next c hc => simp [hnode, hc]
    · next hc => simp [hnode, hc]
  · next fault hfault => simp [hfault]

/-- Below a handle that has an unfolding nothing is added. -/
theorem Extends.at?_eq (h : a.Extends b) {t : Tree} (ht : a.Unfolds id t) :
    b.at? id p = a.at? id p := by
  induction p generalizing id t with
  | nil => rfl
  | cons k p ih =>
    obtain ⟨shape, children⟩ := t
    obtain ⟨node, hnode, -, hall⟩ := ht.get
    rw [at?, at?, hnode, h.get hnode]
    dsimp only
    cases hc : node.children[k]? with
    | none => rfl
    | some c =>
      obtain ⟨u, -, hcu⟩ := exists_of_getElem?_left hall hc
      exact ih hcu

theorem Unfolds.at? {t : Tree} (h : a.Unfolds id t) (hd : a.at? id p = some d) :
    ∃ u, t.at? p = some u ∧ a.Unfolds d u := by
  induction p generalizing id t with
  | nil =>
    obtain rfl : id = d := by simpa [Arena.at?] using hd
    exact ⟨t, rfl, h⟩
  | cons k p ih =>
    obtain ⟨node, c, hnode, hc, hd⟩ := at?_cons_eq_some.1 hd
    obtain ⟨shape, children⟩ := t
    obtain ⟨node', hnode', -, hall⟩ := h.get
    obtain rfl := Except.ok.inj (hnode.symm.trans hnode')
    obtain ⟨u, hu, hcu⟩ := exists_of_getElem?_left hall hc
    obtain ⟨v, hv, hdv⟩ := ih hcu hd
    exact ⟨v, Tree.at?_cons_eq_some.2 ⟨u, hu, hv⟩, hdv⟩

end Arena

end TensorRecipe
