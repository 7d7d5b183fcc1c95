import TensorRecipe.Proofs.Tree.Leaves

/-!
# Meanings of trees

An `Interpretation` says what loops and all other operations do, and an `Env` gives values to scalar
indices and to names.  `Shape.interpret` makes the meaning of a node out of those of its children,
each a function of the environment there; `Tree.denote` is the meaning of a tree.

Children that have the same values in all environments that a node gives them make nodes that have
the same value (`interpret_congr`).  Hence a meaning depends on what the leaves read freely, and on
nothing else (`denote_congr`).
-/

namespace TensorRecipe

variable {V D : Type*}

/-- Values of scalar indices and of names. -/
structure Env (V D : Type*) where
  index : Index → V
  name : String → D

namespace Env

/-- The environment with new values of some scalar indices. -/
def setIndices (ρ : Env V D) (is : List Index) (values : Index → V) : Env V D :=
  { ρ with index := fun i => if i ∈ is then values i else ρ.index i }

/-- The environment with a new value of a name. -/
def setName (ρ : Env V D) (x : String) (value : D) : Env V D :=
  { ρ with name := fun y => if y = x then value else ρ.name y }

end Env

/-- What the operations do. -/
structure Interpretation (V D : Type*) where
  /-- An index as a value, given the values of its factors. -/
  index : Index → List V → D
  /-- A loop, given its body as a function of the values of the flattened loop indices. -/
  loop : Shape → ((Index → V) → D) → D
  /-- Any other node, given the values of its children. -/
  node : Shape → List D → D

namespace Shape

variable (ι : Interpretation V D)

/-- The bindings of a let one after another, then its body. -/
def interpretLet : List String → List (Env V D → D) → Env V D → D
  | [], [body], ρ => body ρ
  | x :: names, value :: children, ρ => interpretLet names children (ρ.setName x (value ρ))
  | names, _, _ => ι.node (.letIn names) []

/-- The meaning of a node, given those of its children. -/
def interpret (factors : Index → List Index) : Shape → List (Env V D → D) → Env V D → D
  | var x, _, ρ => ρ.name x
  | index i, _, ρ => ι.index i ((factors i).map ρ.index)
  | forAll is, [body], ρ =>
    ι.loop (forAll is) fun values => body (ρ.setIndices (is.flatMap factors) values)
  | indexSum is, [body], ρ =>
    ι.loop (indexSum is) fun values => body (ρ.setIndices (is.flatMap factors) values)
  | forAll is, _, _ => ι.node (forAll is) []
  | indexSum is, _, _ => ι.node (indexSum is) []
  | letIn names, children, ρ => interpretLet ι names children ρ
  | shape, children, ρ => ι.node shape (children.map (· ρ))

end Shape

namespace Tree

section

variable (ι : Interpretation V D) (factors : Index → List Index)

mutual

/-- The meaning of a tree. -/
def denote : Tree → Env V D → D
  | node shape children => shape.interpret ι factors (denoteAll children)

/-- The meanings of several trees. -/
def denoteAll : List Tree → List (Env V D → D)
  | [] => []
  | t :: ts => denote t :: denoteAll ts

end

end

theorem denoteAll_eq {ι : Interpretation V D} {factors : Index → List Index} (ts : List Tree) :
    denoteAll ι factors ts = ts.map (denote ι factors) := by
  induction ts with
  | nil => rfl
  | cons t ts ih => rw [denoteAll, ih, List.map_cons]

end Tree

/-! ### Congruence -/

/-- The environments `σ` and `σ'` come from `ρ` and `ρ'` by giving the same new values to some scalar
indices and to some names. -/
structure Under (is : List Index) (xs : List String) (ρ ρ' σ σ' : Env V D) : Prop where
  index_of_mem : ∀ i ∈ is, σ.index i = σ'.index i
  index_of_notMem : ∀ i ∉ is, σ.index i = ρ.index i ∧ σ'.index i = ρ'.index i
  name_of_mem : ∀ x ∈ xs, σ.name x = σ'.name x
  name_of_notMem : ∀ x ∉ xs, σ.name x = ρ.name x ∧ σ'.name x = ρ'.name x

namespace Under

variable {is : List Index} {xs : List String} {ρ ρ' σ σ' : Env V D}

theorem refl : Under [] [] ρ ρ' ρ ρ' :=
  ⟨by simp, fun _ _ => ⟨rfl, rfl⟩, by simp, fun _ _ => ⟨rfl, rfl⟩⟩

theorem setIndices (values : Index → V) :
    Under is [] ρ ρ' (ρ.setIndices is values) (ρ'.setIndices is values) := by
  refine ⟨fun i hi => ?_, fun i hi => ?_, by simp, fun _ _ => ⟨rfl, rfl⟩⟩
  · simp [Env.setIndices, hi]
  · simp [Env.setIndices, hi]

theorem setName (h : Under is xs ρ ρ' σ σ') (x : String) (value : D) :
    Under is (xs ++ [x]) ρ ρ' (σ.setName x value) (σ'.setName x value) := by
  refine ⟨h.index_of_mem, h.index_of_notMem, fun y hy => ?_, fun y hy => ?_⟩
  · by_cases hyx : y = x
    · simp [Env.setName, hyx]
    · have hmem : y ∈ xs := by simpa [hyx] using hy
      simpa [Env.setName, hyx] using h.name_of_mem y hmem
  · obtain ⟨hmem, hyx⟩ : y ∉ xs ∧ y ≠ x := by simpa using hy
    simpa [Env.setName, hyx] using h.name_of_notMem y hmem

theorem eq (h : Under is xs ρ ρ σ σ') : σ = σ' := by
  obtain ⟨index, name⟩ := σ
  obtain ⟨index', name'⟩ := σ'
  congr 1
  · funext i
    by_cases hi : i ∈ is
    · exact h.index_of_mem i hi
    · exact (h.index_of_notMem i hi).1.trans (h.index_of_notMem i hi).2.symm
  · funext x
    by_cases hx : x ∈ xs
    · exact h.name_of_mem x hx
    · exact (h.name_of_notMem x hx).1.trans (h.name_of_notMem x hx).2.symm

end Under

namespace Shape

variable {ι : Interpretation V D} {factors : Index → List Index}

theorem interpretLet_congr {ρ ρ' : Env V D} {all : List String} :
    ∀ {names : List String} {children children' : List (Env V D → D)} {k : Nat} {σ σ' : Env V D},
      all.drop k = names → children.length = children'.length →
      (∀ m c c', children[m]? = some c → children'[m]? = some c' → ∀ τ τ',
        Under [] (all.take (k + m)) ρ ρ' τ τ' → c τ = c' τ') →
      Under [] (all.take k) ρ ρ' σ σ' →
        interpretLet ι names children σ = interpretLet ι names children' σ'
  | [], [c], [c'], k, σ, σ', _, _, h, hσ => h 0 c c' rfl rfl σ σ' hσ
  | x :: names, c :: children, c' :: children', k, σ, σ', hdrop, hlen, h, hσ => by
    have hx : all[k]? = some x := by
      rw [← List.head?_drop, hdrop]
      rfl
    have htake : all.take (k + 1) = all.take k ++ [x] := by
      rw [List.take_add_one, hx]
      rfl
    have hnext : all.drop (k + 1) = names := by
      rw [← List.drop_drop, hdrop]
      rfl
    have hrest : ∀ m d d', children[m]? = some d → children'[m]? = some d' → ∀ τ τ',
        Under [] (all.take (k + 1 + m)) ρ ρ' τ τ' → d τ = d' τ' := by
      intro m d d' hd hd' τ τ' hτ
      exact h (m + 1) d d' hd hd' τ τ' (by rwa [← Nat.add_assoc, Nat.add_right_comm])
    rw [interpretLet, interpretLet, h 0 c c' rfl rfl σ σ' hσ]
    refine interpretLet_congr hnext (by simpa using hlen) hrest ?_
    rw [htake]
    exact hσ.setName x (c' σ')
  | [], [], [], _, _, _, _, _, _, _ => rfl
  | [], _ :: _ :: _, _ :: _ :: _, _, _, _, _, _, _, _ => rfl
  | _ :: _, [], [], _, _, _, _, _, _, _ => rfl

/-- Children that have the same values in all environments that a node gives them make nodes that
have the same value. -/
theorem interpret_congr {shape : Shape} {ρ ρ' : Env V D} {children children' : List (Env V D → D)}
    (hlen : children.length = children'.length)
    (h : ∀ k c c', children[k]? = some c → children'[k]? = some c' → ∀ σ σ',
      Under (shape.scope.flatMap factors) (shape.given.take k) ρ ρ' σ σ' → c σ = c' σ')
    (hindex : ∀ i, shape = .index i → ∀ k ∈ factors i, ρ.index k = ρ'.index k)
    (hname : ∀ x, shape = .var x → ρ.name x = ρ'.name x) :
    shape.interpret ι factors children ρ = shape.interpret ι factors children' ρ' := by
  have hsame : shape.scope = [] → shape.given = [] →
      children.map (· ρ) = children'.map (· ρ') := by
    intro hs hg
    refine List.ext_getElem (by simpa using hlen) fun k hk hk' => ?_
    simp only [List.length_map] at hk hk'
    have hσ : Under (shape.scope.flatMap factors) (shape.given.take k) ρ ρ' ρ ρ' := by
      simpa [hs, hg] using Under.refl
    simpa using h k _ _ (List.getElem?_eq_getElem hk) (List.getElem?_eq_getElem hk') ρ ρ' hσ
  have hloop : ∀ c c', shape.given = [] → children[0]? = some c → children'[0]? = some c' →
      ∀ values, c (ρ.setIndices (shape.scope.flatMap factors) values) =
        c' (ρ'.setIndices (shape.scope.flatMap factors) values) := by
    intro c c' hg hc hc' values
    refine h 0 c c' hc hc' _ _ ?_
    simpa [hg] using Under.setIndices values
  cases shape with
  | var x => exact hname x rfl
  | index i =>
    simp only [interpret]
    rw [List.map_congr_left (hindex i rfl)]
  | letIn names => exact interpretLet_congr (k := 0) rfl hlen (by simpa [given, scope] using h) .refl
  | forAll is | indexSum is =>
    match children, children', hlen, hloop with
    | [c], [c'], _, hloop => exact congrArg _ (funext (hloop c c' rfl rfl rfl))
    | [], [], _, _ => rfl
    | _ :: _ :: _, _ :: _ :: _, _, _ => rfl
  | _ => exact congrArg _ (hsame rfl rfl)

end Shape

/-! ### What a meaning depends on -/

namespace Tree

variable {ι : Interpretation V D} {factors : Index → List Index}

/-- Two environments agree on what a leaf reads, as far as it is not bound. -/
def Agree (factors : Index → List Index) (ρ ρ' : Env V D) (leaf : Binder × Leaf) : Prop :=
  match leaf.2 with
  | .index i => ∀ k ∈ factors i, k ∉ leaf.1.indices → ρ.index k = ρ'.index k
  | .name x => x ∉ leaf.1.names → ρ.name x = ρ'.name x

/-- What holds of a leaf outside a node holds of it inside. -/
theorem Agree.under {shape : Shape} {k : Nat} {ρ ρ' σ σ' : Env V D}
    (hfactors : ∀ i, ∀ f ∈ factors i, factors f = [f])
    (hσ : Under (shape.scope.flatMap factors) (shape.given.take k) ρ ρ' σ σ') {β : Binder} :
    ∀ {leaf : Leaf}, Agree factors ρ ρ' (β ++ shape.binder factors k, leaf) →
      Agree factors σ σ' (β, leaf)
  | .index i, h => by
    intro f hf hβ
    by_cases hmem : f ∈ shape.scope.flatMap factors
    · exact hσ.index_of_mem f hmem
    · have hscope : f ∉ shape.scope := fun hs =>
        hmem (List.mem_flatMap.2 ⟨f, hs, by simp [hfactors i f hf]⟩)
      rw [(hσ.index_of_notMem f hmem).1, (hσ.index_of_notMem f hmem).2]
      exact h f hf (by simp [Shape.binder, Shape.binds, hβ, hscope, hmem])
  | .name x, h => by
    intro hβ
    by_cases hmem : x ∈ shape.given.take k
    · exact hσ.name_of_mem x hmem
    · rw [(hσ.name_of_notMem x hmem).1, (hσ.name_of_notMem x hmem).2]
      exact h (by simp [Shape.binder, hβ, hmem])

/-- The meaning of a tree depends on what its leaves read freely. -/
theorem denote_congr (hfactors : ∀ i, ∀ f ∈ factors i, factors f = [f]) (t : Tree) :
    ∀ {ρ ρ' : Env V D}, (∀ leaf ∈ t.leaves factors, Agree factors ρ ρ' leaf) →
      t.denote ι factors ρ = t.denote ι factors ρ' := by
  induction t using Tree.induct with
  | node shape children ih =>
    intro ρ ρ' h
    rcases shape.isInner_or with hs | ⟨i, rfl⟩ | ⟨x, rfl⟩
    · rw [denote]
      refine Shape.interpret_congr rfl (fun k c c' hc hc' σ σ' hσ => ?_)
        (fun i hi => absurd hi (hs.1 i)) (fun x hx => absurd hx (hs.2 x))
      obtain rfl : c = c' := by simpa [hc] using hc'
      rw [denoteAll_eq, List.getElem?_map, Option.map_eq_some_iff] at hc
      obtain ⟨t, ht, rfl⟩ := hc
      refine ih t (List.mem_of_getElem? ht) fun leaf hleaf => ?_
      exact (h _ ((mem_leaves_node hs).2 ⟨k, t, ht, leaf, hleaf, rfl⟩)).under hfactors hσ
    · have hi := h (.empty, .index i) (by simp [leaves])
      simp only [denote, Shape.interpret]
      rw [List.map_congr_left fun k hk => hi k hk (by simp)]
    · exact h (.empty, .name x) (by simp [leaves]) (by simp)

end Tree

end TensorRecipe
