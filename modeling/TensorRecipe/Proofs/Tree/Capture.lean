import TensorRecipe.Proofs.Tree.Free
import TensorRecipe.Proofs.Tree.Meaning

/-!
# Capture

A tree reads a leaf where the leaf is bound neither inside nor around it (`Tree.Reads`).  A binder
captures a tree when it binds an index that is free in it, a factor of one, or the name of any of
its variables, bound or not: this is what extraction goes by (`Binder.Captures`).  A tree that a
binder does not capture reads the same below it as outside (`reads_append`), and means the same
(`denote_eq_of_not_captures`).
-/

namespace TensorRecipe

/-- A leaf is free where a binder binds neither the name, nor the index nor all of its factors. -/
def Leaf.IsFree (factors : Index → List Index) (β : Binder) : Leaf → Prop
  | index i => ¬ IsBound factors β.indices i
  | name x => x ∉ β.names

theorem Leaf.IsFree.of_append {factors : Index → List Index} {β γ : Binder} {leaf : Leaf}
    (h : leaf.IsFree factors (β ++ γ)) : leaf.IsFree factors β := by
  cases leaf with
  | index i =>
    exact fun hb => h (hb.imp (fun hi => List.mem_append_left _ hi)
      fun hf k hk => List.mem_append_left _ (hf k hk))
  | name x => exact fun hx => h (List.mem_append_left _ hx)

theorem Leaf.IsFree.mono {factors : Index → List Index} {β γ : Binder} {leaf : Leaf}
    (h : leaf.IsFree factors γ) (hi : ∀ i ∈ β.indices, i ∈ γ.indices)
    (hx : ∀ x ∈ β.names, x ∈ γ.names) : leaf.IsFree factors β := by
  cases leaf with
  | index i => exact fun hb => h (hb.imp (hi i) fun hf k hk => hi k (hf k hk))
  | name x => exact fun hmem => h (hx x hmem)

namespace Tree

section

variable (factors : Index → List Index)

/-- A tree reads a leaf freely, where a binder binds around it. -/
def Reads (β : Binder) (leaf : Leaf) (t : Tree) : Prop :=
  ∃ found ∈ t.leaves factors, found.2 = leaf ∧ leaf.IsFree factors (found.1 ++ β)

/-- Some variable in the tree has the name. -/
def HasVar (x : String) (t : Tree) : Prop := ∃ found ∈ t.leaves factors, found.2 = .name x

/-- Every index free in the first tree is so in the second, and the variables of the first are among
those of the second. -/
structure ReadsWithin (t u : Tree) : Prop where
  free : ∀ i ∈ t.free factors [], i ∈ u.free factors []
  vars : ∀ x, t.HasVar factors x → u.HasVar factors x

end

variable {factors : Index → List Index}

theorem mem_free_iff_reads {β : Binder} {i : Index} {t : Tree} :
    i ∈ t.free factors β.indices ↔ t.Reads factors β (.index i) := mem_free

theorem reads_node {shape : Shape} {children : List Tree} (h : shape.IsInner) {β : Binder}
    {leaf : Leaf} : (node shape children).Reads factors β leaf ↔
      ∃ (k : Nat) (t : Tree), children[k]? = some t ∧
        t.Reads factors (shape.binder factors k ++ β) leaf := by
  have hassoc : ∀ α γ : Binder, α ++ γ ++ β = α ++ (γ ++ β) := fun α γ => by
    show Binder.mk _ _ = Binder.mk _ _
    simp
  constructor
  · rintro ⟨found, hmem, rfl, hfree⟩
    obtain ⟨k, t, ht, inside, hin, rfl⟩ := (mem_leaves_node h).1 hmem
    exact ⟨k, t, ht, inside, hin, rfl, by rwa [← hassoc]⟩
  · rintro ⟨k, t, ht, inside, hin, rfl, hfree⟩
    exact ⟨_, (mem_leaves_node h).2 ⟨k, t, ht, inside, hin, rfl⟩, rfl, by rwa [hassoc]⟩

theorem reads_var {x : String} {children : List Tree} {β : Binder} {leaf : Leaf} :
    (node (.var x) children).Reads factors β leaf ↔ leaf = .name x ∧ x ∉ β.names := by
  constructor
  · rintro ⟨found, hmem, rfl, hfree⟩
    obtain rfl : found = (.empty, .name x) := by simpa [leaves] using hmem
    exact ⟨rfl, by simpa [Leaf.IsFree] using hfree⟩
  · rintro ⟨rfl, hx⟩
    exact ⟨(.empty, .name x), by simp [leaves], rfl, by simpa [Leaf.IsFree] using hx⟩

theorem Reads.mono {β γ : Binder} {leaf : Leaf} {t : Tree} (h : t.Reads factors γ leaf)
    (hi : ∀ i ∈ β.indices, i ∈ γ.indices) (hx : ∀ x ∈ β.names, x ∈ γ.names) :
    t.Reads factors β leaf := by
  obtain ⟨found, hmem, rfl, hfree⟩ := h
  refine ⟨found, hmem, rfl, hfree.mono ?_ ?_⟩
  · simpa using fun i => Or.imp_right (hi i)
  · simpa using fun x => Or.imp_right (hx x)

theorem Reads.of_append {β γ : Binder} {leaf : Leaf} {t : Tree}
    (h : t.Reads factors (γ ++ β) leaf) : t.Reads factors β leaf :=
  h.mono (fun _ hi => List.mem_append_right _ hi) fun _ hx => List.mem_append_right _ hx

theorem Reads.bind_names {β : Binder} {xs : List String} {leaf : Leaf} {t : Tree}
    (h : t.Reads factors β leaf) (hx : ∀ x ∈ xs, leaf ≠ .name x) :
    t.Reads factors (⟨[], xs⟩ ++ β) leaf := by
  obtain ⟨found, hmem, rfl, hfree⟩ := h
  refine ⟨found, hmem, rfl, ?_⟩
  cases hleaf : found.2 with
  | index i => simpa [hleaf, Leaf.IsFree] using hfree
  | name x =>
    rw [hleaf] at hfree hx
    have hxs : x ∉ xs := fun hmem => hx x hmem rfl
    simpa [Leaf.IsFree, hxs] using hfree

theorem Reads.name_notMem {β : Binder} {x : String} {t : Tree}
    (h : t.Reads factors β (.name x)) : x ∉ β.names := by
  obtain ⟨found, -, -, hfree⟩ := h
  exact fun hx => hfree (List.mem_append_right _ hx)

theorem Reads.mem_names {β : Binder} {x : String} {t : Tree}
    (h : t.Reads factors β (.name x)) : x ∈ t.names := by
  obtain ⟨found, hmem, hleaf, -⟩ := h
  exact (mem_of_mem_leaves hmem).2 x hleaf

namespace ReadsWithin

theorem refl (t : Tree) : ReadsWithin factors t t := ⟨fun _ h => h, fun _ h => h⟩

theorem trans {t u v : Tree} (h : ReadsWithin factors t u) (h' : ReadsWithin factors u v) :
    ReadsWithin factors t v :=
  ⟨fun i hi => h'.free i (h.free i hi), fun x hx => h'.vars x (h.vars x hx)⟩

end ReadsWithin

end Tree

/-! ### Captures -/

/-- A binder binds an index that is free in a tree, a factor of one, or the name of a variable. -/
def Binder.Captures (factors : Index → List Index) (β : Binder) (t : Tree) : Prop :=
  (∃ i ∈ β.indices, i ∈ t.free factors [] ∨ ∃ f ∈ t.free factors [], i ∈ factors f) ∨
    ∃ x ∈ β.names, t.HasVar factors x

variable {factors : Index → List Index}

theorem Binder.Captures.of_readsWithin {β : Binder} {t u : Tree} (h : β.Captures factors t)
    (htu : t.ReadsWithin factors u) : β.Captures factors u := by
  rcases h with ⟨i, hi, hfree | ⟨f, hf, hif⟩⟩ | ⟨x, hx, hvar⟩
  · exact .inl ⟨i, hi, .inl (htu.free i hfree)⟩
  · exact .inl ⟨i, hi, .inr ⟨f, htu.free f hf, hif⟩⟩
  · exact .inr ⟨x, hx, htu.vars x hvar⟩

theorem Binder.not_captures_empty {t : Tree} : ¬ Binder.empty.Captures factors t := by
  simp [Captures]

namespace Tree

theorem reads_append {β γ : Binder} {leaf : Leaf} {t : Tree} (h : ¬ γ.Captures factors t) :
    t.Reads factors (γ ++ β) leaf ↔ t.Reads factors β leaf := by
  refine ⟨Reads.of_append, ?_⟩
  rintro ⟨found, hmem, rfl, hfree⟩
  refine ⟨found, hmem, rfl, ?_⟩
  cases hleaf : found.2 with
  | index i =>
    rw [hleaf] at hfree
    have hi : i ∈ t.free factors [] :=
      mem_free.2 ⟨found, hmem, hleaf, by simpa [Leaf.IsFree] using hfree.of_append⟩
    have hγ : i ∉ γ.indices := fun hin => h (.inl ⟨i, hin, .inl hi⟩)
    have hfγ : ∀ k ∈ factors i, k ∉ γ.indices := fun k hk hin => h (.inl ⟨k, hin, .inr ⟨i, hi, hk⟩⟩)
    intro hb
    refine hfree (hb.imp (fun hin => ?_) fun hall k hk => ?_)
    · simpa [hγ] using hin
    · simpa [hfγ k hk] using hall k hk
  | name x =>
    rw [hleaf] at hfree
    have hγ : x ∉ γ.names := fun hin => h (.inr ⟨x, hin, found, hmem, hleaf⟩)
    simpa [Leaf.IsFree, hγ] using hfree

/-- Going out of a child, what reads within the child and is not captured reads within the node. -/
theorem ReadsWithin.node {shape : Shape} {children : List Tree} (hs : shape.IsInner) {k : Nat}
    {t u : Tree} (hk : children[k]? = some u) (h : t.ReadsWithin factors u)
    (hc : ¬ (shape.binder factors k).Captures factors t) :
    t.ReadsWithin factors (.node shape children) := by
  refine ⟨fun i hi => ?_, fun x hx => ?_⟩
  · have hfree : ∀ {v : Tree}, i ∈ v.free factors [] ↔ v.Reads factors .empty (.index i) :=
      mem_free_iff_reads (β := .empty)
    -- a leaf of the child may be bound by the node, but not one that the child shares with `t`
    obtain ⟨found, hmem, hleaf, hb⟩ := hfree.1 (h.free i hi)
    refine hfree.2 ((reads_node hs).2 ⟨k, u, hk, found, hmem, hleaf, fun hbound => ?_⟩)
    have hγ : i ∉ (shape.binder factors k).indices := fun hin => hc (.inl ⟨i, hin, .inl hi⟩)
    have hfγ : ∀ f ∈ factors i, f ∉ (shape.binder factors k).indices := fun f hf hin =>
      hc (.inl ⟨f, hin, .inr ⟨i, hi, hf⟩⟩)
    refine hb (hbound.imp (fun hin => ?_) fun hall f hf => ?_)
    · simpa [hγ] using hin
    · simpa [hfγ f hf] using hall f hf
  · obtain ⟨found, hmem, hleaf⟩ := h.vars x hx
    exact ⟨_, (mem_leaves_node hs).2 ⟨k, u, hk, found, hmem, rfl⟩, hleaf⟩

/-! ### Meanings -/

/-- With each index that is bound on the way to a leaf, its factors are. -/
theorem factors_bound_of_mem_leaves (hfactors : ∀ i, ∀ f ∈ factors i, factors f = [f]) {t : Tree}
    {found : Binder × Leaf} (h : found ∈ t.leaves factors) :
    ∀ i ∈ found.1.indices, ∀ f ∈ factors i, f ∈ found.1.indices := by
  induction t using Tree.induct generalizing found with
  | node shape children ih =>
    rcases shape.isInner_or with hs | ⟨j, rfl⟩ | ⟨x, rfl⟩
    · obtain ⟨k, t, ht, inside, hin, rfl⟩ := (mem_leaves_node hs).1 h
      intro i hi f hf
      have hbinds : i ∈ shape.binds factors → f ∈ shape.binds factors := by
        intro hmem
        rcases List.mem_append.1 hmem with hmem | hmem
        · exact List.mem_append_right _ (List.mem_flatMap.2 ⟨i, hmem, hf⟩)
        · obtain ⟨j, hj, hij⟩ := List.mem_flatMap.1 hmem
          obtain rfl : f = i := by simpa [hfactors j i hij] using hf
          exact List.mem_append_right _ (List.mem_flatMap.2 ⟨j, hj, hij⟩)
      rcases List.mem_append.1 hi with hi | hi
      · exact List.mem_append_left _ (ih t (List.mem_of_getElem? ht) hin i hi f hf)
      · exact List.mem_append_right _ (hbinds hi)
    · obtain rfl : found = (.empty, .index j) := by simpa [leaves] using h
      simp
    · obtain rfl : found = (.empty, .name x) := by simpa [leaves] using h
      simp

/-- A tree that a binder does not capture means the same where only what it binds has other
values. -/
theorem denote_eq_of_not_captures {V D : Type*} {ι : Interpretation V D}
    (hfactors : ∀ i, ∀ f ∈ factors i, factors f = [f]) {β : Binder} {t : Tree}
    (h : ¬ β.Captures factors t) {ρ σ : Env V D}
    (hi : ∀ i ∉ β.indices, σ.index i = ρ.index i) (hx : ∀ x ∉ β.names, σ.name x = ρ.name x) :
    t.denote ι factors σ = t.denote ι factors ρ := by
  refine denote_congr hfactors t fun found hmem => ?_
  obtain ⟨inside, leaf⟩ := found
  cases leaf with
  | index i =>
    intro k hk hin
    refine hi k fun hkβ => h (.inl ⟨k, hkβ, .inr ⟨i, mem_free.2 ⟨_, hmem, rfl, ?_⟩, hk⟩⟩)
    rintro (hb | hb)
    · exact hin (factors_bound_of_mem_leaves hfactors hmem i (by simpa using hb) k hk)
    · exact hin (by simpa using hb k hk)
  | name x =>
    intro _
    exact hx x fun hxβ => h (.inr ⟨x, hxβ, _, hmem, rfl⟩)

end Tree

end TensorRecipe
