import TensorRecipe.Extraction.Reductions
import TensorRecipe.Proofs.Extraction.Floating
import TensorRecipe.Proofs.Extraction.Outcome

/-!
# Replacing sums

What the pass remembers of its region are the reductions of that region, in the order of their
completion (`State`), which is the order in which the log has them.  Trees that have been visited
are drafts without lets, and what was minted on the way is what these drafts and the reductions that
float bind (`Replaced`).
-/

namespace TensorRecipe

namespace Extraction

open Draft PassM

/-! ### Memory -/

/-- The names that have been minted, in the order of time. -/
def inOrder (w : Workspace Memory) : List String := (minted w.events).reverse

/-- The pass knows these reductions of its region.  Each refers to earlier ones. -/
structure State (factors : Index → List Index) (used : List String)
    (known : List (Reduction × Draft)) (w : Workspace Memory) : Prop where
  factors_eq : w.arena.factors = factors
  pending : List.Forall₂ (fun (t : Temporary) (b : Reduction × Draft) =>
    t.name = b.1.name ∧ w.arena.Unfolds t.value b.2.core.toTree) w.memory.region.pending known
  memo : ∀ e ∈ w.memory.region.known, ∃ b ∈ known,
    b.1.name = e.2 ∧ b.1.home = e.1.2 ∧ w.arena.Unfolds e.1.1 b.1.sum
  used_reserved : ∀ x ∈ used, x ∈ w.memory.namer.reserved
  reserved : ∀ b ∈ known, b.1.name ∈ w.memory.namer.reserved
  fresh : ∀ b ∈ known, b.1.name ∉ used
  names : ∀ b ∈ known, ∀ y ∈ b.1.sum.names, y ∈ used
  homes : ∀ b ∈ known, b.1.home ≤ w.memory.lastScope
  earlier : ∀ (k : Nat) b, known[k]? = some b → ∀ x ∈ b.2.refs, ∃ j < k, ∃ v,
    known[j]? = some (x, v)
  nodup : (known.map (·.1.name)).Nodup
  ne_ref : ∀ b ∈ known, ∀ x, b.2.core ≠ .ref x
  sorted : (known.map (·.1.name)).Sublist (inOrder w)
  lowest : ∀ b ∈ known, ∀ r ∈ b.2.regions, Lowest (inOrder w) r

/-- The workspace has grown, and just the names of these reductions have been minted. -/
structure Advances (w w' : Workspace Memory) (xs : List Reduction) : Prop where
  arena : w.arena.Extends w'.arena
  reserved : ∀ x ∈ w.memory.namer.reserved, x ∈ w'.memory.namer.reserved
  lastScope : w.memory.lastScope ≤ w'.memory.lastScope
  fresh : ∀ x ∈ xs, x.name ∉ w.memory.namer.reserved ∧ x.name ∈ w'.memory.namer.reserved
  nodup : (xs.map Reduction.name).Nodup
  minted : (minted w'.events).Perm (xs.map Reduction.name ++ minted w.events)
  sorted : (inOrder w).Sublist (inOrder w')

/-- The name has been minted for the sum of a key, and the sum has joined the region. -/
structure Mints (w w' : Workspace Memory) (name : String) (key : NodeId × Nat) (value : NodeId) :
    Prop where
  arena : w.arena.Extends w'.arena
  region : w'.memory.region = w.memory.region.add key { name, value }
  reserved : w'.memory.namer.reserved = name :: w.memory.namer.reserved
  lastScope : w'.memory.lastScope = w.memory.lastScope
  bound : w'.memory.bound = w.memory.bound
  fresh : name ∉ w.memory.namer.reserved
  logged : w'.events = .extracted name key.1 key.2 :: w.events

theorem Mints.extracted {w w' : Workspace Memory} {name : String} {key : NodeId × Nat}
    {value : NodeId} (h : Mints w w' name key value) :
    extractions w'.events = (name, key.1) :: extractions w.events := by
  rw [h.logged]
  rfl

theorem Mints.minted {w w' : Workspace Memory} {name : String} {key : NodeId × Nat}
    {value : NodeId} (h : Mints w w' name key value) :
    Extraction.minted w'.events = name :: Extraction.minted w.events := by
  rw [minted_eq, h.extracted, List.map_cons, ← minted_eq]

section

variable {factors : Index → List Index} {used : List String} {known : List (Reduction × Draft)}
  {w w' w'' : Workspace Memory}

namespace State

theorem mono (h : State factors used known w) {xs : List Reduction} (h' : Advances w w' xs)
    (hregion : w'.memory.region = w.memory.region) : State factors used known w' := by
  refine ⟨(Arena.factors_congr h'.arena.indices).trans h.factors_eq, ?_, ?_,
    fun x hx => h'.reserved x (h.used_reserved x hx), fun b hb => h'.reserved _ (h.reserved b hb),
    h.fresh, h.names, fun b hb => (h.homes b hb).trans h'.lastScope, h.earlier, h.nodup, h.ne_ref,
    h.sorted.trans h'.sorted, fun b hb r hr => (h.lowest b hb r hr).mono h'.sorted⟩
  · rw [hregion]
    exact h.pending.imp fun t b ⟨hname, hun⟩ => ⟨hname, hun.mono h'.arena⟩
  · intro e he
    rw [hregion] at he
    obtain ⟨b, hb, hname, hhome, hun⟩ := h.memo e he
    exact ⟨b, hb, hname, hhome, hun.mono h'.arena⟩

theorem empty (hfactors : w.arena.factors = factors) (hregion : w.memory.region = .empty)
    (hused : ∀ x ∈ used, x ∈ w.memory.namer.reserved) : State factors used [] w := by
  have hpending : w.memory.region.pending = [] := by rw [hregion]; rfl
  have hknown : w.memory.region.known = [] := by rw [hregion]; rfl
  refine ⟨hfactors, by simp [hpending], by simp [hknown], hused, by simp, by simp, by simp, by simp,
    by simp, by simp, by simp, by simp, by simp⟩

theorem mem_of_refs (h : State factors used known w) :
    ∀ b ∈ known, ∀ x ∈ b.2.refs, x ∈ known.map Prod.fst := by
  intro b hb x hx
  obtain ⟨k, hk⟩ := List.mem_iff_getElem?.1 hb
  obtain ⟨j, -, v, hj⟩ := h.earlier k b hk x hx
  exact List.mem_map.2 ⟨_, List.mem_of_getElem? hj, rfl⟩

/-- The name found for a sum in a scope is that of a reduction that stands for it. -/
theorem exists_of_find? (h : State factors used known w) {id : NodeId} {t : Tree}
    (hid : w.arena.Unfolds id t) {n : Nat} {name : String}
    (hfind : w.memory.region.find? (id, n) = some name) :
    ∃ b ∈ known, b.1.name = name ∧ b.1.home = n ∧ b.1.sum = t := by
  unfold Region.find? at hfind
  obtain ⟨e, he, rfl⟩ := Option.map_eq_some_iff.1 hfind
  obtain ⟨b, hb, hname, hhome, hun⟩ := h.memo e (List.mem_of_find?_eq_some he)
  have hkey : e.1 = (id, n) := by simpa using List.find?_some he
  rw [hkey] at hhome hun
  exact ⟨b, hb, hname, hhome, hun.unique hid⟩

/-- A sum that is new in the region. -/
theorem add (h : State factors used known w) {id value : NodeId} {x : Reduction} {v : Draft}
    (hm : Mints w w' x.name (id, x.home) value) (hid : w.arena.Unfolds id x.sum)
    (hvalue : w.arena.Unfolds value v.core.toTree) (hnames : ∀ y ∈ x.sum.names, y ∈ used)
    (hhome : x.home ≤ w.memory.lastScope) (hrefs : ∀ y ∈ v.refs, y ∈ known.map Prod.fst)
    (hne : ∀ y, v.core ≠ .ref y) (hlowest : ∀ r ∈ v.regions, Lowest (inOrder w) r) :
    State factors used (known ++ [(x, v)]) w' := by
  have hname : x.name ∉ used := fun hx => hm.fresh (h.used_reserved _ hx)
  have hsorted : inOrder w' = inOrder w ++ [x.name] := by
    rw [inOrder, hm.minted, List.reverse_cons]
    rfl
  have hlater : (inOrder w).Sublist (inOrder w') := hsorted ▸ List.sublist_append_left _ _
  have hnew : x.name ∉ known.map (·.1.name) := fun hmem => by
    obtain ⟨b, hb, hname⟩ := List.mem_map.1 hmem
    exact hm.fresh (hname ▸ h.reserved b hb)
  refine ⟨(Arena.factors_congr hm.arena.indices).trans h.factors_eq, ?_, ?_, fun y hy => ?_,
    forall_mem_concat (fun b hb => ?_) ?_, forall_mem_concat h.fresh hname,
    forall_mem_concat h.names hnames,
    forall_mem_concat (fun b hb => (h.homes b hb).trans hm.lastScope.ge)
      (hhome.trans hm.lastScope.ge), ?_,
    by simpa [List.concat_eq_append] using h.nodup.concat hnew,
    forall_mem_concat h.ne_ref hne, ?_,
    forall_mem_concat (fun b hb r hr => (h.lowest b hb r hr).mono hlater)
      fun r hr => (hlowest r hr).mono hlater⟩
  · rw [hm.region]
    exact List.rel_append (h.pending.imp fun t b ⟨hname, hun⟩ => ⟨hname, hun.mono hm.arena⟩)
      (.cons ⟨rfl, hvalue.mono hm.arena⟩ .nil)
  · intro e he
    rw [hm.region] at he
    rcases List.mem_cons.1 he with rfl | he
    · exact ⟨(x, v), by simp, rfl, rfl, hid.mono hm.arena⟩
    · obtain ⟨b, hb, hname, hhome, hun⟩ := h.memo e he
      exact ⟨b, List.mem_append_left _ hb, hname, hhome, hun.mono hm.arena⟩
  · rw [hm.reserved]
    exact List.mem_cons_of_mem _ (h.used_reserved y hy)
  · rw [hm.reserved]
    exact List.mem_cons_of_mem _ (h.reserved b hb)
  · rw [hm.reserved]
    exact List.mem_cons_self
  · intro k b hk y hy
    have hold : ∀ {j : Nat} {c : Reduction × Draft}, known[j]? = some c →
        (known ++ [(x, v)])[j]? = some c := fun hj => by
      rwa [List.getElem?_append_left (List.getElem?_eq_some_iff.1 hj).1]
    rcases Nat.lt_or_ge k known.length with hlt | hge
    · rw [List.getElem?_append_left hlt] at hk
      obtain ⟨j, hj, u, hu⟩ := h.earlier k b hk y hy
      exact ⟨j, hj, u, hold hu⟩
    · obtain rfl : b = (x, v) := by
        rw [List.getElem?_append_right hge, List.getElem?_singleton] at hk
        split at hk
        · simpa using hk.symm
        · simp at hk
      obtain ⟨c, hc, rfl⟩ := List.mem_map.1 (hrefs y hy)
      obtain ⟨j, hj⟩ := List.mem_iff_getElem?.1 hc
      exact ⟨j, (List.getElem?_eq_some_iff.1 hj).1.trans_le hge, c.2, hold hj⟩
  · rw [List.map_append, hsorted]
    exact h.sorted.append_right _

end State

namespace Advances

variable {xs ys : List Reduction}

theorem refl (w : Workspace Memory) : Advances w w [] :=
  ⟨.refl _, fun _ hx => hx, le_rfl, by simp, by simp, .refl _, .refl _⟩

theorem trans (h : Advances w w' xs) (h' : Advances w' w'' ys) : Advances w w'' (xs ++ ys) := by
  refine ⟨h.arena.trans h'.arena, fun x hx => h'.reserved x (h.reserved x hx),
    h.lastScope.trans h'.lastScope, fun x hx => ?_, ?_, ?_, h.sorted.trans h'.sorted⟩
  · rcases List.mem_append.1 hx with hx | hx
    · exact ⟨(h.fresh x hx).1, h'.reserved _ (h.fresh x hx).2⟩
    · exact ⟨fun hmem => (h'.fresh x hx).1 (h.reserved _ hmem), (h'.fresh x hx).2⟩
  · rw [List.map_append]
    refine List.nodup_append.2 ⟨h.nodup, h'.nodup, ?_⟩
    intro m hm n hn heq
    obtain ⟨x, hx, rfl⟩ := List.mem_map.1 hm
    obtain ⟨y, hy, rfl⟩ := List.mem_map.1 hn
    exact (h'.fresh y hy).1 (heq ▸ (h.fresh x hx).2)
  · refine h'.minted.trans ((h.minted.append_left _).trans ?_)
    rw [← List.append_assoc, List.map_append]
    exact List.perm_append_comm.append_right _

theorem perm (h : Advances w w' xs) (hperm : xs.Perm ys) : Advances w w' ys := by
  refine ⟨h.arena, h.reserved, h.lastScope, fun x hx => h.fresh x (hperm.symm.subset hx), ?_,
    h.minted.trans ((hperm.map _).append_right _), h.sorted⟩
  exact (hperm.map _).nodup_iff.1 h.nodup

theorem of_grows (harena : w.arena.Extends w'.arena)
    (hextracted : extractions w'.events = extractions w.events)
    (hreserved : ∀ x ∈ w.memory.namer.reserved, x ∈ w'.memory.namer.reserved)
    (hlast : w.memory.lastScope ≤ w'.memory.lastScope) : Advances w w' [] := by
  have hminted := Grows.minted ⟨harena, hextracted⟩
  exact ⟨harena, hreserved, hlast, by simp, by simp, .of_eq hminted,
    by rw [inOrder, inOrder, hminted]⟩

theorem grow (h : Advances w w' xs) (h' : Advances w' w'' []) : Advances w w'' xs := by
  have := h.trans h'
  rwa [List.append_nil] at this

theorem of_mints {x : Reduction} {key : NodeId × Nat} {value : NodeId}
    (h : Mints w w' x.name key value) : Advances w w' [x] := by
  have hreserved : ∀ y, y ∈ w'.memory.namer.reserved ↔ y = x.name ∨ y ∈ w.memory.namer.reserved := by
    simp [h.reserved]
  refine ⟨h.arena, fun y hy => (hreserved y).2 (.inr hy), h.lastScope.ge, fun y hy => ?_, by simp,
    .of_eq h.minted, ?_⟩
  · obtain rfl := List.mem_singleton.1 hy
    exact ⟨h.fresh, (hreserved _).2 (.inl rfl)⟩
  · rw [inOrder, inOrder, h.minted, List.reverse_cons]
    exact List.sublist_append_left _ _

end Advances

end

/-! ### Visited trees -/

/-- The trees `ts` have been visited inside some scopes: `ids` are now drafts that expand to them,
without their lets. -/
structure Replaced (factors : Index → List Index) (used : List String) (scopes : List Scope)
    (before : List (Reduction × Draft)) (ts : List Tree) (w : Workspace Memory) (ids : List NodeId)
    (w' : Workspace Memory) (fs : List Draft) (floats after : List (Reduction × Draft)) :
    Prop where
  drafted : Drafted factors used scopes w.memory.lastScope before after fs floats
  expand : fs.map expand = ts
  unfolds : List.Forall₂ w'.arena.Unfolds ids (fs.map (·.core.toTree))
  state : State factors used after w'
  advances : Advances w w' (held bound Prod.fst fs floats)
  lowest : ∀ f ∈ fs, ∀ r ∈ f.regions, Lowest (inOrder w') r

namespace Replaced

variable {factors : Index → List Index} {used : List String} {scopes : List Scope}
  {before after : List (Reduction × Draft)} {ts : List Tree} {w w' w'' : Workspace Memory}
  {ids : List NodeId} {fs : List Draft} {floats : List (Reduction × Draft)}

theorem nil (h : State factors used before w) :
    Replaced factors used scopes before [] w [] w [] [] before :=
  ⟨.nil h.nodup, rfl, .nil, h, .refl w, by simp⟩

theorem append {mid : List (Reduction × Draft)} {us : List Tree} {more : List NodeId}
    {gs : List Draft} {further : List (Reduction × Draft)}
    (hscopes : Numbered scopes w.memory.lastScope)
    (h : Replaced factors used scopes before ts w ids w' fs floats mid)
    (h' : Replaced factors used scopes mid us w' more w'' gs further after) :
    Replaced factors used scopes before (ts ++ us) w (ids ++ more) w'' (fs ++ gs)
      (floats ++ further) after := by
  refine ⟨h.drafted.append hscopes h.advances.lastScope h'.drafted, ?_, ?_, h'.state,
    (h.advances.trans h'.advances).perm held_append.symm, fun f hf r hr => ?_⟩
  · rw [List.map_append, h.expand, h'.expand]
  · rw [List.map_append]
    exact List.rel_append (h.unfolds.imp fun _ _ hu => hu.mono h'.advances.arena) h'.unfolds
  · rcases List.mem_append.1 hf with hf | hf
    · exact (h.lowest f hf r hr).mono h'.advances.sorted
    · exact h'.lowest f hf r hr

/-- The visit of a tree inside a scope opened for it. -/
theorem close {s : Scope} {t : Tree} {id : NodeId} {f : Draft} {w₁ : Workspace Memory}
    (hscopes : Numbered scopes w.memory.lastScope) (hs : s.serial = w.memory.lastScope + 1)
    (hbefore : State factors used before w) (hopen : Advances w w₁ [])
    (hlast : w₁.memory.lastScope = s.serial)
    (h : Replaced factors used (s :: scopes) before [t] w₁ [id] w' [f] floats after) :
    ∃ g outside, Replaced factors used scopes before [t] w [id] w' [g] outside after ∧
      ∀ x, Free x g → ¬ s.binder.Captures factors x.sum := by
  have hdrafted := h.drafted
  rw [hlast] at hdrafted
  obtain ⟨hclosed, hfree⟩ := hdrafted.close hscopes hs hbefore.homes h.state.mem_of_refs
  refine ⟨_, _, ⟨hclosed, ?_, ?_, h.state, ?_, ?_⟩, hfree⟩
  · have hexpand := h.expand
    simp only [List.map_singleton] at hexpand ⊢
    rw [expand_bindIn, hexpand]
  · have hunfolds := h.unfolds
    simp only [List.map_singleton] at hunfolds ⊢
    rwa [core_bindIn]
  · exact ((hopen.trans h.advances).perm (.of_eq (List.nil_append _))).perm
      (held_bindIn _ (bound_bindIn f)).symm
  · simp only [List.mem_singleton, forall_eq, mem_regions_bindIn]
    rintro r (⟨b, hb, hr⟩ | hr)
    · exact h.state.lowest b (h.drafted.mem_after_of_mem_floats (Drafted.mem_floatsAt.1 hb).1) r hr
    · exact h.lowest f (by simp) r hr

/-- A node over visited trees, made anew unless nothing changed. -/
theorem gives_node {node : Node} {id : NodeId} (new : Node) (unchanged : Prop) [Decidable unchanged]
    (h : Replaced factors used scopes before ts w new.children w' fs floats after)
    (hnode : w.arena.get id = .ok node) (hshape : new.shape = node.shape)
    (hsame : unchanged → new.children = node.children) (inner : node.shape.IsInner ∨ fs = [])
    (unbarred : ∀ g transpose, node.shape ≠ .recipe g transpose)
    (names : ∀ y ∈ node.shape.names, y ∈ used)
    (hfree : ∀ (k : Nat) f, fs[k]? = some f → ∀ x, Free x f →
      ¬ (node.shape.binder factors k).Captures factors x.sum) :
    (addUnless unchanged id new).Gives w' fun id' w'' =>
      Replaced factors used scopes before [.node node.shape ts] w [id'] w''
        [.node node.shape fs] floats after := by
  refine (gives_addUnless h.unfolds fun hun => ?_).mono ?_
  · rw [hshape]
    refine .of_get (h.advances.arena.get hnode) ?_
    rw [← hsame hun]
    exact h.unfolds
  · rintro id' w'' ⟨hunfolds, hext, hw⟩
    have hgrow : Advances w' w'' [] := .of_grows hext (by rw [hw]) (by rw [hw]; simp) (by rw [hw])
    have hstate : State factors used after w'' := h.state.mono hgrow (by rw [hw])
    have hcore : (Draft.node node.shape fs).core.toTree =
        .node node.shape (fs.map (·.core.toTree)) := by
      rw [core_node unbarred, toTree, toTrees_eq, List.map_map]
      rfl
    refine ⟨h.drafted.node inner unbarred names hfree, ?_, ?_, hstate, ?_, ?_⟩
    · rw [List.map_singleton, Draft.expand, expandAll_eq, h.expand]
    · rw [List.map_singleton, hcore, ← hshape]
      exact .cons hunfolds .nil
    · refine (h.advances.grow hgrow).perm (.of_eq ?_)
      rw [held, held, List.flatMap_singleton, Draft.bound, boundAll_eq]
    · simp only [List.mem_singleton, forall_eq, regions_node unbarred, List.mem_flatMap]
      rintro r ⟨f, hf, hr⟩
      exact (h.lowest f hf r hr).mono hgrow.sorted

/-- A sum that has been visited becomes a reduction, and the answer refers to it. -/
theorem extract {x : Reduction} {v : Draft} {id value new : NodeId}
    (hscopes : Numbered scopes w.memory.lastScope) (hid : w.arena.Unfolds id x.sum)
    (hnames : ∀ y ∈ x.sum.names, y ∈ used) (hhome : IsHome factors x.sum scopes x.home)
    (h : Replaced factors used scopes before [x.sum] w [value] w' [v] floats after)
    (hne : ∀ y, v.core ≠ .ref y) (hm : Mints w' w'' x.name (id, x.home) value)
    (hnew : w''.arena.Unfolds new (.node (.var x.name) [])) :
    Replaced factors used scopes before [x.sum] w [new] w'' [.ref x] (floats ++ [(x, v)])
      (after ++ [(x, v)]) := by
  have hv : v.expand = x.sum := by simpa using h.expand
  have hvalue : w'.arena.Unfolds value v.core.toTree := by simpa using h.unfolds
  have hfresh : x.name ∉ used := fun hx => hm.fresh (h.state.used_reserved _ hx)
  have hunknown : x.name ∉ after.map (·.1.name) := by
    intro hx
    obtain ⟨b, hb, hname⟩ := List.mem_map.1 hx
    exact hm.fresh (hname ▸ h.state.reserved b hb)
  refine ⟨h.drafted.extract hfresh hnames hunknown hhome hv, rfl, .cons hnew .nil, ?_, ?_,
    by simp [regions]⟩
  · exact h.state.add hm (hid.mono h.advances.arena) hvalue hnames
      ((hhome.le hscopes).trans h.advances.lastScope) (h.drafted.refs v (by simp)) hne
      (h.lowest v (by simp))
  · refine (h.advances.trans (.of_mints hm)).perm ?_
    unfold held
    rw [List.flatMap_append, ← Multiset.coe_eq_coe]
    simp only [List.flatMap_singleton, Draft.bound, List.nil_append, ← Multiset.coe_add,
      ← Multiset.cons_coe, ← Multiset.singleton_add, Multiset.coe_nil, add_zero]
    abel

/-- A sum that is known: the answer refers to its reduction. -/
theorem refer {b : Reduction × Draft} {new : NodeId} (hb : b ∈ before)
    (hstate : State factors used before w) (hhome : IsHome factors b.1.sum scopes b.1.home)
    (hgrow : Advances w w' []) (hregion : w'.memory.region = w.memory.region)
    (hnew : w'.arena.Unfolds new (.node (.var b.1.name) [])) :
    Replaced factors used scopes before [b.1.sum] w [new] w' [.ref b.1] [] before :=
  ⟨.ref hstate.nodup hb (hstate.fresh b hb) (hstate.names b hb) hhome, rfl, .cons hnew .nil,
    hstate.mono hgrow hregion, hgrow, by simp [regions]⟩

end Replaced

end Extraction

end TensorRecipe
