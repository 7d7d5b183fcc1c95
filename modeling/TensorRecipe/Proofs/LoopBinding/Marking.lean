import TensorRecipe.Proofs.LoopBinding.Claiming
import TensorRecipe.Proofs.LoopBinding.Fresh
import TensorRecipe.Proofs.Pass.Outcomes
import TensorRecipe.Proofs.Tree.Paths
import TensorRecipe.Schedule

/-!
# What binding marks

Binding comes on the recipes of a tree along the ways from its root and leaves each of them after
those in its body, from left to right (`LeftBefore`).  Either it goes through the whole tree, and
every recipe finds the indices it declares among its loops (`Arena.Matched`); or it stops at the
first recipe that does not (`Arena.Refuses`) and marks one index of that; or it stops at a handle
that names nothing, and then it marks nothing.

A handle that names nothing when binding begins may name a node that binding has appended by the
time it comes there.  This is why the tree is read in the arena that binding leaves.

Main statement: what is marked after binding (`LoopBinding.marks_bind`).
-/

namespace TensorRecipe

/-! ### The order of recipes -/

/-- Whether one position is left before another, where a node is left after all below it, and
children are visited from left to right. -/
def LeftBefore : List Nat → List Nat → Prop
  | [], _ => False
  | _ :: _, [] => True
  | j :: q, k :: p => j < k ∨ j = k ∧ LeftBefore q p

namespace Arena

/-- A recipe as binding sees it, where loops around it bind the indices `above`: its body unfolds,
what it declares and nothing around it binds has the factors `declared`, and its loops, those put in
among them, have the factors `loops`. -/
def Compares (a : Arena) (above : List Index) (r : Recipe) (declared loops : List Index) : Prop :=
  ∃ b, a.Unfolds r.body b ∧ a.flatten (r.indices.toList.filter (· ∉ above)) = .ok declared ∧
    a.flatten (r.indices.missing above (b.loops above) ++ b.loops above) = .ok loops

/-- The loops of every recipe on a way from the handle to a position with the property `P` are a
rearrangement of what it declares. -/
def Resolved (a : Arena) (above : List Index) (id : NodeId) (P : List Nat → Prop) : Prop :=
  ∀ q above' d r, P q → a.Way above id q above' d → a.get d = .ok (.recipe r) →
    ∃ declared loops, a.Compares above' r declared loops ∧ loops.Perm declared

/-- The tree at the handle is `t`, and all its recipes resolve. -/
structure Matched (a : Arena) (above : List Index) (id : NodeId) (t : Tree) : Prop where
  unfolds : a.Unfolds id t
  resolved : a.Resolved above id fun _ => True

/-- The loops of a recipe are no rearrangement of what it declares, and the fault names the index to
blame. -/
def Mismatches (a : Arena) (above : List Index) (r : Recipe) (mismatch : Mismatch) (fault : Fault) :
    Prop :=
  ∃ declared loops name texts, a.Compares above r declared loops ∧
    transposition declared loops = .error mismatch ∧
    LoopBinding.names [mismatch.index] a = .ok [name] ∧ fault = mismatch.fault name texts

/-- Of the recipes on ways from the handle, the first that does not resolve is to blame. -/
def Refuses (a : Arena) (above : List Index) (id : NodeId) (mismatch : Mismatch) (fault : Fault) :
    Prop :=
  ∃ p above' d r, a.Way above id p above' d ∧ a.get d = .ok (.recipe r) ∧
    a.Mismatches above' r mismatch fault ∧ a.Resolved above id (LeftBefore · p)

/-- The trees at some of the handles are matched, and the one at the next refuses. -/
def RefusesAmong (a : Arena) (above : List Index) (ids : List NodeId) (mismatch : Mismatch)
    (fault : Fault) : Prop :=
  ∃ (k : Nat) (c : NodeId), ids[k]? = some c ∧ a.Refuses above c mismatch fault ∧
    ∀ j < k, ∀ d, ids[j]? = some d → ∃ t, a.Matched above d t

variable {a b : Arena} {above : List Index} {id : NodeId} {ids ids' : List NodeId} {t : Tree}
  {ts : List Tree} {r : Recipe} {declared loops : List Index} {mismatch : Mismatch} {fault : Fault}

theorem Compares.mono (hab : a.Extends b) (h : a.Compares above r declared loops) :
    b.Compares above r declared loops := by
  obtain ⟨body, hbody, hdeclared, hloops⟩ := h
  exact ⟨body, hbody.mono hab, by rwa [flatten_congr hab.indices],
    by rwa [flatten_congr hab.indices]⟩

theorem Matched.mono (hab : a.Extends b) (h : a.Matched above id t) : b.Matched above id t := by
  refine ⟨h.unfolds.mono hab, fun q above' d r _ hway hget => ?_⟩
  have hway' := h.unfolds.way_of_extends hab hway
  obtain ⟨⟨_, _⟩, hu, -⟩ := h.unfolds.reaches hway'.reaches
  obtain ⟨n, hn, -⟩ := hu.get
  obtain rfl : n = .recipe r := Except.ok.inj ((hab.get hn).symm.trans hget)
  obtain ⟨declared, loops, hcompares, hperm⟩ := h.resolved q above' d r trivial hway' hn
  exact ⟨declared, loops, hcompares.mono hab, hperm⟩

theorem Matched.of_get {node : Node} (hn : a.get id = .ok node) (hnot : ∀ r, node ≠ .recipe r)
    (hc : List.Forall₂ (a.Matched (node.shape.scope ++ above)) node.children ts) :
    a.Matched above id (.node node.shape ts) := by
  refine ⟨.of_get hn (hc.imp fun _ _ h => h.unfolds), fun q above' d r _ hway hget => ?_⟩
  obtain ⟨-, -, rfl⟩ | ⟨k, q, c, -, hk, hrest⟩ := (way_iff hn).1 hway
  · exact absurd (Except.ok.inj (hn.symm.trans hget)) (hnot r)
  · obtain ⟨t, -, ht⟩ := exists_of_getElem?_left hc hk
    exact ht.resolved q above' d r trivial hrest hget

theorem Matched.of_recipe (hn : a.get id = .ok (.recipe r)) (hbody : a.Matched above r.body t)
    (hcompares : a.Compares above r declared loops) (hperm : loops.Perm declared) :
    a.Matched above id (.node (.recipe r.indices r.transpose) [t]) := by
  refine ⟨.of_get hn (.cons hbody.unfolds .nil), fun q above' d r' _ hway hget => ?_⟩
  obtain ⟨-, rfl, rfl⟩ | ⟨k, q, c, -, hk, hrest⟩ := (way_iff hn).1 hway
  · obtain rfl : r = r' := Node.recipe.inj (Except.ok.inj (hn.symm.trans hget))
    exact ⟨declared, loops, hcompares, hperm⟩
  · obtain rfl : c = r.body := List.mem_singleton.1 (List.mem_of_getElem? hk)
    exact hbody.resolved q above' d r' trivial hrest hget

theorem Refuses.head (h : a.Refuses above id mismatch fault) (ids : List NodeId) :
    a.RefusesAmong above (id :: ids) mismatch fault :=
  ⟨0, id, rfl, h, fun _ hj => absurd hj (Nat.not_lt_zero _)⟩

theorem RefusesAmong.cons (hid : a.Matched above id t)
    (h : a.RefusesAmong above ids mismatch fault) :
    a.RefusesAmong above (id :: ids) mismatch fault := by
  obtain ⟨k, c, hk, hrefuses, hbefore⟩ := h
  refine ⟨k + 1, c, hk, hrefuses, fun j hj d hd => ?_⟩
  cases j with
  | zero =>
    obtain rfl : id = d := Option.some.inj hd
    exact ⟨t, hid⟩
  | succ j => exact hbefore j (Nat.lt_of_succ_lt_succ hj) d hd

theorem RefusesAmong.append (h : a.RefusesAmong above ids mismatch fault) (ids' : List NodeId) :
    a.RefusesAmong above (ids ++ ids') mismatch fault := by
  obtain ⟨k, c, hk, hrefuses, hbefore⟩ := h
  have hlt : k < ids.length := (List.getElem?_eq_some_iff.1 hk).1
  refine ⟨k, c, by rwa [List.getElem?_append_left hlt], hrefuses, fun j hj d hd => ?_⟩
  exact hbefore j hj d (by rwa [List.getElem?_append_left (hj.trans hlt)] at hd)

theorem RefusesAmong.after (hids : List.Forall₂ (a.Matched above) ids ts)
    (h : a.RefusesAmong above ids' mismatch fault) :
    a.RefusesAmong above (ids ++ ids') mismatch fault := by
  induction hids with
  | nil => exact h
  | cons hid _ ih => exact ih.cons hid

/-- What refuses among the children of a node refuses below the node. -/
theorem RefusesAmong.refuses {node : Node} (hn : a.get id = .ok node)
    (h : a.RefusesAmong (node.shape.scope ++ above) node.children mismatch fault) :
    a.Refuses above id mismatch fault := by
  obtain ⟨k, c, hk, ⟨p, above', d, r, hway, hget, hmismatches, hfirst⟩, hbefore⟩ := h
  refine ⟨k :: p, above', d, r, .down hn hk hway, hget, hmismatches, ?_⟩
  intro q above'' e r' hq hway' hget'
  obtain ⟨rfl, -⟩ | ⟨j, q, c', rfl, hj, hrest⟩ := (way_iff hn).1 hway'
  · exact False.elim hq
  · obtain hlt | ⟨rfl, hq⟩ := hq
    · obtain ⟨t, ht⟩ := hbefore j hlt c' hj
      exact ht.resolved q above'' e r' trivial hrest hget'
    · obtain rfl : c = c' := Option.some.inj (hk.symm.trans hj)
      exact hfirst q above'' e r' hq hrest hget'

/-- A recipe that does not resolve refuses, if its body is matched. -/
theorem Matched.refuses (hn : a.get id = .ok (.recipe r)) (hbody : a.Matched above r.body t)
    (hmismatches : a.Mismatches above r mismatch fault) : a.Refuses above id mismatch fault := by
  refine ⟨[], above, id, r, .here, hn, hmismatches, ?_⟩
  intro q above' d r' hq hway hget
  obtain ⟨rfl, -⟩ | ⟨k, q, c, rfl, hk, hrest⟩ := (way_iff hn).1 hway
  · exact False.elim hq
  · obtain rfl : c = r.body := List.mem_singleton.1 (List.mem_of_getElem? hk)
    exact hbody.resolved q above' d r' trivial hrest hget

end Arena

namespace LoopBinding

open PassM

/-! ### Faults of lookups -/

/-- The fault is not that of an index that no transpose can place. -/
def Unrelated (fault : Fault) : Prop := fault.report.code ≠ .unresolvableIndex

theorem unrelated_of_get {a : Arena} {id : NodeId} {fault : Fault} (h : a.get id = .error fault) :
    Unrelated fault := by
  unfold Arena.get at h
  split at h
  · cases h
  · obtain rfl := Except.error.inj h
    exact nofun

theorem unrelated_of_indexInfo {a : Arena} {i : Index} {fault : Fault}
    (h : a.indexInfo i = .error fault) : Unrelated fault := by
  unfold Arena.indexInfo at h
  split at h
  · cases h
  · obtain rfl := Except.error.inj h
    exact nofun

theorem unrelated_of_flattenWithin {a : Arena} {fault : Fault} :
    ∀ {depth : Nat} {i : Index}, a.flattenWithin depth i = .error fault → Unrelated fault
  | 0, _, h => by
    obtain rfl := Except.error.inj h
    exact nofun
  | depth + 1, i, h => by
    unfold Arena.flattenWithin at h
    obtain hi | ⟨info, -, h⟩ := error_of_bind_eq_error h
    · exact unrelated_of_indexInfo hi
    · split at h
      · obtain hm | ⟨ls, -, h⟩ := error_of_bind_eq_error h
        · obtain ⟨f, -, hf⟩ := exists_of_mapM_eq_error hm
          exact unrelated_of_flattenWithin hf
        · cases h
      · cases h

theorem unrelated_of_flatten {a : Arena} {is : List Index} {fault : Fault}
    (h : a.flatten is = .error fault) : Unrelated fault := by
  obtain hm | ⟨ls, -, h⟩ := error_of_bind_eq_error h
  · obtain ⟨i, -, hi⟩ := exists_of_mapM_eq_error hm
    exact unrelated_of_flattenWithin hi
  · cases h

/-! ### Faults of the pass -/

/-- Steps begun in `w` stop at a fault: an unrelated one, which leaves the marks, or that of an
index to blame in the arena left, of which `R` holds and which is marked. -/
def Blamed (w : Workspace Marks) (R : Arena → Mismatch → Fault → Prop) (fault : Fault)
    (w' : Workspace Marks) : Prop :=
  w.arena.Extends w'.arena ∧
    (Unrelated fault ∧ w'.memory = w.memory ∨
      ∃ mismatch, R w'.arena mismatch fault ∧ w'.memory = w.memory.mark (.index mismatch.index))

section

variable {w w₁ w' : Workspace Marks} {R R' : Arena → Mismatch → Fault → Prop} {fault : Fault}

theorem Blamed.unrelated (h : Unrelated fault) : Blamed w R fault w :=
  ⟨.refl _, .inl ⟨h, rfl⟩⟩

/-- What is blamed after steps that leave the marks is blamed with regard to where they began. -/
theorem Blamed.after (h : Blamed w₁ R fault w') (hext : w.arena.Extends w₁.arena)
    (hmemory : w₁.memory = w.memory)
    (hR : ∀ b mismatch, w₁.arena.Extends b → R b mismatch fault → R' b mismatch fault) :
    Blamed w R' fault w' := by
  obtain ⟨hext', ⟨hun, hm⟩ | ⟨mismatch, hmismatch, hm⟩⟩ := h
  · exact ⟨hext.trans hext', .inl ⟨hun, hm.trans hmemory⟩⟩
  · exact ⟨hext.trans hext', .inr ⟨mismatch, hR _ _ hext' hmismatch, by rw [hm, hmemory]⟩⟩

theorem ends_addUnless {unchanged : Prop} [Decidable unchanged] {id : NodeId} {node : Node} :
    (addUnless unchanged id node).Ends w
      (fun _ w' => w.arena.Extends w'.arena ∧ w'.memory = w.memory) (Blamed w R) :=
  ((gives_addUnless_get _ _ _).mono fun _ _ ⟨hext, hw', _⟩ => ⟨hext, by rw [hw']⟩).ends

theorem ends_transpose (w : Workspace Marks) (declared loops : List Index) :
    (transpose declared loops).Ends w
      (fun _ w' => w' = w ∧ ∃ ds ls, w.arena.flatten declared = .ok ds ∧
        w.arena.flatten loops = .ok ls ∧ ls.Perm ds)
      (Blamed w fun a mismatch fault => ∃ ds ls name texts, a.flatten declared = .ok ds ∧
        a.flatten loops = .ok ls ∧ transposition ds ls = .error mismatch ∧
        names [mismatch.index] a = .ok [name] ∧ fault = mismatch.fault name texts) := by
  refine ends_ask_bind (fun ds hds => ends_ask_bind (fun ls hls => ?_) ?_) ?_
  · cases h : transposition ds ls with
    | ok positions =>
      have hperm := transposition_isOk_iff.1 ⟨positions, h⟩
      exact (gives_pure ⟨rfl, ds, ls, hds, hls, hperm⟩).ends
    | error mismatch =>
      obtain ⟨hres, rfl⟩ := Arena.of_flatten_eq_ok hds
      obtain ⟨hres', rfl⟩ := Arena.of_flatten_eq_ok hls
      have hmismatch : w.arena.Resolves mismatch.index :=
        (mem_of_transposition_eq_error h).elim (.of_mem_flatMap hres') (.of_mem_flatMap hres)
      obtain ⟨name, texts, hname, -, hrefuse⟩ := refuse_eq hmismatch fun i hi =>
        Arena.Resolves.of_mem_flatMap hres hi
      refine ⟨fun _ _ hrun => ?_, fun fault w' hrun => ?_⟩ <;> cases hrefuse.symm.trans hrun
      exact ⟨.refl _, .inr ⟨mismatch, ⟨_, _, name, texts, hds, hls, h, hname, rfl⟩, rfl⟩⟩
  · exact fun fault hfault => .unrelated (unrelated_of_flatten hfault)
  · exact fun fault hfault => .unrelated (unrelated_of_flatten hfault)

/-! ### Visits -/

/-- A visit matches the tree at a handle, and leaves the marks, or it stops where that refuses. -/
def Matches (visit : Visit Marks LoopNest) : Prop :=
  ∀ (id : NodeId) (nest : LoopNest) (w : Workspace Marks), (visit id nest).Ends w
    (fun s w' => w.arena.Extends w'.arena ∧ w'.memory = w.memory ∧
      ∃ t, w'.arena.Matched nest.above id t ∧ s.2 = ⟨nest.above, t.loops nest.above ++ nest.below⟩)
    (Blamed w fun a mismatch fault => a.Refuses nest.above id mismatch fault)

variable {visit : Visit Marks LoopNest}

theorem ends_all (hv : Matches visit) :
    ∀ (ids : List NodeId) (nest : LoopNest) (w : Workspace Marks), (visit.all ids nest).Ends w
      (fun s w' => w.arena.Extends w'.arena ∧ w'.memory = w.memory ∧ s.1.length = ids.length ∧
        ∃ ts, List.Forall₂ (w'.arena.Matched nest.above) ids ts ∧
          s.2 = ⟨nest.above, Tree.loopsAll nest.above ts ++ nest.below⟩)
      (Blamed w fun a mismatch fault => a.RefusesAmong nest.above ids mismatch fault)
  | [], nest, w => (gives_pure ⟨.refl _, rfl, rfl, [], .nil, rfl⟩).ends
  | id :: ids, nest, w => by
    refine Ends.bind ((hv id nest w).mono (fun _ _ h => h) fun fault w' h =>
      h.after (.refl _) rfl fun _ _ _ hrefuses => hrefuses.head ids) ?_
    rintro ⟨id', nest'⟩ w₁ ⟨hext, hmemory, t, ht, rfl⟩
    refine Ends.bind ((ends_all hv ids _ w₁).mono (fun _ _ h => h) fun fault w' h =>
      h.after hext hmemory fun _ _ hext' hrefuses => hrefuses.cons (ht.mono hext')) ?_
    rintro ⟨ids', nest'⟩ w₂ ⟨hext', hmemory', hlen, ts, hts, rfl⟩
    refine (gives_pure ⟨hext.trans hext', hmemory'.trans hmemory, by simpa using hlen, t :: ts,
      .cons (ht.mono hext') hts, ?_⟩).ends
    simp [Tree.loopsAll]

theorem ends_rebuild (hv : Matches visit) {id : NodeId} {node : Node} {nest : LoopNest}
    (hn : w.arena.get id = .ok node) (hnot : ∀ r, node ≠ .recipe r)
    (hscope : node.shape.scope = []) : (Rule.rebuild visit id node nest).Ends w
      (fun s w' => w.arena.Extends w'.arena ∧ w'.memory = w.memory ∧ ∃ ts,
        w'.arena.Matched nest.above id (.node node.shape ts) ∧
          s.2 = ⟨nest.above, Tree.loopsAll nest.above ts ++ nest.below⟩)
      (Blamed w fun a mismatch fault => a.Refuses nest.above id mismatch fault) := by
  refine Ends.bind ((ends_all hv node.children nest w).mono (fun _ _ h => h)
    fun fault w' h => ?_) ?_
  · refine ⟨h.1, h.2.imp_right fun ⟨mismatch, hrefuses, hm⟩ => ⟨mismatch, ?_, hm⟩⟩
    exact Arena.RefusesAmong.refuses (h.1.get hn) (by rwa [hscope])
  · rintro ⟨new, nest'⟩ w₁ ⟨hext, hmemory, hlen, ts, hts, rfl⟩
    refine Gives.ends (Gives.bind (Q := fun _ w' => w₁.arena.Extends w'.arena ∧
      w'.memory = w₁.memory) ?_ ?_)
    · rw [setChildren_eq hlen]
      exact (gives_addUnless_get _ _ _).mono fun _ _ ⟨hext', hw', _⟩ => ⟨hext', by rw [hw']⟩
    · rintro id' w₂ ⟨hext', hmemory'⟩
      refine gives_pure ⟨hext.trans hext', hmemory'.trans hmemory, ts, ?_, rfl⟩
      refine .of_get ((hext.trans hext').get hn) hnot ?_
      rw [hscope]
      exact hts.imp fun _ _ h => h.mono hext'

/-- What is below a loop refuses where the loop does. -/
theorem ends_enterLoop (hv : Matches visit) {build : List Index → NodeId → Node} {is : List Index}
    {body id : NodeId} {nest : LoopNest} (hn : w.arena.get id = .ok (build is body))
    (hnot : ∀ r, build is body ≠ .recipe r) (hchildren : (build is body).children = [body])
    (hscope : (build is body).shape.scope = is) :
    (enterLoop build is body visit id nest).Ends w
      (fun s w' => w.arena.Extends w'.arena ∧ w'.memory = w.memory ∧ ∃ t,
        w'.arena.Matched nest.above id (.node (build is body).shape [t]) ∧
          s.2 = t.loops (is ++ nest.above) ++ nest.below)
      (Blamed w fun a mismatch fault => a.Refuses nest.above id mismatch fault) := by
  refine Ends.bind ((hv body _ w).mono (fun _ _ h => h) fun fault w' h => ?_) ?_
  · refine ⟨h.1, h.2.imp_right fun ⟨mismatch, hrefuses, hm⟩ => ⟨mismatch, ?_, hm⟩⟩
    refine Arena.RefusesAmong.refuses (h.1.get hn) ?_
    rw [hscope, hchildren]
    exact hrefuses.head []
  · rintro ⟨new, nest'⟩ w₁ ⟨hext, hmemory, t, ht, rfl⟩
    refine Ends.bind (ends_addUnless.mono (fun _ _ h => h) fun fault w' h =>
      h.after hext hmemory fun _ _ _ hrefuses => hrefuses) ?_
    rintro id' w₂ ⟨hext', hmemory'⟩
    refine (gives_pure ⟨hext.trans hext', hmemory'.trans hmemory, t, ?_, rfl⟩).ends
    refine .of_get ((hext.trans hext').get hn) hnot ?_
    rw [hscope, hchildren]
    exact .cons (ht.mono hext') .nil

theorem ends_bindRecipe (hv : Matches visit) {r : Recipe} {id : NodeId} {nest : LoopNest}
    (hn : w.arena.get id = .ok (.recipe r)) :
    (bindRecipe r visit id nest).Ends w
      (fun s w' => w.arena.Extends w'.arena ∧ w'.memory = w.memory ∧ ∃ t,
        w'.arena.Matched nest.above id (.node (.recipe r.indices r.transpose) [t]) ∧
          s.2 = ⟨nest.above, Tree.loops nest.above (.node (.recipe r.indices r.transpose) [t]) ++
            nest.below⟩)
      (Blamed w fun a mismatch fault => a.Refuses nest.above id mismatch fault) := by
  refine Ends.bind ((hv r.body _ w).mono (fun _ _ h => h) fun fault w' h => ?_) ?_
  · refine ⟨h.1, h.2.imp_right fun ⟨mismatch, hrefuses, hm⟩ => ⟨mismatch, ?_, hm⟩⟩
    exact Arena.RefusesAmong.refuses (h.1.get hn) (hrefuses.head [])
  rintro ⟨body, inner⟩ w₁ ⟨hext, hmemory, t, ht, rfl⟩
  have hfree : (r.indices.toList.filter (· ∉ nest.above)).filter (· ∉ t.loops nest.above ++ []) =
      r.indices.missing nest.above (t.loops nest.above) := by
    rw [List.append_nil, List.filter_filter]
    exact List.filter_congr fun i _ => by simp [Bool.and_comm]
  dsimp only
  rw [hfree, List.append_nil]
  refine Ends.bind ((ends_transpose w₁ _ _).mono (fun _ _ h => h) fun fault w' h =>
    h.after hext hmemory fun a mismatch hext' => ?_) ?_
  · rintro ⟨ds, ls, name, texts, hds, hls, hmismatch, hname, rfl⟩
    have hmatched := ht.mono hext'
    exact hmatched.refuses ((hext.trans hext').get hn)
      ⟨ds, ls, name, texts, ⟨t, hmatched.unfolds, hds, hls⟩, hmismatch, hname, rfl⟩
  rintro positions w₂ ⟨rfl, ds, ls, hds, hls, hperm⟩
  refine Ends.bind gives_log.ends ?_
  rintro _ w₃ rfl
  refine Ends.bind (ends_addUnless.mono (fun _ _ h => h) fun fault w' h =>
    h.after (w := w) hext hmemory fun _ _ _ hrefuses => hrefuses) ?_
  rintro body' w₄ ⟨hext', hmemory'⟩
  refine Ends.bind gives_addNode.ends ?_
  rintro id' w₅ ⟨rfl, rfl⟩
  have hext₅ := Arena.Extends.trans hext' (.addNode w₄.arena
    (.recipe { r with body := body', transpose := some positions }))
  refine (gives_pure ⟨hext.trans hext₅, hmemory'.trans hmemory, t, ?_, ?_⟩).ends
  · exact .of_recipe ((hext.trans hext₅).get hn) (ht.mono hext₅)
      (.mono hext₅ ⟨t, ht.unfolds, hds, hls⟩) hperm
  · simp [Tree.loops, Tree.loopsAll]

theorem ends_values (hv : Matches visit) {above : List Index} :
    ∀ (bindings : List Binding) (w : Workspace Marks),
      PassM.Ends (bindings.mapM (bindValue visit above)) w
        (fun _ w' => w.arena.Extends w'.arena ∧ w'.memory = w.memory ∧
          ∃ ts, List.Forall₂ (w'.arena.Matched above) (bindings.map Binding.value) ts)
        (Blamed w fun a mismatch fault =>
          a.RefusesAmong above (bindings.map Binding.value) mismatch fault)
  | [], w => (gives_pure ⟨.refl _, rfl, [], .nil⟩).ends
  | b :: bindings, w => by
    rw [List.mapM_cons]
    have hvalue : PassM.Ends (bindValue visit above b) w
        (fun _ w' => w.arena.Extends w'.arena ∧ w'.memory = w.memory ∧
          ∃ t, w'.arena.Matched above b.value t)
        (Blamed w fun a mismatch fault => a.Refuses above b.value mismatch fault) := by
      refine Ends.bind (hv b.value ⟨above, []⟩ w) ?_
      rintro ⟨value, nest⟩ w' ⟨hext, hmemory, t, ht, -⟩
      exact (gives_pure ⟨hext, hmemory, t, ht⟩).ends
    refine Ends.bind (hvalue.mono (fun _ _ h => h) fun fault w' h =>
      h.after (.refl _) rfl fun _ _ _ hrefuses => hrefuses.head _) ?_
    rintro new w₁ ⟨hext, hmemory, t, ht⟩
    refine Ends.bind ((ends_values hv bindings w₁).mono (fun _ _ h => h) fun fault w' h =>
      h.after hext hmemory fun _ _ hext' hrefuses => hrefuses.cons (ht.mono hext')) ?_
    rintro news w₂ ⟨hext', hmemory', ts, hts⟩
    exact (gives_pure ⟨hext.trans hext', hmemory'.trans hmemory, t :: ts,
      .cons (ht.mono hext') hts⟩).ends

theorem ends_bindLet (hv : Matches visit) {bindings : List Binding} {body id : NodeId}
    {nest : LoopNest} (hn : w.arena.get id = .ok (.letIn bindings body)) :
    (bindLet bindings body visit id nest).Ends w
      (fun s w' => w.arena.Extends w'.arena ∧ w'.memory = w.memory ∧ ∃ ts,
        w'.arena.Matched nest.above id (.node (.letIn (bindings.map Binding.name)) ts) ∧
          s.2 = ⟨nest.above, Tree.loopsLast nest.above ts ++ nest.below⟩)
      (Blamed w fun a mismatch fault => a.Refuses nest.above id mismatch fault) := by
  refine Ends.bind ((ends_values hv bindings w).mono (fun _ _ h => h) fun fault w' h => ?_) ?_
  · refine ⟨h.1, h.2.imp_right fun ⟨mismatch, hrefuses, hm⟩ => ⟨mismatch, ?_, hm⟩⟩
    exact Arena.RefusesAmong.refuses (h.1.get hn) (hrefuses.append [body])
  rintro new w₁ ⟨hext, hmemory, ts, hts⟩
  refine Ends.bind ((hv body nest w₁).mono (fun _ _ h => h) fun fault w' h =>
    h.after hext hmemory fun a mismatch hext' hrefuses => ?_) ?_
  · refine Arena.RefusesAmong.refuses ((hext.trans hext').get hn) ?_
    exact (hrefuses.head []).after (hts.imp fun _ _ h => h.mono hext')
  rintro ⟨newBody, nest'⟩ w₂ ⟨hext', hmemory', t, ht, rfl⟩
  refine Ends.bind (ends_addUnless.mono (fun _ _ h => h) fun fault w' h =>
    h.after (hext.trans hext') (hmemory'.trans hmemory) fun _ _ _ hrefuses => hrefuses) ?_
  rintro id' w₃ ⟨hext'', hmemory''⟩
  have hext₃ := hext'.trans hext''
  refine (gives_pure ⟨hext.trans hext₃, hmemory''.trans (hmemory'.trans hmemory), ts ++ [t], ?_,
    ?_⟩).ends
  · refine .of_get ((hext.trans hext₃).get hn) (by simp) ?_
    exact List.rel_append (hts.imp fun _ _ h => h.mono hext₃) (.cons (ht.mono hext'') .nil)
  · rw [Tree.loopsLast_append_singleton]

theorem matches_transformWithin : ∀ depth, Matches (rule.transformWithin depth)
  | 0, _, _, _ => ends_throw (.unrelated nofun)
  | depth + 1, id, nest, w => by
    have hv := matches_transformWithin depth
    refine ends_ask_bind (fun n hn => ?_) fun fault h => .unrelated (unrelated_of_get h)
    have hrebuild : ∀ {shape : Shape}, n.shape = shape → shape.scope = [] →
        (∀ r, n ≠ .recipe r) →
        (∀ ts, Tree.loops nest.above (.node shape ts) = Tree.loopsAll nest.above ts) →
        (Rule.rebuild (rule.transformWithin depth) id n nest).Ends w
          (fun s w' => w.arena.Extends w'.arena ∧ w'.memory = w.memory ∧ ∃ t,
            w'.arena.Matched nest.above id t ∧
              s.2 = ⟨nest.above, t.loops nest.above ++ nest.below⟩)
          (Blamed w fun a mismatch fault => a.Refuses nest.above id mismatch fault) := by
      rintro _ rfl hscope hnot hloops
      refine (ends_rebuild hv hn hnot hscope).mono ?_ fun _ _ h => h
      rintro s w' ⟨hext, hmemory, ts, hts, hs⟩
      exact ⟨hext, hmemory, _, hts, by rw [hs, hloops]⟩
    cases n with
    | recipe r =>
      refine (ends_bindRecipe hv hn).mono ?_ fun _ _ h => h
      rintro s w' ⟨hext, hmemory, t, ht, hs⟩
      exact ⟨hext, hmemory, _, ht, hs⟩
    | forAll is body | indexSum is body =>
      refine Ends.bind (ends_enterLoop hv hn (by simp) rfl rfl) ?_
      rintro ⟨id', below⟩ w' ⟨hext, hmemory, t, ht, rfl⟩
      refine (gives_pure ⟨hext, hmemory, _, ht, ?_⟩).ends
      simp [Tree.loops, Tree.loopsAll, Node.shape]
    | letIn bindings body =>
      refine (ends_bindLet hv hn).mono ?_ fun _ _ h => h
      rintro s w' ⟨hext, hmemory, ts, hts, hs⟩
      exact ⟨hext, hmemory, _, hts, hs⟩
    | _ => exact hrebuild rfl rfl (by simp) fun _ => rfl

end

/-! ### Binding -/

theorem ends_bind (root : NodeId) (w : Workspace Marks) :
    (bind root).Ends w
      (fun _ w' => w'.memory = w.memory)
      (Blamed w fun a mismatch fault => a.Refuses [] root mismatch fault) := by
  refine Ends.bind (Q := fun _ w' => w'.memory = w.memory) ?_ fun _ _ h => (gives_pure h).ends
  refine ends_ask_bind (fun depth _ => ?_) fun fault h => ?_
  · exact (matches_transformWithin depth root .empty w).mono (fun _ _ h => h.2.1) fun _ _ h => h
  · cases h

/-- What is scheduled was bound without a mark. -/
theorem ensures_schedule (options : Extraction.Options) (root : NodeId) (w : Workspace Unit) :
    (schedule options root).Ensures w fun r _ => r.2 = .empty := by
  unfold schedule
  refine gives_log.ensures.bind fun _ w₁ _ => ?_
  refine Ensures.bind (Q := fun r _ => r.2 = .empty) (fun r w₂ hrun => ?_) ?_
  · obtain ⟨v, hbind, hmarks, -⟩ := of_within_eq_ok hrun
    rw [bindFresh_eq] at hbind
    exact hmarks.trans ((ends_bind root _).ok _ _ hbind)
  · rintro ⟨bound, marks⟩ w₂ rfl
    refine gives_log.ensures.bind fun _ w₃ _ => ?_
    refine Ensures.bind (Q := fun _ _ => True) (fun _ _ _ => trivial) ?_
    rintro ⟨id, m⟩ w₄ -
    exact ensures_pure rfl

/-- Binding by a pass of its own is binding.  It leaves the marks as they are, unless it stops at a
recipe that does not resolve.  Then it marks one index more, which the fault quotes by its name: an
index among the factors of what that recipe declares or of its loops.  All recipes left before that
one resolve.  If no handle of the tree named nothing at first and names a node by then, the recipe is
one that was there at first.  So where a recipe is scheduled, nothing is marked. -/
theorem marks_bind (root : NodeId) (w : Workspace Marks) :
    bindFresh root w = bind root w ∧
    (∀ out w', bind root w = .ok out w' → w'.memory = w.memory) ∧
    (∀ fault w', bind root w = .error fault w' → fault.report.code ≠ .unresolvableIndex →
      w'.memory = w.memory) ∧
    (∀ fault w', bind root w = .error fault w' → fault.report.code = .unresolvableIndex →
      ∃ (i : Index) (name reason : String) (texts : List String),
        (∀ key, w'.memory.isMarked key ↔ key = .index i ∨ w.memory.isMarked key) ∧
        names [i] w'.arena = .ok [name] ∧ fault.report = Fault.unresolvable name reason texts ∧
        ∃ p above d r declared loops, w'.arena.Way [] root p above d ∧
          w'.arena.get d = .ok (.recipe r) ∧ w'.arena.Compares above r declared loops ∧
          (i ∈ loops ∨ i ∈ declared) ∧ ¬ loops.Perm declared ∧
          (∀ q above' d' r', LeftBefore q p → w'.arena.Way [] root q above' d' →
            w'.arena.get d' = .ok (.recipe r') → ∃ declared' loops',
              w'.arena.Compares above' r' declared' loops' ∧ loops'.Perm declared') ∧
          ((∀ c, w.arena.Reaches root c → c.pos < w.arena.size ∨ w'.arena.size ≤ c.pos) →
            w.arena.Way [] root p above d ∧ w.arena.get d = .ok (.recipe r))) ∧
    ∀ options (u u' : Workspace Unit) out marks,
      schedule options root u = .ok (out, marks) u' → marks = .empty := by
  refine ⟨by rw [bindFresh_eq], (ends_bind root w).ok, fun fault w' hrun hcode => ?_,
    fun fault w' hrun hcode => ?_, fun options u u' out marks hrun => ?_⟩
  · obtain ⟨-, ⟨-, hmemory⟩ | ⟨mismatch, hrefuses, -⟩⟩ := (ends_bind root w).error fault w' hrun
    · exact hmemory
    · obtain ⟨p, above, d, r, -, -, ⟨declared, loops, name, texts, -, -, -, rfl⟩, -⟩ := hrefuses
      exact absurd (unresolvable_fault mismatch name texts).2 hcode
  · obtain ⟨hext, ⟨hunrelated, -⟩ | ⟨mismatch, hrefuses, hmemory⟩⟩ :=
      (ends_bind root w).error fault w' hrun
    · exact absurd hcode hunrelated
    obtain ⟨p, above, d, r, hway, hget, ⟨declared, loops, name, texts, hcompares, hmismatch, hname,
      rfl⟩, hbefore⟩ := hrefuses
    obtain ⟨reason, hreason⟩ : ∃ reason, (mismatch.fault name texts).report =
        Fault.unresolvable name reason texts := by
      cases mismatch <;> exact ⟨_, rfl⟩
    have hnot : ¬ loops.Perm declared := fun hperm => by
      obtain ⟨positions, hok⟩ := transposition_isOk_iff.2 hperm
      simp [hok] at hmismatch
    refine ⟨mismatch.index, name, reason, texts, ?_, hname, hreason, p, above, d, r, declared,
      loops, hway, hget, hcompares, mem_of_transposition_eq_error hmismatch, hnot, hbefore,
      fun hold => ?_⟩
    · intro key
      rw [hmemory, Marks.isMarked_mark]
    · have hway' := hway.of_extends hext hold
      have hd : d.pos < w.arena.size :=
        (hold d hway'.reaches).resolve_right (Arena.pos_lt_of_get hget).not_ge
      exact ⟨hway', (hext.get_eq hd).symm.trans hget⟩
  · exact ensures_schedule options root u (out, marks) u' hrun

/-- A recipe that resolves, and after it one that loops over an index it does not declare. -/
def strayLoop : Arena where
  nodes := #[.var "u", .recipe ⟨⟨[⟨0⟩], [], []⟩, ⟨0⟩, none⟩, .forAll [⟨1⟩] ⟨0⟩,
    .recipe ⟨⟨[⟨0⟩], [], []⟩, ⟨2⟩, none⟩, .operator .product [⟨1⟩, ⟨3⟩]]
  indices := #[⟨"i", 2, .domain, []⟩, ⟨"j", 3, .domain, []⟩]

/-- Binding stops there.  That index is marked besides what has been, and the fault quotes it. -/
theorem marks_bind_strayLoop :
    ∃ fault w' reason texts, bindFresh ⟨4⟩ ⟨strayLoop, [], Marks.empty.mark (.node ⟨0⟩)⟩ =
        .error fault w' ∧
      fault.report = Fault.unresolvable "j" reason texts ∧
      (∀ key, w'.memory.isMarked key ↔ key = .index ⟨1⟩ ∨ key = .node ⟨0⟩) ∧
      ∃ p above d r declared loops, w'.arena.Way [] ⟨4⟩ p above d ∧
        w'.arena.get d = .ok (.recipe r) ∧ w'.arena.Compares above r declared loops ∧
        (⟨1⟩ ∈ loops ∨ ⟨1⟩ ∈ declared) ∧ ¬ loops.Perm declared := by
  have hrun : (match bind ⟨4⟩ ⟨strayLoop, [], Marks.empty.mark (.node ⟨0⟩)⟩ with
    | .ok _ _ => false
    | .error fault w => decide (fault.report.code = .unresolvableIndex ∧
        w.memory.isMarked (.index ⟨1⟩) ∧ names [⟨1⟩] w.arena = .ok ["j"])) = true := by
      decide +kernel
  obtain ⟨hfresh, -, -, hrefused, -⟩ :=
    marks_bind ⟨4⟩ ⟨strayLoop, [], Marks.empty.mark (.node ⟨0⟩)⟩
  cases hbind : bind ⟨4⟩ ⟨strayLoop, [], Marks.empty.mark (.node ⟨0⟩)⟩ with
  | ok out w' => simp [hbind] at hrun
  | error fault w' =>
    rw [hbind] at hrun
    obtain ⟨hcode, hmarked, hname⟩ := of_decide_eq_true hrun
    obtain ⟨i, name, reason, texts, hmarks, hnames, hreport, p, above, d, r, declared, loops, hway,
      hget, hcompares, hmem, hperm, -⟩ := hrefused fault w' hbind hcode
    obtain rfl : i = ⟨1⟩ := by
      rcases (hmarks (.index ⟨1⟩)).1 hmarked with h | h
      · exact (Key.index.inj h).symm
      · exact absurd h (by decide)
    obtain rfl : name = "j" := by
      rw [hname] at hnames
      exact (List.singleton_inj.1 (Except.ok.inj hnames)).symm
    refine ⟨fault, w', reason, texts, hfresh.trans hbind, hreport, fun key => ?_, p, above, d, r,
      declared, loops, hway, hget, hcompares, hmem, hperm⟩
    rw [hmarks, Marks.isMarked_mark]
    simp [Marks.isMarked, Marks.empty]

end LoopBinding

end TensorRecipe
