import TensorRecipe.Proofs.LoopBinding.Nesting
import TensorRecipe.Proofs.LoopBinding.Transposition
import TensorRecipe.Proofs.Pass.Steps

/-!
# Binding is compositional

`LoopBinding.rule` threads the loops around and below through the tree from left to right.  Main
statement: on a well-formed tree it computes what `Tree.Bindable`, `Tree.withLoops` and `Tree.loops`
say of the tree alone (`transform_compositional`).  Each rule restores the loops above, and only
puts loops in front of those below.
-/

namespace TensorRecipe

namespace Tree

theorem mem_missing {g : IndexDeclaration} {above below : List Index} {i : Index} :
    i ∈ g.missing above below ↔ i ∈ g.toList ∧ i ∉ above ∧ i ∉ below := by
  simp [IndexDeclaration.missing]

theorem length_withLoopsAll {factors : Index → List Index} {above : List Index} :
    ∀ ts : List Tree, (withLoopsAll factors above ts).length = ts.length
  | [] => rfl
  | _ :: ts => by simp [withLoopsAll, length_withLoopsAll ts]

theorem bindableAll_append {factors : Index → List Index} {above : List Index} {us : List Tree} :
    ∀ ts : List Tree, BindableAll factors above (ts ++ us) ↔
      BindableAll factors above ts ∧ BindableAll factors above us
  | [] => by simp [BindableAll]
  | t :: ts => by simp [BindableAll, bindableAll_append ts, and_assoc]

theorem withLoopsAll_append {factors : Index → List Index} {above : List Index} {us : List Tree} :
    ∀ ts : List Tree, withLoopsAll factors above (ts ++ us) =
      withLoopsAll factors above ts ++ withLoopsAll factors above us
  | [] => rfl
  | t :: ts => by simp [withLoopsAll, withLoopsAll_append ts]

theorem loopsLast_append_singleton {above : List Index} {t : Tree} :
    ∀ ts : List Tree, loopsLast above (ts ++ [t]) = loops above t
  | [] => rfl
  | [_] => rfl
  | _ :: u :: ts => loopsLast_append_singleton (u :: ts)

mutual

theorem mem_indices_of_mem_loops {i : Index} :
    ∀ {t : Tree} {above : List Index}, i ∈ loops above t → i ∈ t.indices
  | node shape children, above, h => by
    rw [indices, List.mem_append]
    cases shape with
    | recipe g transpose =>
      rcases List.mem_append.1 h with h | h
      · exact .inl (mem_missing.1 h).1
      · exact .inr (mem_indicesAll_of_mem_loopsAll h)
    | forAll is =>
      rcases List.mem_append.1 h with h | h
      · exact .inl (List.mem_reverse.1 h)
      · exact .inr (mem_indicesAll_of_mem_loopsAll h)
    | indexSum is => exact .inr (mem_indicesAll_of_mem_loopsAll h)
    | letIn names => exact .inr (mem_indicesAll_of_mem_loopsLast h)
    | _ => exact .inr (mem_indicesAll_of_mem_loopsAll h)

theorem mem_indicesAll_of_mem_loopsAll {i : Index} :
    ∀ {ts : List Tree} {above : List Index}, i ∈ loopsAll above ts → i ∈ indicesAll ts
  | t :: ts, above, h => by
    rw [indicesAll, List.mem_append]
    rcases List.mem_append.1 h with h | h
    · exact .inr (mem_indicesAll_of_mem_loopsAll h)
    · exact .inl (mem_indices_of_mem_loops h)

theorem mem_indicesAll_of_mem_loopsLast {i : Index} :
    ∀ {ts : List Tree} {above : List Index}, i ∈ loopsLast above ts → i ∈ indicesAll ts
  | [t], above, h => by
    rw [indicesAll, List.mem_append]
    exact .inl (mem_indices_of_mem_loops h)
  | _ :: t :: ts, above, h => by
    rw [indicesAll, List.mem_append]
    exact .inr (mem_indicesAll_of_mem_loopsLast h)

end

end Tree

namespace LoopBinding

open PassM

/-! ### Transposes -/

/-- The fault is that of an index that no transpose can place. -/
def Unresolvable (fault : Fault) : Prop :=
  fault.report.stage = .binding ∧ fault.report.code = .unresolvableIndex

theorem unresolvable_fault (mismatch : Mismatch) (index : String) (declared : List String) :
    Unresolvable (mismatch.fault index declared) := by
  cases mismatch <;> exact ⟨rfl, rfl⟩

theorem exists_names {is : List Index} {a : Arena} (h : ∀ i ∈ is, a.Resolves i) :
    ∃ texts, names is a = .ok texts := by
  have hinfo : ∀ i ∈ is, ∃ info, a.indexInfo i = .ok info := fun i hi => (h i hi).exists_indexInfo
  obtain ⟨infos, hinfos⟩ := exists_mapM_eq_ok hinfo
  exact ⟨infos.map IndexInfo.name, by rw [names, hinfos]; rfl⟩

/-- A refusal names what it is about, so it gets as far as its own fault. -/
theorem fails_refuse {mismatch : Mismatch} {declared : List Index} {w : Workspace Marks}
    (hm : w.arena.Resolves mismatch.index) (hd : ∀ i ∈ declared, w.arena.Resolves i) :
    (refuse mismatch declared).Fails Unresolvable w := by
  obtain ⟨info, hinfo⟩ := hm.exists_indexInfo
  obtain ⟨texts, htexts⟩ := exists_names hd
  refine gives_remember.bind_fails ?_
  rintro _ w₁ rfl
  refine fails_ask_bind hinfo (fails_ask_bind htexts (gives_log.bind_fails fun _ w₂ _ => ?_))
  exact ⟨_, w₂, rfl, unresolvable_fault _ _ _⟩

theorem decides_transpose {declared loops : List Index} {w : Workspace Marks}
    (hd : ∀ i ∈ declared, w.arena.Resolves i) (hl : ∀ i ∈ loops, w.arena.Resolves i) :
    (transpose declared loops).Decides Unresolvable w
      ((loops.flatMap w.arena.factors).Perm (declared.flatMap w.arena.factors))
      fun ps w' => w' = w ∧ ps = positions (declared.flatMap w.arena.factors)
        (loops.flatMap w.arena.factors) := by
  refine decides_ask_bind (Arena.flatten_eq hd) (decides_ask_bind (Arena.flatten_eq hl) ?_)
  rw [← transposition_isOk_iff]
  constructor
  · rintro ⟨ps, hps⟩
    simp only [positions, hps]
    exact gives_pure ⟨rfl, rfl⟩
  · intro hno
    cases h : transposition (declared.flatMap w.arena.factors) (loops.flatMap w.arena.factors) with
    | ok ps => exact absurd ⟨ps, h⟩ hno
    | error mismatch =>
      refine fails_refuse ?_ fun i hi => Arena.Resolves.of_mem_flatMap hd hi
      exact (mem_of_transposition_eq_error h).elim (.of_mem_flatMap hl) (.of_mem_flatMap hd)

/-! ### Visits -/

/-- A visit does to the tree, wherever it is found, what is said of it without state. -/
def Binds (factors : Index → List Index) (visit : Visit Marks LoopNest) (t : Tree) : Prop :=
  ∀ {id : NodeId} {nest : LoopNest} {w : Workspace Marks}, w.arena.factors = factors →
    w.arena.WellFormed id t →
      (visit id nest).Decides Unresolvable w (t.Bindable factors nest.above) fun r w' =>
        w.arena.Extends w'.arena ∧ w'.arena.Unfolds r.1 (t.withLoops factors nest.above) ∧
          r.2 = ⟨nest.above, t.loops nest.above ++ nest.below⟩

section

variable {factors : Index → List Index} {visit : Visit Marks LoopNest}

theorem decides_all :
    ∀ {ts : List Tree} {ids : List NodeId} {nest : LoopNest} {w : Workspace Marks},
      (∀ t ∈ ts, Binds factors visit t) → w.arena.factors = factors →
      List.Forall₂ w.arena.WellFormed ids ts →
        (visit.all ids nest).Decides Unresolvable w (Tree.BindableAll factors nest.above ts)
          fun r w' => w.arena.Extends w'.arena ∧
            List.Forall₂ w'.arena.Unfolds r.1 (Tree.withLoopsAll factors nest.above ts) ∧
            r.2 = ⟨nest.above, Tree.loopsAll nest.above ts ++ nest.below⟩
  | [], [], nest, w, _, _, .nil => (gives_pure ⟨.refl _, .nil, rfl⟩).decides
  | t :: ts, id :: ids, nest, w, hv, hF, .cons hid hids => by
    refine (hv t (by simp) hF hid).bind ?_
    rintro ⟨id', nest'⟩ w₁ ⟨hext, hun, rfl⟩
    refine (decides_all (fun u hu => hv u (List.mem_cons_of_mem t hu))
      (by rw [Arena.factors_congr hext.indices, hF])
      (hids.imp fun _ _ h => h.mono hext)).bind_gives ?_
    rintro ⟨ids', nest'⟩ w₂ ⟨hext', huns, rfl⟩
    refine gives_pure ⟨hext.trans hext', .cons (hun.mono hext') huns, ?_⟩
    simp [Tree.loopsAll]

theorem decides_rebuild {ts : List Tree} {id : NodeId} {node : Node} {nest : LoopNest}
    {w : Workspace Marks} (hv : ∀ t ∈ ts, Binds factors visit t) (hF : w.arena.factors = factors)
    (hn : w.arena.get id = .ok node) (hc : List.Forall₂ w.arena.WellFormed node.children ts) :
    (Rule.rebuild visit id node nest).Decides Unresolvable w
      (Tree.BindableAll factors nest.above ts) fun r w' => w.arena.Extends w'.arena ∧
        w'.arena.Unfolds r.1 (.node node.shape (Tree.withLoopsAll factors nest.above ts)) ∧
        r.2 = ⟨nest.above, Tree.loopsAll nest.above ts ++ nest.below⟩ := by
  refine (decides_all hv hF hc).bind_gives ?_
  rintro ⟨new, nest'⟩ w' ⟨hext, hun, rfl⟩
  have hlen : new.length = node.children.length := by
    rw [hun.length_eq, Tree.length_withLoopsAll, hc.length_eq]
  refine (gives_setChildren (hext.get hn) hlen hun).bind ?_
  rintro id' w'' ⟨hun', hext', -⟩
  exact gives_pure ⟨hext.trans hext', hun', rfl⟩

/-- Below a loop its indices are bound. -/
theorem decides_enterLoop {build : List Index → NodeId → Node} {is : List Index} {body : NodeId}
    {b : Tree} {id : NodeId} {nest : LoopNest} {w : Workspace Marks}
    (hbuild : ∀ x, (build is x).children = [x] ∧ (build is x).shape = (build is body).shape)
    (hv : Binds factors visit b) (hF : w.arena.factors = factors)
    (hn : w.arena.get id = .ok (build is body)) (hb : w.arena.WellFormed body b) :
    (enterLoop build is body visit id nest).Decides Unresolvable w
      (b.Bindable factors (is ++ nest.above)) fun r w' => w.arena.Extends w'.arena ∧
        w'.arena.Unfolds r.1
          (.node (build is body).shape [b.withLoops factors (is ++ nest.above)]) ∧
        r.2 = b.loops (is ++ nest.above) ++ nest.below := by
  refine (hv hF hb).bind_gives ?_
  rintro ⟨new, nest'⟩ w' ⟨hext, hun, rfl⟩
  refine Gives.bind (gives_addUnless (by rw [(hbuild new).1]; exact .cons hun .nil) ?_) ?_
  · rintro rfl
    refine .of_get (hext.get hn) ?_
    rw [(hbuild new).1]
    exact .cons hun .nil
  · rintro id' w'' ⟨hun', hext', -⟩
    rw [(hbuild new).2] at hun'
    exact gives_pure ⟨hext.trans hext', hun', rfl⟩

theorem gives_wrap {is : List Index} {body : NodeId} {b : Tree} {w : Workspace Marks}
    (hb : w.arena.Unfolds body b) :
    (addUnless is.isEmpty body (.forAll is body)).Gives w fun id w' =>
      List.Forall₂ w'.arena.Unfolds [id] (Tree.wrap is [b]) ∧ w.arena.Extends w'.arena := by
  unfold addUnless
  split
  · next h => exact gives_pure ⟨by simpa [Tree.wrap, h] using hb, .refl _⟩
  · next h =>
    refine gives_addNode.mono ?_
    rintro id w' ⟨rfl, rfl⟩
    rw [Tree.wrap, if_neg h]
    have hnew : (w.arena.addNode (.forAll is body)).Unfolds _ (.node (.forAll is) [b]) :=
      Arena.unfolds_addNode (.cons hb .nil)
    exact ⟨.cons hnew .nil, .addNode _ _⟩

/-- A recipe gets the loops it lacks. -/
theorem decides_bindRecipe {r : Recipe} {b : Tree} {id : NodeId} {nest : LoopNest}
    {w : Workspace Marks} (hv : Binds factors visit b) (hF : w.arena.factors = factors)
    (hr : ∀ i ∈ r.indices.toList, w.arena.Resolves i) (hb : w.arena.WellFormed r.body b) :
    (bindRecipe r visit id nest).Decides Unresolvable w
      (Tree.Bindable factors nest.above (.node (.recipe r.indices r.transpose) [b]))
      fun s w' => w.arena.Extends w'.arena ∧
        w'.arena.Unfolds s.1
          (Tree.withLoops factors nest.above (.node (.recipe r.indices r.transpose) [b])) ∧
        s.2 = ⟨nest.above,
          Tree.loops nest.above (.node (.recipe r.indices r.transpose) [b]) ++ nest.below⟩ := by
  have hbody : (visit r.body ⟨nest.above, []⟩).Decides Unresolvable w
      (Tree.BindableAll factors nest.above [b]) _ :=
    (hv hF hb).congr (by simp [Tree.BindableAll])
  refine hbody.bind ?_
  rintro ⟨new, nest'⟩ w₁ ⟨hext, hun, rfl⟩
  have hF₁ : w₁.arena.factors = factors := by rw [Arena.factors_congr hext.indices, hF]
  have hbelow : b.loops nest.above ++ [] = Tree.loopsAll nest.above [b] := by
    simp [Tree.loopsAll]
  have hfree : (r.indices.toList.filter (· ∉ nest.above)).filter
      (· ∉ b.loops nest.above ++ []) =
      r.indices.missing nest.above (Tree.loopsAll nest.above [b]) := by
    rw [hbelow, List.filter_filter]
    exact List.filter_congr fun i _ => by simp [Bool.and_comm]
  dsimp only
  rw [hfree, hbelow]
  have hd : ∀ i ∈ r.indices.toList.filter (· ∉ nest.above), w₁.arena.Resolves i := fun i hi =>
    (hr i (List.mem_of_mem_filter hi)).congr hext.indices
  have hl : ∀ i ∈ r.indices.missing nest.above (Tree.loopsAll nest.above [b]) ++
      Tree.loopsAll nest.above [b], w₁.arena.Resolves i := by
    intro i hi
    rcases List.mem_append.1 hi with hi | hi
    · exact (hr i (Tree.mem_missing.1 hi).1).congr hext.indices
    · refine (hb.resolves i ?_).congr hext.indices
      simpa [Tree.indicesAll] using Tree.mem_indicesAll_of_mem_loopsAll hi
  refine ((decides_transpose hd hl).congr (by rw [hF₁])).bind_gives ?_
  rintro ps w₂ ⟨rfl, rfl⟩
  refine gives_log.bind ?_
  intro _ w₃ hw₃
  have hw₃' : w₃.arena = w₂.arena := by rw [hw₃]
  refine (gives_wrap (w := w₃) (by rw [hw₃']; exact hun)).bind ?_
  rintro id' w₄ ⟨hun', hext'⟩
  rw [hw₃'] at hext'
  refine gives_addNode.bind ?_
  rintro id'' w₅ ⟨rfl, rfl⟩
  refine gives_pure ⟨(hext.trans hext').trans (.addNode _ _), ?_, ?_⟩
  · subst hF₁
    rw [Tree.withLoops, Tree.withLoopsAll, Tree.withLoopsAll]
    exact Arena.unfolds_addNode hun'
  · simp [Tree.loops, Tree.loopsAll]

theorem decides_values {above : List Index} :
    ∀ {vs : List Tree} {bindings : List Binding} {w : Workspace Marks},
      (∀ t ∈ vs, Binds factors visit t) → w.arena.factors = factors →
      List.Forall₂ w.arena.WellFormed (bindings.map Binding.value) vs →
        PassM.Decides (bindings.mapM (bindValue visit above)) Unresolvable w
          (Tree.BindableAll factors above vs) fun new w' =>
            w.arena.Extends w'.arena ∧ new.map Binding.name = bindings.map Binding.name ∧
              List.Forall₂ w'.arena.Unfolds (new.map Binding.value)
                (Tree.withLoopsAll factors above vs)
  | [], [], w, _, _, .nil => (gives_pure ⟨.refl _, rfl, .nil⟩).decides
  | v :: vs, b :: bindings, w, hv, hF, .cons hb hbs => by
    rw [List.mapM_cons]
    have hvalue : PassM.Decides (bindValue visit above b) Unresolvable w (v.Bindable factors above)
        fun new w' => w.arena.Extends w'.arena ∧ new.name = b.name ∧
          w'.arena.Unfolds new.value (v.withLoops factors above) := by
      refine Decides.bind_gives (hv v (by simp) hF hb) ?_
      rintro ⟨id, nest⟩ w' ⟨hext, hun, -⟩
      exact gives_pure ⟨hext, rfl, hun⟩
    refine hvalue.bind ?_
    rintro new w₁ ⟨hext, hname, hun⟩
    refine (decides_values (fun u hu => hv u (List.mem_cons_of_mem v hu))
      (by rw [Arena.factors_congr hext.indices, hF])
      (hbs.imp fun _ _ h => h.mono hext)).bind_gives ?_
    rintro news w₂ ⟨hext', hnames, huns⟩
    refine gives_pure ⟨hext.trans hext', ?_, .cons (hun.mono hext') huns⟩
    simp [hname, hnames]

/-- The body of a let shows its loops outside. -/
theorem decides_bindLet {bindings : List Binding} {body : NodeId} {ts : List Tree} {id : NodeId}
    {nest : LoopNest} {w : Workspace Marks} (hv : ∀ t ∈ ts, Binds factors visit t)
    (hF : w.arena.factors = factors) (hn : w.arena.get id = .ok (.letIn bindings body))
    (hc : List.Forall₂ w.arena.WellFormed (bindings.map Binding.value ++ [body]) ts) :
    (bindLet bindings body visit id nest).Decides Unresolvable w
      (Tree.BindableAll factors nest.above ts) fun r w' => w.arena.Extends w'.arena ∧
        w'.arena.Unfolds r.1 (.node (.letIn (bindings.map Binding.name))
          (Tree.withLoopsAll factors nest.above ts)) ∧
        r.2 = ⟨nest.above, Tree.loopsLast nest.above ts ++ nest.below⟩ := by
  obtain ⟨vs, b, rfl, hvs, hb⟩ := Arena.exists_append_singleton hc
  have hlast : (Tree.BindableAll factors nest.above (vs ++ [b])) ↔
      Tree.BindableAll factors nest.above vs ∧ b.Bindable factors nest.above := by
    simp [Tree.bindableAll_append, Tree.BindableAll]
  rw [hlast, Tree.loopsLast_append_singleton, Tree.withLoopsAll_append]
  refine (decides_values (fun t ht => hv t (List.mem_append_left _ ht)) hF hvs).bind ?_
  rintro new w₁ ⟨hext, hnames, huns⟩
  have hF₁ : w₁.arena.factors = factors := by rw [Arena.factors_congr hext.indices, hF]
  refine Decides.bind_gives (hv b (by simp) hF₁ (hb.mono hext)) ?_
  rintro ⟨newBody, nest'⟩ w₂ ⟨hext', hun, rfl⟩
  have hnew : List.Forall₂ w₂.arena.Unfolds (Node.letIn new newBody).children
      (Tree.withLoopsAll factors nest.above vs ++ Tree.withLoopsAll factors nest.above [b]) :=
    List.rel_append (huns.imp fun _ _ h => h.mono hext') (.cons hun .nil)
  rw [← hnames]
  refine Gives.bind (gives_addUnless hnew ?_) ?_
  · rintro ⟨rfl, rfl⟩
    exact .of_get ((hext.trans hext').get hn) hnew
  · rintro id' w₃ ⟨hun', hext'', -⟩
    exact gives_pure ⟨(hext.trans hext').trans hext'', hun', rfl⟩

end

/-! ### Trees -/

theorem binds_transformWithin {factors : Index → List Index} (t : Tree) :
    ∀ {depth : Nat}, t.height ≤ depth → Binds factors (rule.transformWithin depth) t := by
  induction t using Tree.induct with
  | node shape children ih =>
    intro depth hdepth id nest w hF hwf
    obtain ⟨depth, rfl, hheight⟩ := Tree.height_le_iff.1 hdepth
    have hv : ∀ u ∈ children, Binds factors (rule.transformWithin depth) u := fun u hu =>
      ih u hu (hheight u hu)
    obtain ⟨n, hn, rfl, hc⟩ := hwf.node
    refine Rule.decides_transformWithin hn ?_
    cases n with
    | recipe r =>
      obtain _ | ⟨hb, _ | _⟩ := hc
      exact decides_bindRecipe (hv _ (by simp)) hF
        (fun i hi => hwf.resolves i (List.mem_append_left _ hi)) hb
    | forAll is body | indexSum is body =>
      obtain _ | ⟨hb, _ | _⟩ := hc
      refine ((decides_enterLoop (fun _ => ⟨rfl, rfl⟩) (hv _ (by simp)) hF hn hb).congr
        (by simp [Tree.Bindable, Tree.BindableAll, Node.shape, Shape.scope])).bind_gives ?_
      rintro ⟨id', below⟩ w' ⟨hext, hun, rfl⟩
      exact gives_pure ⟨hext, hun, by simp [Tree.loops, Tree.loopsAll, Node.shape]⟩
    | letIn bindings body => exact decides_bindLet hv hF hn hc
    | _ => exact decides_rebuild hv hF hn hc

theorem decides_transform {root : NodeId} {t : Tree} {nest : LoopNest} {w : Workspace Marks}
    (h : w.arena.WellFormed root t) :
    (rule.transform root nest).Decides Unresolvable w (t.Bindable w.arena.factors nest.above)
      fun r w' => w.arena.Extends w'.arena ∧ w'.arena.Unfolds r.1 (t.withLoops w.arena.factors nest.above) ∧
        r.2 = ⟨nest.above, t.loops nest.above ++ nest.below⟩ := by
  have hdepth : t.height ≤ Rule.maxDepth w.arena := by
    have := h.unfolds.height_le
    rw [Rule.maxDepth]
    omega
  exact decides_ask_bind rfl (binds_transformWithin t hdepth rfl h)

/-- Binding a well-formed tree succeeds just when every recipe's loops are a rearrangement of the
indices left to it; then it puts the missing loops in, changes nothing else, restores the loops
above and puts those of the tree in front of the ones below. -/
theorem transform_compositional {root : NodeId} {t : Tree} {nest : LoopNest}
    {w : Workspace Marks} (h : w.arena.WellFormed root t) :
    ((∃ r w', rule.transform root nest w = .ok r w') ↔ t.Bindable w.arena.factors nest.above) ∧
      ∀ id nest' w', rule.transform root nest w = .ok (id, nest') w' →
        w'.arena.Unfolds id (t.withLoops w.arena.factors nest.above) ∧
          nest' = ⟨nest.above, t.loops nest.above ++ nest.below⟩ := by
  refine ⟨(decides_transform h).ok_iff.1, fun id nest' w' hok => ?_⟩
  obtain ⟨-, hun, hnest⟩ := (decides_transform h).ok_iff.2 _ _ hok
  exact ⟨hun, hnest⟩

/-- A recipe over two scalar indices whose body loops over the first. -/
def halfLooped : Arena where
  nodes := #[.index ⟨1⟩, .forAll [⟨0⟩] ⟨0⟩, .recipe ⟨⟨[⟨0⟩], [], [⟨1⟩]⟩, ⟨1⟩, none⟩]
  indices := #[⟨"i", 2, .domain, []⟩, ⟨"j", 3, .point, []⟩]

theorem wellFormed_halfLooped :
    halfLooped.WellFormed ⟨2⟩ (.node (.recipe ⟨[⟨0⟩], [], [⟨1⟩]⟩ none)
      [.node (.forAll [⟨0⟩]) [.node (.index ⟨1⟩) []]]) := by
  refine ⟨⟨_, rfl, rfl, ⟨_, rfl, rfl, ⟨_, rfl, rfl, trivial⟩, trivial⟩, trivial⟩, ?_⟩
  have hi : halfLooped.Resolves ⟨0⟩ := .intro rfl (by simp [halfLooped])
  have hj : halfLooped.Resolves ⟨1⟩ := .intro rfl (by simp [halfLooped])
  simp [Tree.indices, Tree.indicesAll, Shape.indices, IndexDeclaration.toList, hi, hj]

/-- The missing loop comes to lie around the one that is there, hence the transpose. -/
theorem transform_halfLooped :
    ∃ id w', rule.transform ⟨2⟩ .empty ⟨halfLooped, [], .empty⟩ =
        .ok (id, ⟨[], [⟨1⟩, ⟨0⟩]⟩) w' ∧
      w'.arena.Unfolds id (.node (.recipe ⟨[⟨0⟩], [], [⟨1⟩]⟩ (some [1, 0]))
        [.node (.forAll [⟨1⟩]) [.node (.forAll [⟨0⟩]) [.node (.index ⟨1⟩) []]]]) := by
  obtain ⟨hok, hval⟩ : ((∃ r w', rule.transform ⟨2⟩ .empty _ = .ok r w') ↔ _) ∧ _ :=
    transform_compositional (w := ⟨halfLooped, [], .empty⟩) wellFormed_halfLooped
  obtain ⟨⟨id, nest'⟩, w', hrun⟩ := hok.2
    ⟨by simp [Tree.Bindable, Tree.BindableAll], by decide⟩
  obtain ⟨hun, rfl⟩ := hval _ _ _ hrun
  exact ⟨id, w', hrun, hun⟩

end LoopBinding

end TensorRecipe
