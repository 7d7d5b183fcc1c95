import TensorRecipe.LoopBinding
import TensorRecipe.Proofs.Pass.Sharing

/-!
# Trees without recipes

Binding leaves a tree alone that has no recipe in it (`gives_bind_same`), and such parts of other
trees are found in the result under their old handles (`ensures_bind_reaches`).  A recipe it always
makes anew, so it leaves no other tree alone (`ensures_bind_grows`).
-/

namespace TensorRecipe

/-- The node is no recipe. -/
def Node.IsPlain (node : Node) : Prop := ∀ r, node ≠ .recipe r

namespace LoopBinding

open PassM

variable {visit : Visit Marks LoopNest} {w : Workspace Marks}

/-! ### What is left alone -/

theorem gives_enterLoop_same {build : List Index → NodeId → Node} {indices : List Index}
    {body id : NodeId} {nest : LoopNest} (h : visit.LeavesAlone body w) :
    (enterLoop build indices body visit id nest).Gives w fun r w' => r.1 = id ∧ w' = w := by
  refine (h _).bind ?_
  rintro ⟨_, inner⟩ _ ⟨rfl, rfl⟩
  refine (gives_addUnless_same rfl).bind ?_
  rintro _ _ ⟨rfl, rfl⟩
  exact gives_pure ⟨rfl, rfl⟩

theorem gives_mapM_bindValue_same {above : List Index} {bindings : List Binding}
    (h : ∀ b ∈ bindings, visit.LeavesAlone b.value w) :
    PassM.Gives (bindings.mapM (bindValue visit above)) w fun new w' => new = bindings ∧ w' = w := by
  induction bindings with
  | nil => exact gives_pure ⟨rfl, rfl⟩
  | cons b bindings ih =>
    have hvalue : PassM.Gives (bindValue visit above b) w fun new w' => new = b ∧ w' = w := by
      refine (h b (by simp) _).bind ?_
      rintro ⟨_, inner⟩ _ ⟨rfl, rfl⟩
      exact gives_pure ⟨rfl, rfl⟩
    have hrest := ih fun c hc => h c (List.mem_cons_of_mem _ hc)
    rw [List.mapM_cons]
    refine hvalue.bind ?_
    rintro _ _ ⟨rfl, rfl⟩
    refine hrest.bind ?_
    rintro _ _ ⟨rfl, rfl⟩
    exact gives_pure ⟨rfl, rfl⟩

theorem gives_bindLet_same {bindings : List Binding} {body id : NodeId} {nest : LoopNest}
    (hvalues : ∀ b ∈ bindings, visit.LeavesAlone b.value w) (hbody : visit.LeavesAlone body w) :
    (bindLet bindings body visit id nest).Gives w fun r w' => r.1 = id ∧ w' = w := by
  refine (gives_mapM_bindValue_same hvalues).bind ?_
  rintro _ _ ⟨rfl, rfl⟩
  refine (hbody nest).bind ?_
  rintro ⟨_, inner⟩ _ ⟨rfl, rfl⟩
  refine (gives_addUnless_same ⟨rfl, rfl⟩).bind ?_
  rintro _ _ ⟨rfl, rfl⟩
  exact gives_pure ⟨rfl, rfl⟩

theorem leavesAlone_rule : rule.LeavesAlone Node.IsPlain := by
  intro visit id node w hn hplain h nest
  cases node with
  | recipe r => exact absurd rfl (hplain r)
  | forAll indices body =>
    refine (gives_enterLoop_same (h body (by simp [Node.children]))).bind ?_
    rintro ⟨_, below⟩ _ ⟨rfl, rfl⟩
    exact gives_pure ⟨rfl, rfl⟩
  | indexSum indices body =>
    refine (gives_enterLoop_same (h body (by simp [Node.children]))).bind ?_
    rintro ⟨_, below⟩ _ ⟨rfl, rfl⟩
    exact gives_pure ⟨rfl, rfl⟩
  | letIn bindings body =>
    refine gives_bindLet_same (fun b hb => h b.value ?_) (h body (by simp [Node.children]))
    exact List.mem_append_left _ (List.mem_map_of_mem hb)
  | _ => exact Rule.gives_rebuild_same h nest

/-! ### What parts of a tree become -/

section

variable {R : Arena → NodeId → NodeId → Prop} (hR : Arena.Lasts R)

include hR

theorem ensures_bindRecipe_parts {r : Recipe} {id : NodeId} {nest : LoopNest}
    (h : ∀ nest', (visit r.body nest').Ensures w fun p v => w.arena.Extends v.arena ∧
      R v.arena r.body p.1) :
    (bindRecipe r visit id nest).Ensures w fun p w' => w.arena.Extends w'.arena ∧
      w.arena.size < w'.arena.size ∧ ∃ c', R w'.arena r.body c' ∧ w'.arena.Reaches p.1 c' := by
  refine (h _).bind ?_
  rintro ⟨body, inner⟩ w₁ ⟨hw₁, hbody⟩
  have htranspose : ∀ declared loops, (transpose declared loops).Ensures w₁ fun _ v =>
      v.arena = w₁.arena := by
    intro declared loops
    refine ensures_ask_bind fun _ _ => ensures_ask_bind fun _ _ => ?_
    split
    · exact ensures_pure rfl
    · refine gives_remember.ensures.bind fun _ _ _ => ensures_ask_bind fun _ _ => ?_
      exact ensures_ask_bind fun _ _ => gives_log.ensures.bind fun _ _ _ => ensures_throw
  refine (htranspose _ _).bind fun positions w₂ hw₂ => ?_
  refine gives_log.ensures.bind ?_
  rintro _ w₃ rfl
  refine (gives_addUnless_get _ _ _).ensures.bind ?_
  rintro wrapped w₄ ⟨hw₄, -, hwrapped⟩
  refine gives_addNode.ensures.bind ?_
  rintro _ w₅ ⟨rfl, rfl⟩
  rw [hw₂] at hw₄
  have hadd := Arena.Extends.addNode w₄.arena
    (.recipe { r with body := wrapped, transpose := some positions })
  have hw := hw₁.trans hw₄
  refine ensures_pure ⟨hw.trans hadd, ?_, body, hR _ _ _ _ (hw₄.trans hadd) hbody, ?_⟩
  · rw [Arena.size_addNode]
    exact Nat.lt_succ_of_le hw.nodes.length_le
  · have htop : (w₄.arena.addNode (.recipe { r with
        body := wrapped, transpose := some positions })).Child w₄.arena.nextId wrapped :=
      ⟨_, Arena.get_nextId_addNode _ _, List.mem_singleton.2 rfl⟩
    rcases hwrapped with ⟨-, rfl⟩ | ⟨-, hwrapped⟩
    · exact .single htop
    · exact .tail (.single htop) ⟨_, hadd.get hwrapped, List.mem_singleton.2 rfl⟩

theorem ensures_enterLoop_parts {build : List Index → NodeId → Node} {indices : List Index}
    {body id : NodeId} {nest : LoopNest} (hbuild : ∀ new, (build indices new).children = [new])
    (hn : w.arena.get id = .ok (build indices body))
    (h : ∀ nest', (visit body nest').Ensures w fun p v => w.arena.Extends v.arena ∧
      R v.arena body p.1) :
    (enterLoop build indices body visit id nest).Ensures w fun p w' =>
      w.arena.Extends w'.arena ∧ ∃ c', R w'.arena body c' ∧ w'.arena.Reaches p.1 c' := by
  refine (h _).bind ?_
  rintro ⟨new, inner⟩ w₁ ⟨hw₁, hnew⟩
  refine Ensures.bind (ensures_addUnless ?_) ?_
  · rintro rfl
    exact hw₁.get hn
  · rintro id' w₂ ⟨hw₂, -, hid', -⟩
    refine ensures_pure ⟨hw₁.trans hw₂, new, hR _ _ _ _ hw₂ hnew, .single ⟨_, hid', ?_⟩⟩
    rw [hbuild]
    exact List.mem_singleton.2 rfl

theorem ensures_mapM_bindValue_parts {above : List Index} :
    ∀ {bindings : List Binding} {w : Workspace Marks},
      (∀ b ∈ bindings, ∀ nest' v, w.arena.Extends v.arena → (visit b.value nest').Ensures v
        fun p v' => v.arena.Extends v'.arena ∧ R v'.arena b.value p.1) →
      PassM.Ensures (bindings.mapM (bindValue visit above)) w fun new w' =>
        w.arena.Extends w'.arena ∧
          List.Forall₂ (R w'.arena) (bindings.map Binding.value) (new.map Binding.value)
  | [], _, _ => ensures_pure ⟨.refl _, .nil⟩
  | b :: bindings, w, h => by
    rw [List.mapM_cons]
    have hvalue : PassM.Ensures (bindValue visit above b) w fun new w' =>
        w.arena.Extends w'.arena ∧ R w'.arena b.value new.value := by
      refine (h b (by simp) _ w (.refl _)).bind ?_
      rintro ⟨value, inner⟩ w₁ hw₁
      exact ensures_pure hw₁
    refine hvalue.bind fun new w₁ ⟨hw₁, hnew⟩ => ?_
    refine (ensures_mapM_bindValue_parts fun c hc nest' v hv =>
      h c (List.mem_cons_of_mem _ hc) nest' v (hw₁.trans hv)).bind ?_
    rintro rest w₂ ⟨hw₂, hrest⟩
    exact ensures_pure ⟨hw₁.trans hw₂, .cons (hR _ _ _ _ hw₂ hnew) hrest⟩

theorem ensures_bindLet_parts {bindings : List Binding} {body id : NodeId} {nest : LoopNest}
    (hn : w.arena.get id = .ok (.letIn bindings body))
    (h : ∀ c ∈ (Node.letIn bindings body).children, ∀ nest' v, w.arena.Extends v.arena →
      (visit c nest').Ensures v fun p v' => v.arena.Extends v'.arena ∧ R v'.arena c p.1) :
    (bindLet bindings body visit id nest).Ensures w fun p w' => w.arena.Extends w'.arena ∧
      ∀ c ∈ (Node.letIn bindings body).children, ∃ c', R w'.arena c c' ∧
        w'.arena.Reaches p.1 c' := by
  refine (ensures_mapM_bindValue_parts hR fun b hb nest' v hv =>
    h b.value (List.mem_append_left _ (List.mem_map_of_mem hb)) nest' v hv).bind ?_
  rintro new w₁ ⟨hw₁, hnew⟩
  refine (h body (by simp [Node.children]) nest w₁ hw₁).bind ?_
  rintro ⟨newBody, inner⟩ w₂ ⟨hw₂, hbody⟩
  refine Ensures.bind (ensures_addUnless ?_) ?_
  · rintro ⟨rfl, rfl⟩
    exact (hw₁.trans hw₂).get hn
  · rintro id' w₃ ⟨hw₃, -, hid', -⟩
    have hchildren : List.Forall₂ (R w₃.arena) (Node.letIn bindings body).children
        (Node.letIn new newBody).children :=
      List.rel_append (hnew.imp fun _ _ h => hR _ _ _ _ (hw₂.trans hw₃) h)
        (.cons (hR _ _ _ _ hw₃ hbody) .nil)
    refine ensures_pure ⟨(hw₁.trans hw₂).trans hw₃, fun c hc => ?_⟩
    obtain ⟨c', hc', hr⟩ := Arena.exists_of_mem_left hchildren hc
    exact ⟨c', hr, .single ⟨_, hid', hc'⟩⟩

end

/-- What becomes of the body of a recipe may be found in a loop that has been put around. -/
theorem leadsToParts_rule : rule.LeadsToParts := by
  intro R hR visit id node w hn h nest
  have hbody : ∀ body, node.children = [body] → ∀ nest', (visit body nest').Ensures w
      fun p v => w.arena.Extends v.arena ∧ R v.arena body p.1 := fun body hchildren nest' =>
    h body (by simp [hchildren]) nest' w (.refl _)
  cases node with
  | recipe r =>
    refine (ensures_bindRecipe_parts hR (hbody r.body rfl)).mono ?_
    rintro p w' ⟨hw', -, hreach⟩
    exact ⟨hw', fun c hc => List.mem_singleton.1 hc ▸ hreach⟩
  | forAll indices body | indexSum indices body =>
    refine (ensures_enterLoop_parts hR (fun _ => rfl) hn (hbody body rfl)).bind ?_
    rintro ⟨id', below⟩ w' ⟨hw', hreach⟩
    exact ensures_pure ⟨hw', fun c hc => List.mem_singleton.1 hc ▸ hreach⟩
  | letIn bindings body => exact ensures_bindLet_parts hR hn h
  | _ => exact Rule.leadsToParts_rebuild hR hn h nest

theorem gives_bind_same {root : NodeId} {t : Tree} (ht : w.arena.Unfolds root t)
    (hplain : w.arena.Throughout Node.IsPlain root) :
    (bind root).Gives w fun out w' => out = root ∧ w' = w := by
  refine Gives.bind (Rule.gives_transform_same leavesAlone_rule ht hplain .empty) ?_
  rintro ⟨out, nest⟩ w' ⟨rfl, rfl⟩
  exact gives_pure ⟨rfl, rfl⟩

theorem ensures_bind_reaches {root : NodeId} {t : Tree} (ht : w.arena.Unfolds root t) :
    (bind root).Ensures w fun out w' => ∀ c, w.arena.Reaches root c →
      w.arena.Throughout Node.IsPlain c → w'.arena.Reaches out c := by
  refine Ensures.bind
    (Rule.ensures_transform_reaches leavesAlone_rule leadsToParts_rule ht .empty) ?_
  rintro ⟨out, nest⟩ w' hreach
  exact ensures_pure hreach

/-! ### Recipes -/

theorem ensures_transformWithin_grows {a : Arena} :
    ∀ {t : Tree} {depth : Nat} {id : NodeId} {w : Workspace Marks}, a.Unfolds id t →
      a.Extends w.arena → ∀ nest, (rule.transformWithin depth id nest).Ensures w fun _ w' =>
        w.arena.Extends w'.arena ∧
          (¬ a.Throughout Node.IsPlain id → a.size < w'.arena.size) := by
  intro t
  induction t using Tree.induct with
  | node shape children ih =>
    intro depth id w ht hw nest
    cases depth with
    | zero => exact ensures_throw
    | succ depth =>
      obtain ⟨node, hn, -, hc⟩ := ht.get
      refine Rule.ensures_transformWithin fun node' hn' => ?_
      obtain rfl := Except.ok.inj ((hw.get hn).symm.trans hn')
      have hgrows : ∀ {b b' : Arena}, b.Extends b' → b.size ≤ b'.size := fun hb =>
        hb.nodes.length_le
      have hvisit : ∀ c ∈ node.children, ∀ nest' v, w.arena.Extends v.arena →
          (rule.transformWithin depth c nest').Ensures v fun _ v' => v.arena.Extends v'.arena ∧
            (¬ a.Throughout Node.IsPlain c → a.size < v'.arena.size) := fun c hmem nest' v hv => by
        obtain ⟨u, hu, hcu⟩ := Arena.exists_of_mem_left hc hmem
        exact ih u hu hcu (hw.trans hv) nest'
      by_cases hplain : node.IsPlain
      · refine (leadsToParts_rule (R := fun b c _ => ¬ a.Throughout Node.IsPlain c → a.size < b.size)
          (fun _ _ _ _ hb hr hc => (hr hc).trans_le (hgrows hb)) hn' hvisit nest).mono ?_
        rintro r w' ⟨hw', hparts⟩
        refine ⟨hw', fun hrecipe => ?_⟩
        obtain ⟨c, hmem, hc⟩ : ∃ c ∈ node.children, ¬ a.Throughout Node.IsPlain c := by
          by_contra hno
          push Not at hno
          refine hrecipe fun d m hd hm => ?_
          obtain rfl | ⟨c, hmem, hcd⟩ := (Arena.reaches_iff hn).1 hd
          · exact Except.ok.inj (hn.symm.trans hm) ▸ hplain
          · exact hno c hmem d m hcd hm
        obtain ⟨_, hgrown, -⟩ := hparts c hmem
        exact hgrown hc
      · obtain ⟨r, rfl⟩ : ∃ r, node = .recipe r := by
          simpa [Node.IsPlain] using hplain
        refine (ensures_bindRecipe_parts (R := fun _ _ _ => True) (fun _ _ _ _ _ h => h) fun nest' =>
          (hvisit r.body (by simp [Node.children]) nest' w (.refl _)).mono
            fun _ _ h => ⟨h.1, trivial⟩).mono ?_
        rintro p w' ⟨hw', hlt, -⟩
        exact ⟨hw', fun _ => (hgrows hw).trans_lt hlt⟩

theorem ensures_bind_grows {root : NodeId} {t : Tree} {w : Workspace Marks}
    (ht : w.arena.Unfolds root t) (hrecipe : ¬ w.arena.Throughout Node.IsPlain root) :
    (bind root).Ensures w fun _ w' => w.arena.size < w'.arena.size := by
  refine Ensures.bind (Rule.ensures_transform fun depth =>
    ensures_transformWithin_grows ht (.refl _) .empty) ?_
  rintro ⟨id, nest⟩ w' ⟨-, hgrows⟩
  exact ensures_pure (hgrows hrecipe)

end LoopBinding

end TensorRecipe
