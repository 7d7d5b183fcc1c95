import TensorRecipe.Proofs.Pass.Ensures

/-!
# Trees that a pass leaves alone

A pass that has nothing to do in a tree answers the handle it is given and adds no node; within a
tree where it has something to do, the parts where it has nothing to do are still found under their
old handles.  Both follow from what the rule does to one node: it leaves a node alone where its
children are left alone (`Rule.LeavesAlone`), and what it makes of a node leads to what becomes of
the children (`Rule.LeadsToParts`).

Main statements: `Rule.gives_transform_same` and `Rule.ensures_transform_reaches`.
-/

namespace TensorRecipe

namespace Arena

variable {a b : Arena} {ok : Node → Prop} {id c : NodeId}

/-- All nodes in the tree at a handle have a property. -/
def Throughout (a : Arena) (ok : Node → Prop) (id : NodeId) : Prop :=
  ∀ c node, a.Reaches id c → a.get c = .ok node → ok node

/-- What relates handles of an arena relates them when it has grown. -/
def Lasts (R : Arena → NodeId → NodeId → Prop) : Prop :=
  ∀ a b id new, a.Extends b → R a id new → R b id new

theorem Throughout.reaches (h : a.Throughout ok id) (hc : a.Reaches id c) : a.Throughout ok c :=
  fun d node hd => h d node (hc.trans hd)

theorem Reaches.mono (h : a.Reaches id c) (hab : a.Extends b) : b.Reaches id c := by
  induction h with
  | refl => exact .refl
  | tail _ hstep ih =>
    obtain ⟨node, hn, hmem⟩ := hstep
    exact ih.tail ⟨node, hab.get hn, hmem⟩

/-- More nodes lead no further from the nodes of a tree. -/
theorem Unfolds.reaches_of_extends {t : Tree} (ht : a.Unfolds id t) (hab : a.Extends b)
    (h : b.Reaches id c) : a.Reaches id c := by
  induction h with
  | refl => exact .refl
  | tail _ hstep ih =>
    obtain ⟨⟨_, _⟩, hu, -⟩ := ht.reaches ih
    obtain ⟨node, hn, -⟩ := hu.get
    exact ih.tail ⟨node, hn, (child_iff (hab.get hn)).1 hstep⟩

theorem Throughout.mono {t : Tree} (h : a.Throughout ok id) (ht : a.Unfolds id t)
    (hab : a.Extends b) : b.Throughout ok id := by
  intro c node hc hn
  have hreach := ht.reaches_of_extends hab hc
  obtain ⟨⟨_, _⟩, hu, -⟩ := ht.reaches hreach
  obtain ⟨node', hn', -⟩ := hu.get
  obtain rfl := Except.ok.inj ((hab.get hn').symm.trans hn)
  exact h c _ hreach hn'

end Arena

open PassM

variable {ω τ : Type}

/-! ### What is left alone -/

/-- The visit answers the handle it is given, and leaves the workspace as it is. -/
def Visit.LeavesAlone (visit : Visit ω τ) (id : NodeId) (w : Workspace ω) : Prop :=
  ∀ passed, (visit id passed).Gives w fun r w' => r.1 = id ∧ w' = w

/-- The rule leaves a node with the property alone, where visits leave its children alone. -/
def Rule.LeavesAlone (rule : Rule ω τ) (ok : Node → Prop) : Prop :=
  ∀ {visit : Visit ω τ} {id : NodeId} {node : Node} {w : Workspace ω},
    w.arena.get id = .ok node → ok node → (∀ c ∈ node.children, visit.LeavesAlone c w) →
      ∀ passed, (rule visit id node passed).Gives w fun r w' => r.1 = id ∧ w' = w

theorem Visit.gives_all_same {visit : Visit ω τ} {w : Workspace ω} :
    ∀ {ids : List NodeId}, (∀ id ∈ ids, visit.LeavesAlone id w) → ∀ passed,
      (visit.all ids passed).Gives w fun r w' => r.1 = ids ∧ w' = w
  | [], _, _ => gives_pure ⟨rfl, rfl⟩
  | id :: ids, h, passed => by
    refine (h id (by simp) passed).bind ?_
    rintro ⟨_, passed₁⟩ _ ⟨rfl, rfl⟩
    refine (gives_all_same (fun c hc => h c (List.mem_cons_of_mem _ hc)) passed₁).bind ?_
    rintro ⟨_, passed₂⟩ _ ⟨rfl, rfl⟩
    exact gives_pure ⟨rfl, rfl⟩

namespace Rule

theorem gives_rebuild_same {visit : Visit ω τ} {id : NodeId} {node : Node} {w : Workspace ω}
    (h : ∀ c ∈ node.children, visit.LeavesAlone c w) (passed : τ) :
    (Rule.rebuild visit id node passed).Gives w fun r w' => r.1 = id ∧ w' = w := by
  refine (Visit.gives_all_same h passed).bind ?_
  rintro ⟨_, passed'⟩ _ ⟨rfl, rfl⟩
  refine gives_setChildren_same.bind ?_
  rintro _ _ ⟨rfl, rfl⟩
  exact gives_pure ⟨rfl, rfl⟩

variable {rule : Rule ω τ} {ok : Node → Prop}

theorem leavesAlone_transformWithin (h : rule.LeavesAlone ok) {w : Workspace ω} :
    ∀ {t : Tree} {depth : Nat} {id : NodeId}, w.arena.Unfolds id t → w.arena.Throughout ok id →
      t.height ≤ depth → (rule.transformWithin depth).LeavesAlone id w := by
  intro t
  induction t using Tree.induct with
  | node shape children ih =>
    intro depth id ht hok hdepth passed
    obtain ⟨depth, rfl, hheight⟩ := Tree.height_le_iff.1 hdepth
    obtain ⟨node, hn, -, hc⟩ := ht.get
    refine gives_transformWithin hn (h hn (hok id node .refl hn) (fun c hmem => ?_) passed)
    obtain ⟨u, hu, hcu⟩ := Arena.exists_of_mem_left hc hmem
    exact ih u hu hcu (hok.reaches (.single ⟨node, hn, hmem⟩)) (hheight u hu)

theorem height_le_maxDepth {a : Arena} {id : NodeId} {t : Tree} (h : a.Unfolds id t) :
    t.height ≤ maxDepth a :=
  h.height_le.trans (Nat.le_add_right _ _)

theorem gives_transform_same (h : rule.LeavesAlone ok) {root : NodeId} {t : Tree} {w : Workspace ω}
    (ht : w.arena.Unfolds root t) (hok : w.arena.Throughout ok root) (passed : τ) :
    (rule.transform root passed).Gives w fun r w' => r.1 = root ∧ w' = w :=
  gives_ask_bind rfl (leavesAlone_transformWithin h ht hok (height_le_maxDepth ht) passed)

/-! ### What parts of a tree become -/

/-- What the rule makes of a node leads to what visits make of its children, whatever relates these
to the children while the arena grows. -/
def LeadsToParts (rule : Rule ω τ) : Prop :=
  ∀ {R : Arena → NodeId → NodeId → Prop}, Arena.Lasts R →
    ∀ {visit : Visit ω τ} {id : NodeId} {node : Node} {w : Workspace ω},
      w.arena.get id = .ok node →
      (∀ c ∈ node.children, ∀ passed v, w.arena.Extends v.arena →
        (visit c passed).Ensures v fun r v' => v.arena.Extends v'.arena ∧ R v'.arena c r.1) →
      ∀ passed, (rule visit id node passed).Ensures w fun r w' => w.arena.Extends w'.arena ∧
        ∀ c ∈ node.children, ∃ c', R w'.arena c c' ∧ w'.arena.Reaches r.1 c'

theorem leadsToParts_rebuild : (rebuild : Rule ω τ).LeadsToParts := by
  intro R hR visit id node w hn hvisit passed
  have hG : Growth (ω := ω) (fun v v' => v.arena.Extends v'.arena) fun v => R v.arena :=
    ⟨fun _ => .refl _, fun h h' => h.trans h', fun h => h, fun h => h, hR _ _ _ _⟩
  refine (ensures_rebuild hG (I := fun v _ => w.arena.Extends v.arena)
    (fun _ _ _ hext h => h.trans hext) hn (fun c hc passed v hv => ?_) (.refl _)).mono ?_
  · exact (hvisit c hc passed v hv).mono fun r v' ⟨hext, hr⟩ => ⟨hext, hv.trans hext, hr⟩
  · rintro r w' ⟨hext, -, new, hnew, -, hparts, -⟩
    refine ⟨hext, fun c hc => ?_⟩
    obtain ⟨c', hc', hr⟩ := Arena.exists_of_mem_left hparts hc
    exact ⟨c', hr, .single ⟨new, hnew, hc'⟩⟩

/-- A part of the tree that a rule would leave alone is found in the result. -/
theorem ensures_transformWithin_reaches (hsame : rule.LeavesAlone ok) (hparts : rule.LeadsToParts)
    {a : Arena} :
    ∀ {t : Tree} {depth : Nat} {id : NodeId} {w : Workspace ω}, a.Unfolds id t →
      t.height ≤ depth → a.Extends w.arena → ∀ passed,
        (rule.transformWithin depth id passed).Ensures w fun r w' => w.arena.Extends w'.arena ∧
          ∀ c, a.Reaches id c → a.Throughout ok c → w'.arena.Reaches r.1 c := by
  intro t
  induction t using Tree.induct with
  | node shape children ih =>
    intro depth id w ht hdepth hw passed
    by_cases hok : a.Throughout ok id
    · -- the whole tree is left alone
      have hsame := leavesAlone_transformWithin hsame (ht.mono hw) (hok.mono ht hw) hdepth passed
      refine hsame.ensures.mono ?_
      rintro ⟨_, _⟩ _ ⟨rfl, rfl⟩
      exact ⟨.refl _, fun c hc _ => hc.mono hw⟩
    · obtain ⟨depth, rfl, hheight⟩ := Tree.height_le_iff.1 hdepth
      obtain ⟨node, hn, -, hc⟩ := ht.get
      refine ensures_transformWithin fun node' hn' => ?_
      obtain rfl := Except.ok.inj ((hw.get hn).symm.trans hn')
      refine (hparts (R := fun b c c' => ∀ d, a.Reaches c d → a.Throughout ok d → b.Reaches c' d)
        (fun _ _ _ _ hbb hr d hd hdok => (hr d hd hdok).mono hbb) hn'
        (fun c hmem passed v hv => ?_) passed).mono ?_
      · obtain ⟨u, hu, hcu⟩ := Arena.exists_of_mem_left hc hmem
        exact ih u hu hcu (hheight u hu) (hw.trans hv) passed
      · rintro r w' ⟨hext, hreach⟩
        refine ⟨hext, fun c hidc hcok => ?_⟩
        obtain rfl | ⟨d, hmem, hdc⟩ := (Arena.reaches_iff hn).1 hidc
        · exact absurd hcok hok
        · obtain ⟨d', hd', hrd'⟩ := hreach d hmem
          exact hrd'.trans (hd' c hdc hcok)

theorem ensures_transform_reaches (hsame : rule.LeavesAlone ok) (hparts : rule.LeadsToParts)
    {root : NodeId} {t : Tree} {w : Workspace ω} (ht : w.arena.Unfolds root t) (passed : τ) :
    (rule.transform root passed).Ensures w fun r w' => ∀ c, w.arena.Reaches root c →
      w.arena.Throughout ok c → w'.arena.Reaches r.1 c := by
  refine ensures_ask_bind fun depth hdepth => ?_
  have hle : t.height ≤ depth := (height_le_maxDepth ht).trans (Except.ok.inj hdepth).le
  exact (ensures_transformWithin_reaches hsame hparts ht hle (.refl _) passed).mono fun _ _ h => h.2

end Rule

end TensorRecipe
