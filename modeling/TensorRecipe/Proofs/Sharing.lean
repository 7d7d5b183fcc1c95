import TensorRecipe.Pass.Variables
import TensorRecipe.Proofs.Extraction.Sharing
import TensorRecipe.Proofs.LoopBinding.Completeness
import TensorRecipe.Proofs.LoopBinding.Sharing
import TensorRecipe.Proofs.Substitution.Loops

/-!
# Untouched trees keep their handles

Main statement: each of four passes leaves a tree alone just when, or at least when, there is
nothing in it for the pass to do, and such parts of other trees are found in the result under their
old handles (`untouched_keep_handles`).
-/

namespace TensorRecipe

open PassM

/-! ### Substitution -/

namespace Substitution

variable {s : Substitution}

/-- The node mentions no index that has a replacement. -/
def Spares (s : Substitution) (node : Node) : Prop := ∀ i ∈ node.shape.indices, s i = none

theorem renamed_of_none {a : Arena} {i : Index} (h : s i = none) :
    s.renamed a i = .ok (some i) := by
  rw [renamed, h]
  rfl

theorem renameGroup_of_none {a : Arena} {group : List Index} (h : ∀ i ∈ group, s i = none) :
    s.renameGroup group a = .ok group := by
  rw [renameGroup, mapM_eq_ok fun i hi => renamed_of_none (h i hi)]
  simp [bind, Except.bind, pure, Except.pure]

theorem renameGroups_of_none {a : Arena} {g : IndexDeclaration} (h : ∀ i ∈ g.toList, s i = none) :
    s.renameGroups g a = .ok g := by
  have hgroup : ∀ group, (∀ i ∈ group, i ∈ g.toList) → s.renameGroup group a = .ok group :=
    fun group hmem => renameGroup_of_none fun i hi => h i (hmem i hi)
  rw [renameGroups, hgroup g.domain (by simp +contextual [IndexDeclaration.toList]),
    hgroup g.basis (by simp +contextual [IndexDeclaration.toList]),
    hgroup g.point (by simp +contextual [IndexDeclaration.toList])]
  rfl

theorem renameScope_of_none {a : Arena} {scope : List Index} (h : ∀ i ∈ scope, s i = none) :
    s.renameScope scope a = .ok scope := by
  rw [renameScope, mapM_eq_ok fun i hi => renamed_of_none (h i hi)]
  have hzip : List.zipWith (fun (new : Option Index) i => new.getD i) (scope.map some) scope =
      scope := by
    induction scope <;> simp_all
  simp only [bind, Except.bind, hzip]
  rfl

theorem gives_renameLoop_same {build : List Index → NodeId → Node} {indices : List Index}
    {body id : NodeId} {visit : Visit Unit Unit} {w : Workspace Unit}
    (hnone : ∀ i ∈ indices, s i = none)
    (h : ∀ c ∈ (build indices body).children, visit.LeavesAlone c w) :
    (s.renameLoop build indices body visit id).Gives w fun r w' => r.1 = id ∧ w' = w := by
  refine gives_ask_bind (renameScope_of_none hnone) ?_
  rw [if_pos rfl]
  exact Rule.gives_rebuild_same h ()

/-- Only indices with replacements give substitution anything to do. -/
theorem leavesAlone_rule (s : Substitution) : s.rule.LeavesAlone s.Spares := by
  intro visit id node w hn hnone h passed
  cases node with
  | index i =>
    have hi : s i = none := hnone i (by simp [Node.shape, Shape.indices])
    have hid : (s i).getD id = id := by rw [hi]; rfl
    exact ⟨((s i).getD id, ()), w, rfl, hid, rfl⟩
  | recipe r =>
    refine gives_ask_bind (renameGroups_of_none hnone) ?_
    refine (h r.body (by simp [Node.children]) ()).bind ?_
    rintro ⟨_, _⟩ _ ⟨rfl, rfl⟩
    dsimp only
    rw [if_pos ⟨rfl, rfl⟩]
    exact gives_pure ⟨rfl, rfl⟩
  | forAll indices body => exact gives_renameLoop_same hnone h
  | indexSum indices body => exact gives_renameLoop_same hnone h
  | _ => exact Rule.gives_rebuild_same h ()

theorem leadsToParts_rule (s : Substitution) : s.rule.LeadsToParts := by
  intro R hR visit id node w hn h passed
  have hbody : ∀ body, node.children = [body] → (visit body ()).Ensures w
      fun p v => w.arena.Extends v.arena ∧ R v.arena body p.1 := fun body hchildren =>
    h body (by simp [hchildren]) () w (.refl _)
  have hmono : ∀ body a b new, a.Extends b → R a body new → R b body new :=
    fun body a b new hab => hR a b body new hab
  cases node with
  | index i => exact ensures_pure ⟨.refl _, fun c hc => nomatch hc⟩
  | recipe r =>
    refine (ensures_renameRecipe (Q := fun new b => R b r.body new) (hmono r.body) hn
      (hbody r.body rfl)).mono ?_
    rintro p w' ⟨hw', new, hnew, hR', -⟩
    refine ⟨hw', fun c hc => ?_⟩
    obtain rfl := List.mem_singleton.1 hc
    exact ⟨new.body, hR', .single ⟨_, hnew, List.mem_singleton.2 rfl⟩⟩
  | forAll indices body | indexSum indices body =>
    refine (ensures_renameLoop (Q := fun new b => R b body new) (hmono body) rfl (fun _ => rfl) hn
      (hbody body rfl)).mono ?_
    rintro p w' ⟨hw', js, new, -, hR', hnew⟩
    refine ⟨hw', fun c hc => ?_⟩
    obtain rfl := List.mem_singleton.1 hc
    exact ⟨new, hR', .single ⟨_, hnew, List.mem_singleton.2 rfl⟩⟩
  | _ => exact Rule.leadsToParts_rebuild hR hn h ()

theorem gives_apply_same (s : Substitution) {root : NodeId} {t : Tree} {w : Workspace Unit}
    (ht : w.arena.Unfolds root t) (hnone : w.arena.Throughout s.Spares root) :
    (s.apply root).Gives w fun out w' => out = root ∧ w' = w := by
  refine Gives.bind (Rule.gives_transform_same s.leavesAlone_rule ht hnone ()) ?_
  rintro ⟨out, _⟩ w' ⟨rfl, rfl⟩
  exact gives_pure ⟨rfl, rfl⟩

theorem ensures_apply_reaches (s : Substitution) {root : NodeId} {t : Tree} {w : Workspace Unit}
    (ht : w.arena.Unfolds root t) : (s.apply root).Ensures w fun out w' =>
      ∀ c, w.arena.Reaches root c → w.arena.Throughout s.Spares c → w'.arena.Reaches out c := by
  refine Ensures.bind
    (Rule.ensures_transform_reaches s.leavesAlone_rule s.leadsToParts_rule ht ()) ?_
  rintro ⟨out, _⟩ w' hreach
  exact ensures_pure hreach

end Substitution

/-! ### Four passes -/

theorem leavesAlone_identity : Rule.identity.LeavesAlone fun _ => True :=
  fun _ _ h passed => Rule.gives_rebuild_same h passed

theorem leavesAlone_extract_iff {a : Arena} {root : NodeId} {t : Tree}
    (h : a.WellFormed root t) (options : Extraction.Options) :
    (∃ w, (Extraction.extract root).start a (.ofOptions options) = .ok root w ∧ w.arena = a) ↔
      ∀ c, a.Reaches root c → a.IsSum c → a.IsLetValue root c := by
  constructor
  · rintro ⟨w, hok, harena⟩
    obtain ⟨hmirrors, hlog⟩ := (Extraction.ensures_extract_mirrors options h).of_start hok
    rw [harena] at hmirrors
    exact hmirrors.settled_of_same h.unfolds (fun e he => (hlog e he).1) .refl rfl rfl
  · intro hsums
    obtain ⟨out, w, hok, -⟩ := (Extraction.gives_extract_wellFormed
      (w := ⟨a, [], .ofOptions options⟩) h (.fresh options)).start
    obtain ⟨rfl, harena⟩ := (Extraction.ensures_extract_same options h hsums).of_start hok
    exact ⟨w, hok, harena⟩

theorem leavesAlone_bind_iff {a : Arena} {root : NodeId} {t : Tree} (h : a.WellFormed root t)
    (m : Marks) :
    (∃ w, (LoopBinding.bind root).start a m = .ok root w ∧ w.arena = a) ↔
      a.Throughout Node.IsPlain root := by
  constructor
  · rintro ⟨w, hok, harena⟩
    by_contra hrecipe
    have hlt := (LoopBinding.ensures_bind_grows h.unfolds hrecipe).of_start hok
    exact absurd hlt (by simp [harena])
  · intro hplain
    obtain ⟨_, w, hok, rfl, hw⟩ :=
      (LoopBinding.gives_bind_same (w := ⟨a, [], m⟩) h.unfolds hplain).start
    exact ⟨w, hok, by rw [hw]⟩

/-- In a well-formed tree, the rule that changes nothing leaves the root alone; binding does so just
when there is no recipe in the tree, and extraction just when lets bind all of its sums;
substitution does so where no index has a replacement.  Whenever they succeed, the parts of the tree
with nothing in them to do are below the root of the result under their old handles. -/
theorem untouched_keep_handles {a : Arena} {root : NodeId} {t : Tree} (h : a.WellFormed root t) :
    (∃ w, (Rule.identity.transform root ()).start a () = .ok (root, ()) w ∧ w.arena = a) ∧
    (∀ m, (∃ w, (LoopBinding.bind root).start a m = .ok root w ∧ w.arena = a) ↔
      a.Throughout Node.IsPlain root) ∧
    (∀ options,
      (∃ w, (Extraction.extract root).start a (.ofOptions options) = .ok root w ∧ w.arena = a) ↔
        ∀ c, a.Reaches root c → a.IsSum c → a.IsLetValue root c) ∧
    (∀ s : Substitution, a.Throughout s.Spares root →
      ∃ w, (s.apply root).start a () = .ok root w ∧ w.arena = a) ∧
    ∀ c, a.Reaches root c →
      (∀ out w, (Rule.identity.transform root ()).start a () = .ok out w →
        w.arena.Reaches out.1 c) ∧
      (∀ m out w, (LoopBinding.bind root).start a m = .ok out w →
        a.Throughout Node.IsPlain c → w.arena.Reaches out c) ∧
      (∀ options out w, (Extraction.extract root).start a (.ofOptions options) = .ok out w →
        a.Throughout Node.IsSumless c → w.arena.Reaches out c) ∧
      ∀ (s : Substitution) out w, (s.apply root).start a () = .ok out w →
        a.Throughout s.Spares c → w.arena.Reaches out c := by
  have hidentity : (Rule.identity.transform root ()).Gives ⟨a, [], ()⟩ fun r w =>
      r.1 = root ∧ w = ⟨a, [], ()⟩ :=
    Rule.gives_transform_same leavesAlone_identity h.unfolds (fun _ _ _ _ => trivial) ()
  refine ⟨?_, leavesAlone_bind_iff h, leavesAlone_extract_iff h, fun s hnone => ?_,
    fun c hc => ⟨?_, fun m out w hok hplain => ?_, fun options out w hok hsumless => ?_,
      fun s out w hok hnone => ?_⟩⟩
  · obtain ⟨⟨_, _⟩, w, hok, rfl, hw⟩ := hidentity.start
    exact ⟨w, hok, by rw [hw]⟩
  · obtain ⟨_, w, hok, rfl, hw⟩ := (s.gives_apply_same (w := ⟨a, [], ()⟩) h.unfolds hnone).start
    exact ⟨w, hok, by rw [hw]⟩
  · intro out w hok
    obtain ⟨hout, hw⟩ := hidentity.ensures.of_start hok
    rw [hout, hw]
    exact hc
  · exact (LoopBinding.ensures_bind_reaches h.unfolds).of_start hok c hc hplain
  · exact (Extraction.ensures_extract_reaches options h).of_start hok c hc hsumless
  · exact (s.ensures_apply_reaches h.unfolds).of_start hok c hc hnone

/-- A sum beside a recipe. -/
def sumBesideRecipe : Arena where
  nodes := #[.index ⟨0⟩, .indexSum [⟨0⟩] ⟨0⟩, .index ⟨1⟩, .recipe ⟨⟨[⟨1⟩], [], []⟩, ⟨2⟩, none⟩,
    .operator .sum [⟨1⟩, ⟨3⟩]]
  indices := #[⟨"i", 2, .domain, []⟩, ⟨"j", 3, .domain, []⟩]

theorem wellFormed_sumBesideRecipe :
    sumBesideRecipe.WellFormed ⟨4⟩ (.node (.operator .sum)
      [.node (.indexSum [⟨0⟩]) [.node (.index ⟨0⟩) []],
        .node (.recipe ⟨[⟨1⟩], [], []⟩ none) [.node (.index ⟨1⟩) []]]) := by
  have hi : sumBesideRecipe.Resolves ⟨0⟩ := .intro rfl (by simp [sumBesideRecipe])
  have hj : sumBesideRecipe.Resolves ⟨1⟩ := .intro rfl (by simp [sumBesideRecipe])
  refine ⟨⟨_, rfl, rfl, ⟨_, rfl, rfl, ⟨_, rfl, rfl, trivial⟩, trivial⟩,
    ⟨_, rfl, rfl, ⟨_, rfl, rfl, trivial⟩, trivial⟩, trivial⟩, ?_⟩
  simp [Tree.indices, Tree.indicesAll, Shape.indices, IndexDeclaration.toList, hi, hj]

/-- Binding and extraction both change the tree, but binding keeps the sum, and extraction the
recipe. -/
theorem untouched_keep_handles_sumBesideRecipe :
    (∃ w, (Rule.identity.transform ⟨4⟩ ()).start sumBesideRecipe () = .ok (⟨4⟩, ()) w ∧
      w.arena = sumBesideRecipe) ∧
    (∃ out w, (LoopBinding.bind ⟨4⟩).start sumBesideRecipe .empty = .ok out w ∧
      ¬ (out = ⟨4⟩ ∧ w.arena = sumBesideRecipe) ∧ w.arena.Reaches out ⟨1⟩) ∧
    ∃ out w, (Extraction.extract ⟨4⟩).start sumBesideRecipe (.ofOptions .default) = .ok out w ∧
      ¬ (out = ⟨4⟩ ∧ w.arena = sumBesideRecipe) ∧ w.arena.Reaches out ⟨3⟩ := by
  have hwf := wellFormed_sumBesideRecipe
  obtain ⟨hidentity, -, -, -, hparts⟩ := untouched_keep_handles hwf
  have hsum : sumBesideRecipe.Unfolds ⟨1⟩ (.node (.indexSum [⟨0⟩]) [.node (.index ⟨0⟩) []]) :=
    ⟨_, rfl, rfl, ⟨_, rfl, rfl, trivial⟩, trivial⟩
  have hrecipe : sumBesideRecipe.Unfolds ⟨3⟩
      (.node (.recipe ⟨[⟨1⟩], [], []⟩ none) [.node (.index ⟨1⟩) []]) :=
    ⟨_, rfl, rfl, ⟨_, rfl, rfl, trivial⟩, trivial⟩
  have hplain : sumBesideRecipe.Throughout Node.IsPlain ⟨1⟩ := by
    rintro d _ hd hn r rfl
    have hshape := hsum.mem_shapes_iff.2 ⟨d, _, hd, hn, rfl⟩
    simp [Tree.shapes, Tree.shapesAll, Node.shape] at hshape
  have hsumless : sumBesideRecipe.Throughout Node.IsSumless ⟨3⟩ := by
    rintro d _ hd hn is body rfl
    have hshape := hrecipe.mem_shapes_iff.2 ⟨d, _, hd, hn, rfl⟩
    simp [Tree.shapes, Tree.shapesAll, Node.shape] at hshape
  have hchild : ∀ c ∈ [(⟨1⟩ : NodeId), ⟨3⟩], sumBesideRecipe.Reaches ⟨4⟩ c :=
    fun c hc => .single ⟨_, rfl, hc⟩
  have hbind : (outcome? ((LoopBinding.bind ⟨4⟩).start sumBesideRecipe .empty)).map Prod.fst =
      some ⟨7⟩ := by decide +kernel
  have hextract : (outcome? ((Extraction.extract ⟨4⟩).start sumBesideRecipe
      (.ofOptions .default))).map Prod.fst = some ⟨7⟩ := by decide +kernel
  refine ⟨hidentity, ?_, ?_⟩
  · obtain ⟨⟨out, b⟩, hrun, rfl⟩ := Option.map_eq_some_iff.1 hbind
    obtain ⟨w, hok, -⟩ := exists_ok_of_outcome? hrun
    refine ⟨⟨7⟩, w, hok, fun hsame => by simp at hsame, ?_⟩
    exact (hparts ⟨1⟩ (hchild _ (by simp))).2.1 _ _ w hok hplain
  · obtain ⟨⟨out, b⟩, hrun, rfl⟩ := Option.map_eq_some_iff.1 hextract
    obtain ⟨w, hok, -⟩ := exists_ok_of_outcome? hrun
    refine ⟨⟨7⟩, w, hok, fun hsame => by simp at hsame, ?_⟩
    exact (hparts ⟨3⟩ (hchild _ (by simp))).2.2.1 _ _ w hok hsumless

end TensorRecipe
