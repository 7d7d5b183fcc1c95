import TensorRecipe.Proofs.Extraction.Hygiene
import TensorRecipe.Proofs.Extraction.Reextraction
import TensorRecipe.Proofs.Pass.Sharing

/-!
# Trees without sums

A tree whose sums are all bound by lets is left alone by extraction, and no other is
(`Mirrors.settled_of_same`).  The parts of a tree that have no sum in them are found in the result
under their old handles (`ensures_extract_reaches`): on the way down to such a part, each sum that
gave way to a name is found again as the value that a let binds to that name.
-/

namespace TensorRecipe

namespace Tree

/-- Lets bind the names that are given by shapes of the tree. -/
theorem mem_letNames_iff {t : Tree} {x : String} :
    x ∈ t.letNames ↔ ∃ shape ∈ t.shapes, x ∈ shape.given :=
  iff_exists_shape (p := (x ∈ letNames ·)) fun _ _ => by
    rw [letNames, List.mem_append, letNamesAll_eq, List.mem_flatMap]

end Tree

/-- The node is no sum. -/
def Node.IsSumless (node : Node) : Prop := ∀ is body, node ≠ .indexSum is body

namespace Arena

variable {a b : Arena} {root id c : NodeId} {t : Tree} {x : String}

theorem Unfolds.mem_names_of_given (ht : a.Unfolds root t) (hid : a.Reaches root id) {node : Node}
    (hn : a.get id = .ok node) (hx : x ∈ node.shape.given) : x ∈ t.names :=
  Tree.mem_names_iff.2
    ⟨_, ht.mem_shapes_iff.2 ⟨id, node, hid, hn, rfl⟩, Shape.names_of_given hx⟩

theorem Throughout.settled (h : a.Throughout Node.IsSumless id) (kept : NodeId → Prop) :
    a.Settled kept id :=
  fun s hs ⟨is, body, hsum⟩ => absurd rfl (h s _ hs hsum is body)

end Arena

namespace Extraction

open Draft PassM

variable {a b : Arena} {kept : NodeId → Prop} {log : List (String × NodeId)} {named : Bool}
  {root id new c : NodeId} {t : Tree} {x : String}

/-! ### What is left alone -/

/-- A tree that has become itself has no sums but those kept. -/
theorem Mirrors.settled_of_same (ht : a.Unfolds root t) (hlog : ∀ e ∈ log, e.1 ∉ t.names)
    (h : Mirrors a a kept log named id new) (hid : a.Reaches root id) (hnamed : named = false)
    (heq : new = id) : a.Settled kept id := by
  induction h with
  | reference minted entry =>
    obtain ⟨is, body, hsum⟩ := minted.isSum
    rw [heq] at entry
    cases entry.symm.trans hsum
  | node old entry shape length _ stays _ ih =>
    subst heq hnamed
    obtain rfl := Except.ok.inj (old.symm.trans entry)
    intro s hs hsum
    obtain rfl | ⟨d, hmem, hds⟩ := (Arena.reaches_iff old).1 hs
    · exact (stays hsum).resolve_left nofun
    · obtain ⟨⟨k, hk⟩, rfl⟩ := List.mem_iff_get.1 hmem
      exact ih k hk hk (hid.tail ⟨_, old, hmem⟩) rfl rfl s hds hsum
  | letIn sum entry nonempty minted _ _ _ _ _ =>
    -- a let has been put around, but its names are not those of the tree
    subst heq
    obtain ⟨v, hv⟩ := List.exists_mem_of_ne_nil _ nonempty
    have hmem : v.name ∈ t.names :=
      ht.mem_names_of_given hid entry (List.mem_map_of_mem hv)
    exact absurd hmem (hlog _ (minted v hv).logged)

/-! ### What parts of a tree become -/

/-- Below any lets that have been put around, there is the name that was minted for a sum, or a node
whose children mirror those that there were. -/
theorem Mirrors.cases_inner (h : Mirrors a b kept log named id new) :
    (named = false ∧ ∃ x, MintedFor a kept log x id) ∨
      ∃ node, a.get id = .ok node ∧ ∀ c ∈ node.children, ∃ c', b.Reaches new c' ∧
        Mirrors a b kept log false c c' := by
  induction h with
  | reference minted _ => exact .inl ⟨rfl, _, minted⟩
  | @node _ _ _ node node' old entry _ length parts _ _ _ =>
    refine .inr ⟨node, old, fun c hc => ?_⟩
    obtain ⟨⟨k, hk⟩, rfl⟩ := List.mem_iff_get.1 hc
    exact ⟨_, .single ⟨node', entry, List.get_mem _ _⟩, parts k hk (length ▸ hk)⟩
  | letIn _ entry _ _ _ _ _ _ ihb =>
    refine ihb.imp_right ?_
    rintro ⟨node, hn, hparts⟩
    refine ⟨node, hn, fun c hc => ?_⟩
    obtain ⟨c', hc', hmirrors⟩ := hparts c hc
    exact ⟨c', .head ⟨_, entry, List.mem_append_right _ (List.mem_singleton.2 rfl)⟩ hc', hmirrors⟩

/-- What a let binds to a name not in the tree is what became of a sum for which the name was
minted. -/
theorem Mirrors.exists_of_let (ht : a.Unfolds root t)
    (hlog : ∀ e ∈ log, e.1 ∉ t.names ∧ a.Reaches root e.2)
    (h : Mirrors a b kept log named id new) (hid : a.Reaches root id) {top body : NodeId}
    {bindings : List Binding} (htop : b.Reaches new top)
    (hlet : b.get top = .ok (.letIn bindings body)) {v : Binding} (hv : v ∈ bindings)
    (hfresh : v.name ∉ t.names) :
    ∃ s, MintedFor a kept log v.name s ∧ Mirrors a b kept log true s v.value := by
  rcases h.let_cases (fun e he => (hlog e he).2) hid htop hlet with
    ⟨old, olds, inner, hold, hn, -, hbindings⟩ | hminted
  · -- a let of the tree binds names of the tree
    obtain ⟨u, hu, hname, -⟩ := Arena.exists_of_mem_right hbindings hv
    exact absurd (ht.mem_names_of_given hold hn (hname ▸ List.mem_map_of_mem hu)) hfresh
  · exact hminted v hv

/-- Every name that was minted is bound by a let in the result. -/
def BindsLogged (b : Arena) (out : NodeId) (log : List (String × NodeId)) : Prop :=
  ∀ e ∈ log, ∃ top bindings body v, b.Reaches out top ∧ b.get top = .ok (.letIn bindings body) ∧
    v ∈ bindings ∧ v.name = e.1

/-- A part of the tree in which there is no sum is found below whatever the result has of what is
around it. -/
theorem Mirrors.reaches {out : NodeId} (ht : a.Unfolds root t)
    (hlog : ∀ e ∈ log, e.1 ∉ t.names ∧ a.Reaches root e.2)
    (hnodup : (log.map Prod.fst).Nodup) (hbound : BindsLogged b out log)
    (hroot : Mirrors a b kept log false root out) (hid : a.Reaches root id) (hc : a.Reaches id c)
    (hsumless : a.Throughout Node.IsSumless c) (h : Mirrors a b kept log false id new)
    (hnew : b.Reaches out new) : b.Reaches out c := by
  induction hc using Relation.ReflTransGen.head_induction_on generalizing new with
  | refl => exact h.same (hsumless.settled kept) ▸ hnew
  | @head id d hstep hdc ih =>
    obtain ⟨node, hn, hmem⟩ := hstep
    have hd : a.Reaches root d := hid.tail ⟨node, hn, hmem⟩
    -- follow the name that was minted for a sum to the let that binds it
    obtain ⟨d', hd', hmirrors⟩ : ∃ d', b.Reaches out d' ∧ Mirrors a b kept log false d d' := by
      rcases h.cases_inner with ⟨-, x, hminted⟩ | ⟨node', hn', hparts⟩
      · obtain ⟨top, bindings, body, v, htop, hlet, hv, hname⟩ := hbound _ hminted.logged
        have hfresh : v.name ∉ t.names := hname ▸ (hlog _ hminted.logged).1
        obtain ⟨s, hs, hvalue⟩ := hroot.exists_of_let ht hlog .refl htop hlet hv hfresh
        obtain rfl : s = id := by
          have hlogged : (x, s) ∈ log := by
            rw [show x = v.name from hname.symm]
            exact hs.logged
          exact congrArg Prod.snd (List.inj_on_of_nodup_map hnodup hlogged hminted.logged rfl)
        have hv' : b.Reaches out v.value :=
          htop.tail ⟨_, hlet, List.mem_append_left _ (List.mem_map_of_mem hv)⟩
        obtain ⟨⟨⟩, -⟩ | ⟨node', hn', hparts⟩ := hvalue.cases_inner
        obtain rfl := Except.ok.inj (hn.symm.trans hn')
        obtain ⟨d', hd', hmirrors⟩ := hparts d hmem
        exact ⟨d', hv'.trans hd', hmirrors⟩
      · obtain rfl := Except.ok.inj (hn.symm.trans hn')
        obtain ⟨d', hd', hmirrors⟩ := hparts d hmem
        exact ⟨d', hnew.trans hd', hmirrors⟩
    exact ih hd hmirrors hd'

theorem ensures_extract_reaches (options : Options) (h : a.WellFormed root t) :
    (extract root).Ensures ⟨a, [], .ofOptions options⟩ fun out w' => ∀ c, a.Reaches root c →
      a.Throughout Node.IsSumless c → w'.arena.Reaches out c := by
  intro out w' hok c hc hsumless
  obtain ⟨hmirrors, hlog⟩ := ensures_extract_mirrors options h out w' hok
  obtain ⟨_, _, hok', xs, d, hd, hadvances, hun⟩ :=
    gives_extract (w := ⟨a, [], .ofOptions options⟩) h rfl
  obtain ⟨rfl, rfl⟩ : out = _ ∧ w' = _ := by simpa [hok] using hok'
  have hminted : (minted w'.events).Perm (xs.map Reduction.name) := by
    simpa [minted] using hadvances.minted
  have hnodup : ((extractions w'.events).map Prod.fst).Nodup := by
    rw [← minted_eq]
    exact hminted.nodup_iff.2 hadvances.nodup
  refine hmirrors.reaches h.unfolds hlog hnodup (fun e he => ?_) .refl hc hsumless hmirrors .refl
  have hmem : e.1 ∈ minted w'.events := by
    rw [minted_eq]
    exact List.mem_map_of_mem he
  have hcount := (hd.hygienic (fun _ hx => hx) hadvances.nodup hminted).once e.1 hmem
  obtain ⟨shape, hshape, hgiven⟩ := Tree.mem_letNames_iff.1 (List.one_le_count_iff.1 hcount.ge)
  obtain ⟨top, node, htop, hn, rfl⟩ := hun.mem_shapes_iff.1 hshape
  cases node with
  | letIn bindings body =>
    obtain ⟨v, hv, hname⟩ := List.mem_map.1 hgiven
    exact ⟨top, bindings, body, v, htop, hn, hv, hname⟩
  | _ => cases hgiven

end Extraction

end TensorRecipe
