import TensorRecipe.Proofs.Extraction.BoundSums
import TensorRecipe.Proofs.Extraction.Leftovers
import TensorRecipe.Proofs.Extraction.Sharing

/-!
# Traces of earlier calls

A result bears no trace of earlier calls (`Traceless`) if every let in it came of a let of the tree,
or binds names that were minted in the call itself for sums of the tree, and each such name is
referred to.  So it is just where the calls before have left nothing pending
(`traceless_iff_extract`).  A call that fails can leave something (`exists_trace`), but none that
fails before it has minted a name.
-/

namespace TensorRecipe

theorem Tree.occurrences_pos_iff {t : Tree} {x : String} :
    0 < t.occurrences x ↔ Shape.var x ∈ t.shapes := by
  have hnode : ∀ shape children, 0 < (node shape children).occurrences x ↔
      Shape.var x = shape ∨ ∃ t ∈ children, 0 < t.occurrences x := by
    intro shape children
    rw [occurrences, occurrencesAll_eq, Nat.add_pos_iff_pos_or_pos,
      List.sum_pos_iff_exists_pos_nat]
    refine or_congr ?_ (by simp)
    split <;> simp_all [eq_comm]
  rw [iff_exists_shape (p := fun t => 0 < t.occurrences x) hnode, exists_eq_right']

namespace Draft

variable {factors : Index → List Index} {used : List String}

theorem Scoped.count_pos_of_mem_bound {d : Draft} (h : d.Scoped factors used) {x : Reduction}
    (hx : x ∈ d.bound) : 0 < d.count x.name := by
  induction h with
  | node _ _ _ _ _ ih =>
    rw [bound, boundAll_eq] at hx
    obtain ⟨d, hd, hx⟩ := List.mem_flatMap.1 hx
    rw [count_node]
    exact Nat.add_pos_right _ ((ih d hd hx).trans_le (le_sum hd))
  | ref => cases hx
  | temps _ _ _ parts last _ _ _ needed ihv ihb =>
    rw [bound, boundAll_eq, List.mem_append, List.mem_append, List.mem_flatMap] at hx
    rw [count_temps]
    rcases hx with hx | ⟨d, hd, hx⟩ | hx
    · obtain ⟨k, hk⟩ := List.mem_iff_getElem?.1 hx
      rcases needed k x hk with hfree | ⟨l, d, -, hl, hfree⟩
      · exact Nat.add_pos_right _ (last.count_pos_of_free hfree)
      · have hd := List.mem_of_getElem? hl
        exact Nat.add_pos_left
          (((parts d hd).count_pos_of_free hfree).trans_le (le_sum hd)) _
    · exact Nat.add_pos_left ((ihv d hd hx).trans_le (le_sum hd)) _
    · exact Nat.add_pos_right _ (ihb hx)

end Draft

namespace Extraction

open Draft PassM

variable {a : Arena} {root out : NodeId} {t : Tree} {m : Memory} {w w' : Workspace Memory}

/-- The let is what became of a let of the tree. -/
def CameOfLet (a : Arena) (root : NodeId) (w : Workspace Memory) (bindings : List Binding)
    (body : NodeId) : Prop :=
  ∃ id olds inner, a.Reaches root id ∧ a.get id = .ok (.letIn olds inner) ∧
    Replaces a w.memory.bound w false inner body ∧
    List.Forall₂ (fun u v => v.name = u.name ∧ Replaces a w.memory.bound w false u.value v.value)
      olds bindings

/-- The name was minted for a sum of the tree, and the value is what became of the sum. -/
def CameOfSum (a : Arena) (root : NodeId) (w : Workspace Memory) (v : Binding) : Prop :=
  ∃ s, a.Reaches root s ∧ MintedFor a (· ∈ w.memory.bound) (extractions w.events) v.name s ∧
    Replaces a w.memory.bound w true s v.value

/-- What a call has left besides the lets of the tree are the names it has minted. -/
structure Traceless (a : Arena) (root out : NodeId) (w : Workspace Memory) : Prop where
  lets : ∀ top bindings body, w.arena.Reaches out top →
    w.arena.get top = .ok (.letIn bindings body) →
      CameOfLet a root w bindings body ∨ ∀ v ∈ bindings, CameOfSum a root w v
  referenced : ∀ x ∈ minted w.events, ∃ id, w.arena.Reaches out id ∧ w.arena.get id = .ok (.var x)

theorem ensures_extract_referenced (h : a.WellFormed root t) (hregion : m.region = .empty) :
    (extract root).Ensures ⟨a, [], m⟩ fun out w' => ∀ x ∈ minted w'.events,
      ∃ id, w'.arena.Reaches out id ∧ w'.arena.get id = .ok (.var x) := by
  refine (gives_extract (w := ⟨a, [], m⟩) h hregion).ensures.mono ?_
  rintro out w' ⟨xs, d, hd, hadvances, hun⟩ x hx
  have hminted : (minted w'.events).Perm (xs.map Reduction.name) := by
    simpa [minted] using hadvances.minted
  obtain ⟨y, hy, rfl⟩ := List.mem_map.1 (hminted.subset hx)
  have hpos := hd.isScoped.count_pos_of_mem_bound (hd.bound.symm.subset hy)
  obtain ⟨id, node, hid, hn, hshape⟩ := hun.mem_shapes_iff.1 (Tree.occurrences_pos_iff.1 hpos)
  exact ⟨id, hid, Node.eq_var hshape ▸ hn⟩

/-- Whatever calls there have been, the result of a call that succeeds bears no trace of them just
where they have left nothing pending.  (The tree must not bind a pending name itself.) -/
theorem traceless_iff_extract (hm : m.Served) (h : a.WellFormed root t)
    (hapart : ∀ s ∈ m.region.pending, s.name ∉ t.letNames)
    (hok : (extract root).start a m = .ok out w') :
    Traceless a root out w' ↔ m.region.pending = [] := by
  constructor
  · intro htraceless
    refine List.eq_nil_iff_forall_not_mem.2 fun s hs => ?_
    obtain ⟨-, -, hbinds, hfresh⟩ :=
      (ends_extract root (w := ⟨a, [], m⟩) hm.orderly).ok out w' hok
    obtain ⟨top, bindings, body, htop, hlet, hname⟩ := hbinds s hs
    obtain ⟨v, hv, hname⟩ := List.mem_map.1 hname
    rcases htraceless.lets top bindings body htop hlet with
      ⟨id, olds, inner, hid, hn, -, hbindings⟩ | hsums
    · -- the tree would bind the name
      obtain ⟨u, hu, hsame, -⟩ := Arena.exists_of_mem_right hbindings hv
      refine hapart s hs (Tree.mem_letNames_iff.2 ⟨_,
        h.unfolds.mem_shapes_iff.2 ⟨id, _, hid, hn, rfl⟩, ?_⟩)
      rw [← hname, hsame]
      exact List.mem_map_of_mem hu
    · -- the name would be minted again
      obtain ⟨c, -, hminted, -⟩ := hsums v hv
      have hmem : s.name ∈ minted w'.events := by
        rw [minted_eq, ← hname]
        exact List.mem_map_of_mem hminted.logged
      rcases hfresh _ hmem with hbefore | hno
      · cases hbefore
      · exact hno (hm.orderly.reserved s hs)
  · intro hpending
    have hregion := hm.orderly.region_eq_empty hpending
    obtain ⟨hmirrors, hlog, -⟩ := ensures_extract_replaces h hregion out w' hok
    refine ⟨fun top bindings body htop hlet => ?_, ensures_extract_referenced h hregion out w' hok⟩
    refine (hmirrors.let_cases (fun e he => (hlog e he).2) .refl htop hlet).imp_right ?_
    intro hnew v hv
    obtain ⟨s, hs, hvalue⟩ := hnew v hv
    exact ⟨s, (hlog _ hs.logged).2, hs, hvalue⟩

/-- A sum beside one in which an index is unknown, and a variable. -/
def broken : Arena where
  nodes := #[.index ⟨0⟩, .indexSum [⟨0⟩] ⟨0⟩, .index ⟨9⟩, .indexSum [⟨0⟩] ⟨2⟩,
    .operator .sum [⟨1⟩, ⟨3⟩], .var "u"]
  indices := #[⟨"i", 2, .domain, []⟩]

/-- What one call after another leads to, where the first fails: the fault, the arena it left and
what had been minted, and then the answer with the arena and what was minted for it. -/
def afterFault? (first second : NodeId) (a : Arena) :
    Option ((Fault × Arena × List String) × NodeId × Arena × List String) :=
  match (extract first).start a (.ofOptions .default) with
  | .ok _ _ => none
  | .error fault w => match (extract second).start w.arena w.memory with
    | .ok out w' => some ((fault, w.arena, minted w.events), out, w'.arena, minted w'.events)
    | .error _ _ => none

theorem exists_of_afterFault? {first second out : NodeId} {a b c : Arena} {fault : Fault}
    {names more : List String}
    (h : afterFault? first second a = some ((fault, b, names), out, c, more)) :
    ∃ w w', (extract first).start a (.ofOptions .default) = .error fault w ∧ w.arena = b ∧
      minted w.events = names ∧ (extract second).start w.arena w.memory = .ok out w' ∧
        w'.arena = c ∧ minted w'.events = more := by
  unfold afterFault? at h
  split at h
  · cases h
  · next fault' w hfirst =>
    split at h
    · next out' w' hsecond =>
      simp only [Option.some.injEq, Prod.mk.injEq] at h
      obtain ⟨⟨rfl, hb, hnames⟩, rfl, hc, hmore⟩ := h
      exact ⟨w, w', hfirst, hb, hnames, hsecond, hc, hmore⟩
    · cases h

/-- Before the unknown index is found in one sum, a name has been minted for the other. -/
def brokenAfter : Arena where
  nodes := broken.nodes ++ #[.var "isum_0"]
  indices := broken.indices

/-- The name for the sum of the call that failed is bound around the variable. -/
theorem exists_trace :
    ∃ w out w', (extract ⟨4⟩).start broken (.ofOptions .default) = .error (.unknownIndex ⟨9⟩) w ∧
      w.arena.WellFormed ⟨5⟩ (.node (.var "u") []) ∧
      (extract ⟨5⟩).start w.arena w.memory = .ok out w' ∧ minted w'.events = [] ∧
      w'.arena.get out = .ok (.letIn [⟨"isum_0", ⟨1⟩⟩] ⟨5⟩) ∧ ¬ Traceless w.arena ⟨5⟩ out w' := by
  have hrun : afterFault? ⟨4⟩ ⟨5⟩ broken = some ((.unknownIndex ⟨9⟩, brokenAfter, ["isum_0"]), ⟨7⟩,
      ⟨brokenAfter.nodes.push (.letIn [⟨"isum_0", ⟨1⟩⟩] ⟨5⟩), brokenAfter.indices⟩, []) := by
    decide +kernel
  obtain ⟨w, w', hfails, harena, -, hok, harena', hminted⟩ := exists_of_afterFault? hrun
  have hlet : w'.arena.get ⟨7⟩ = .ok (.letIn [⟨"isum_0", ⟨1⟩⟩] ⟨5⟩) := by
    rw [harena']
    rfl
  refine ⟨w, ⟨7⟩, w', hfails, ?_, hok, hminted, hlet, fun htraceless => ?_⟩
  · rw [harena]
    exact ⟨⟨_, rfl, rfl, trivial⟩, by simp [Tree.indices, Tree.indicesAll, Shape.indices]⟩
  rcases htraceless.lets ⟨7⟩ _ _ .refl hlet with ⟨id, olds, inner, hid, hn, -⟩ | hsums
  · -- there is nothing but a variable
    rw [harena] at hid hn
    rcases Relation.ReflTransGen.cases_head hid with rfl | ⟨c, ⟨_, ⟨⟩, hc⟩, -⟩
    · cases hn
    · cases hc
  · -- nothing has been minted
    obtain ⟨s, -, hs, -⟩ := hsums _ List.mem_cons_self
    have hmem := List.mem_map_of_mem (f := Prod.fst) hs.logged
    rw [← minted_eq, hminted] at hmem
    cases hmem

/-- The call that fails at once leaves nothing, so the name for the sum is minted for the second. -/
theorem traceless_extract_broken :
    ∃ w out w', (extract ⟨3⟩).start broken (.ofOptions .default) = .error (.unknownIndex ⟨9⟩) w ∧
      (extract ⟨1⟩).start w.arena w.memory = .ok out w' ∧ minted w'.events = ["isum_0"] ∧
        Traceless w.arena ⟨1⟩ out w' := by
  have hrun : afterFault? ⟨3⟩ ⟨1⟩ broken = some ((.unknownIndex ⟨9⟩, broken, []), ⟨7⟩,
      ⟨broken.nodes ++ #[.var "isum_0", .letIn [⟨"isum_0", ⟨1⟩⟩] ⟨6⟩], broken.indices⟩,
      ["isum_0"]) := by
    decide +kernel
  obtain ⟨w, w', hfails, harena, hnone, hok, -, hminted⟩ := exists_of_afterFault? hrun
  have hserved : (Memory.ofOptions .default).Served := .fresh .default
  have hpending : w.memory.region.pending = [] :=
    pending_eq_nil_of_minted_eq_nil (w := ⟨broken, [], _⟩) hserved rfl hfails hnone
  have htree : w.arena.WellFormed ⟨1⟩ (.node (.indexSum [⟨0⟩]) [.node (.index ⟨0⟩) []]) := by
    rw [harena]
    have hi : broken.Resolves ⟨0⟩ := .intro rfl (by simp [broken])
    refine ⟨⟨_, rfl, rfl, ⟨_, rfl, rfl, trivial⟩, trivial⟩, ?_⟩
    simp [Tree.indices, Tree.indicesAll, Shape.indices, hi]
  have hcalled : w.memory.Served :=
    .call (w := ⟨broken, [], _⟩) hserved (.inr ⟨_, hfails⟩)
  exact ⟨w, _, w', hfails, hok, hminted,
    (traceless_iff_extract hcalled htree (by simp [hpending]) hok).2 hpending⟩

end Extraction

end TensorRecipe
