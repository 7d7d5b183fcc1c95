import TensorRecipe.Proofs.Extraction.Confinement
import TensorRecipe.Proofs.Extraction.Dangling
import TensorRecipe.Proofs.Extraction.Learning

/-!
# One name in a region

What a region knows was met on a visit in the region that went into the sum (`MetWithin`), and it is
pending there and in the log (`Recorded`).  So a sum that stands in a region is met there, though not
wherever it stands, as what is known is not gone into (`Begun.exists_enters`).

Main statement: `same_name_iff_extract`.
-/

namespace TensorRecipe

theorem Arena.IsSum.mono {a b : Arena} {id : NodeId} (h : a.IsSum id) (hab : a.Extends b) :
    b.IsSum id := by
  obtain ⟨is, body, hn⟩ := h
  exact ⟨is, body, hab.get hn⟩

namespace Extraction

open Draft PassM

variable {sure : Prop} {factors : Index → List Index} {used : List String} {t s : Tree}
  {a b c d : Call} {k n m : Nat} {p q : List Nat} {x y : String} {S : NodeId} {node : Node}
  {r : NodeId × List Scope} {w w' : Workspace Memory}

/-! ### What is pending was logged -/

/-- What is known in a region is pending there, and is in the log; names in the log are all taken, and
each is there once. -/
structure Recorded (used : List String) (w : Workspace Memory) : Prop where
  pending : pendingNames w = (w.memory.region.known.map Prod.snd).reverse
  logged : ∀ e ∈ w.memory.region.known, (e.2, e.1.1) ∈ extractions w.events
  nodup : (minted w.events).Nodup
  taken : ∀ x, x ∈ used ∨ x ∈ minted w.events → x ∈ w.memory.namer.reserved
  unused : ∀ x ∈ minted w.events, x ∉ used

/-- What is in the log stays there, and records are kept. -/
structure KeepsRecords (used : List String) (w w' : Workspace Memory) : Prop where
  logged : extractions w.events ⊆ extractions w'.events
  kept : Recorded used w → Recorded used w'

theorem Recorded.empty (h : Recorded used w) :
    Recorded used { w with memory := { w.memory with region := .empty } } :=
  ⟨rfl, by simp [Region.empty], h.nodup, h.taken, h.unused⟩

theorem Recorded.congr (h : Recorded used w) (hextracted : extractions w'.events = extractions w.events)
    (hregion : w'.memory.region = w.memory.region)
    (hreserved : w'.memory.namer.reserved = w.memory.namer.reserved) : Recorded used w' := by
  have hminted : minted w'.events = minted w.events := by
    rw [minted_eq, hextracted, ← minted_eq]
  refine ⟨?_, ?_, hminted ▸ h.nodup, ?_, hminted ▸ h.unused⟩
  · rw [pendingNames, hregion]
    exact h.pending
  · rw [hregion, hextracted]
    exact h.logged
  · rw [hminted, hreserved]
    exact h.taken

theorem Recorded.mint (h : Recorded used w) {name : String} {key : NodeId × Nat} {value : NodeId}
    (hm : Mints w w' name key value) : Recorded used w' := by
  have hfresh : name ∉ minted w.events := fun hx => hm.fresh (h.taken _ (.inr hx))
  refine ⟨?_, fun e he => ?_, ?_, fun x hx => ?_, fun x hx => ?_⟩
  · rw [pendingNames, hm.region]
    simp only [Region.add, List.map_append, List.map_cons, List.map_nil, List.reverse_cons]
    rw [← h.pending]
    rfl
  · rw [hm.region] at he
    rw [hm.extracted]
    rcases List.mem_cons.1 he with rfl | he
    · exact List.mem_cons_self
    · exact List.mem_cons_of_mem _ (h.logged e he)
  · rw [hm.minted]
    exact List.nodup_cons.2 ⟨hfresh, h.nodup⟩
  · rw [hm.minted, List.mem_cons] at hx
    rw [hm.reserved, List.mem_cons]
    rcases hx with hx | rfl | hx
    · exact .inr (h.taken _ (.inl hx))
    · exact .inl rfl
    · exact .inr (h.taken _ (.inr hx))
  · rw [hm.minted] at hx
    rcases List.mem_cons.1 hx with rfl | hx
    · exact fun hused => hm.fresh (h.taken _ (.inl hused))
    · exact h.unused x hx

namespace KeepsRecords

theorem of_quiet (h : Quiet w w') : KeepsRecords used w w' := by
  have hextracted : extractions w'.events = extractions w.events := by rw [h.events]
  exact ⟨hextracted ▸ List.Subset.refl _,
    fun hw => hw.congr hextracted (by rw [h.memory]) (by rw [h.memory])⟩

theorem trans {v : Workspace Memory} (h : KeepsRecords used w v) (h' : KeepsRecords used v w') :
    KeepsRecords used w w' :=
  ⟨List.Subset.trans h.logged h'.logged, fun hw => h'.kept (h.kept hw)⟩

theorem lasts : Lasts sure factors used fun _ => KeepsRecords used where
  steady _ := ⟨fun _ => ⟨List.Subset.refl _, id⟩, trans, of_quiet⟩
  down _ _ _ h := h
  mint _ _ hextracts h := by
    refine h.trans ⟨?_, fun hw => hw.mint hextracts.mints⟩
    rw [hextracts.mints.extracted]
    exact List.subset_cons_self _ _
  recipe {t a b v u w' new q} hnode call hbegun hstart hends hquiet h := by
    obtain ⟨-, hextracted, hmemory⟩ := hends.grows hbegun
    have hlogged : extractions a.start.events ⊆ extractions u.events := by
      rw [hextracted]
      simpa [hstart] using h.logged
    refine KeepsRecords.trans ⟨hlogged, fun hw => ?_⟩ (.of_quiet hquiet)
    have hv : Recorded used v := h.kept (hstart ▸ hw.empty)
    have hminted : minted u.events = minted v.events := by
      rw [minted_eq, hextracted, ← minted_eq]
    refine ⟨?_, ?_, hminted ▸ hv.nodup, ?_, hminted ▸ hv.unused⟩
    · rw [pendingNames, hmemory]
      exact hw.pending
    · rw [hmemory]
      exact fun e he => hlogged (hw.logged e he)
    · rw [hmemory, hminted]
      exact hv.taken

end KeepsRecords

/-! ### Which visits are made -/

theorem Call.Makes.child (call : a.Makes k b) :
    ∃ node, a.start.arena.get a.id = .ok node ∧ node.children[k]? = some b.id := by
  cases call with
  | intro get calls =>
    refine ⟨_, get, ?_⟩
    cases calls with
    | letIn child _ _ => exact child
    | part _ child _ => exact child
    | _ => rfl

theorem Begun.at_enters (h : Begun sure factors used t a) (henters : Enters a p c) :
    a.start.arena.at? a.id p = some c.id := by
  induction henters generalizing t with
  | here => rfl
  | @down a b c k p call _ ih =>
    obtain ⟨node, hnode, hchild⟩ := call.child
    obtain ⟨shape, ts⟩ := t
    obtain ⟨u, -, hbegun, -⟩ := h.makes call
    obtain ⟨node', hnode', -, hall⟩ := h.formed.unfolds.get
    obtain rfl := Except.ok.inj (hnode.symm.trans hnode')
    obtain ⟨v, -, hv⟩ := Arena.exists_of_getElem?_left hall hchild
    refine Arena.at?_cons_eq_some.2 ⟨node, b.id, hnode, hchild, ?_⟩
    rw [← (h.ages call).arena.at?_eq hv]
    exact ih hbegun

/-- A visit further below goes through those on the way. -/
theorem Enters.of_append {p q : List Nat} (h : Enters a (p ++ q) c) :
    ∃ b, Enters a p b ∧ Enters b q c := by
  induction p generalizing a with
  | nil => exact ⟨a, .here a, h⟩
  | cons k p ih =>
    cases h with
    | down call enters =>
      obtain ⟨b, hb, hc⟩ := ih enters
      exact ⟨b, .down call hb, hc⟩

/-- Below a visit that succeeds all visits succeed, and what is in the log then is there at the end. -/
theorem Begun.run_enters (h : Begun sure factors used t a) (henters : Enters a p c)
    (hrun : a.run = .ok r w') :
    ∃ r' v, c.run = .ok r' v ∧ extractions v.events ⊆ extractions w'.events := by
  induction henters generalizing t r w' with
  | here => exact ⟨r, w', hrun, List.Subset.refl _⟩
  | @down a b c k p call _ ih =>
    obtain ⟨shape, ts⟩ := t
    obtain ⟨u, -, hbegun, -⟩ := h.makes call
    obtain ⟨node, hnode, -⟩ := h.formed.node
    obtain ⟨q, rfl⟩ | hrec := node.recipe_or
    · obtain ⟨rfl, -⟩ := call.start_of_recipe hnode
      obtain ⟨v, v', new, hends, hquiet⟩ := h.regionEnds hnode call hrun
      obtain ⟨body, passed, hvisited, -⟩ := hends.ends
      rw [hquiet.events, (hends.grows hbegun).2.1]
      exact ih hbegun hvisited
    · obtain ⟨r₁, v₁, hvisited, hafter⟩ := KeepsRecords.lasts.after h call hnode hrec hrun
      obtain ⟨r', v, hc, hsub⟩ := ih hbegun hvisited
      refine ⟨r', v, hc, List.Subset.trans hsub ?_⟩
      rcases hafter with hkeeps | ⟨n, u', name, value, hkeeps, hextracts⟩
      · exact hkeeps.logged
      · exact List.Subset.trans hkeeps.logged
          (hextracts.mints.extracted ▸ List.subset_cons_self _ _)

theorem Begun.recorded (h : Begun sure factors used t a) (hrecorded : Recorded used a.start)
    (henters : Enters a p c) : Recorded used c.start := by
  induction henters generalizing t with
  | here => exact hrecorded
  | @down a b c k p call _ ih =>
    obtain ⟨shape, ts⟩ := t
    obtain ⟨u, -, hbegun, -⟩ := h.makes call
    refine ih hbegun ?_
    obtain ⟨node, hnode, -⟩ := h.formed.node
    obtain ⟨q, rfl⟩ | hrec := node.recipe_or
    · rw [(call.start_of_recipe hnode).2]
      exact hrecorded.empty
    · exact (KeepsRecords.lasts.before h call hnode hrec).kept hrecorded

theorem exists_openScope (names : List String) (scopes : List Scope) (w : Workspace Memory) :
    ∃ inner v, openScope [] names scopes w = .ok inner v := by
  have hopens : (openScope [] names scopes).GivesIf True w _ := givesIf_openScope (by simp)
  obtain ⟨inner, v, hopen, -⟩ := hopens.gives trivial
  exact ⟨inner, v, hopen⟩

/-- A visit that succeeds goes into its node, unless that is a sum that is known. -/
theorem Begun.makes_or_known (h : Begun sure factors used t a) (hrun : a.run = .ok r w')
    (hnode : a.start.arena.get a.id = .ok node) (hk : k < node.children.length) :
    (∃ b, a.Makes k b) ∨ a.id ∉ a.start.memory.bound ∧ a.start.arena.IsSum a.id ∧
      ∃ n x, bindingSerial a.scopes a.id a.start.arena = .ok n ∧
        a.start.memory.region.find? (a.id, n) = some x := by
  obtain ⟨depth, node', hdepth, hget, hran⟩ := h.ran hrun
  obtain rfl := Except.ok.inj (hnode.symm.trans hget)
  obtain ⟨_, id, scopes, w⟩ := a
  obtain rfl : _ = depth + 1 := hdepth
  cases hran with
  | loop loop opened _ _ =>
    rcases loop with rfl | ⟨rfl, hbound⟩
    · obtain rfl : k = 0 := by simpa [Node.children] using hk
      exact .inl ⟨_, .intro hnode (.loop opened)⟩
    · obtain rfl : k = 0 := by simpa [Node.children] using hk
      exact .inl ⟨_, .intro hnode (.sum (.inl hbound) opened)⟩
  | known unbound serial found _ _ =>
    exact .inr ⟨unbound, ⟨_, _, hnode⟩, _, _, serial, found⟩
  | extracted opened _ _ extracts =>
    obtain rfl : k = 0 := by simpa [Node.children] using hk
    exact .inl ⟨_, .intro hnode (.sum (.inr ⟨_, extracts.serial, extracts.unknown⟩) opened)⟩
  | letIn values _ _ _ =>
    rw [visitValues_eq_through] at values
    obtain ⟨⟨done, names⟩, u, hbefore⟩ := exists_through_take values k
    rw [← visitValues_eq_through] at hbefore
    obtain ⟨inner, v, hopen⟩ := exists_openScope names scopes u
    exact .inl ⟨_, .intro hnode (.letIn (List.getElem?_eq_getElem hk) hbefore hopen)⟩
  | recipe emptied _ _ _ =>
    obtain rfl : k = 0 := by simpa [Node.children] using hk
    exact .inl ⟨_, .intro hnode (.recipe emptied)⟩
  | part rebuilt visited _ =>
    rw [Visit.all_eq_through] at visited
    obtain ⟨⟨done, passed⟩, u, hbefore⟩ := exists_through_take visited k
    rw [← Visit.all_eq_through] at hbefore
    exact .inl ⟨_, .intro hnode (.part rebuilt (List.getElem?_eq_getElem hk) hbefore)⟩

/-! ### What is known was met -/

/-- A visit in the region of the visit `c` went into a sum, in the scope that is its home, and gave
it the name. -/
def MetWithin (sure : Prop) (factors : Index → List Index) (used : List String) (c : Call)
    (e : (NodeId × Nat) × String) : Prop :=
  ∃ p d, Enters c p d ∧ (∀ t, Begun sure factors used t c → t.region p = []) ∧
    Meets e.1.1 d e.1.2 e.2 ∧ d.start.memory.region.find? e.1 = none

/-- The region knows more, and what it has come to know was met in it. -/
structure Collects (sure : Prop) (factors : Index → List Index) (used : List String) (c : Call)
    (w w' : Workspace Memory) : Prop extends Learns w w' where
  met : ∀ e ∈ w'.memory.region.known,
    e ∈ w.memory.region.known ∨ MetWithin sure factors used c e

theorem MetWithin.makes {e : (NodeId × Nat) × String} (call : a.Makes k b)
    (hnode : a.start.arena.get a.id = .ok node) (hrec : ∀ q, node ≠ .recipe q)
    (h : MetWithin sure factors used b e) : MetWithin sure factors used a e := by
  obtain ⟨p, d, henters, htop, hmeets⟩ := h
  refine ⟨k :: p, d, .down call henters, fun t ht => ?_, hmeets⟩
  obtain ⟨shape, ts⟩ := t
  obtain ⟨u, hu, hbegun, -⟩ := ht.makes call
  obtain ⟨node', hnode', rfl, -⟩ := ht.formed.node
  obtain rfl := Except.ok.inj (hnode.symm.trans hnode')
  exact (Tree.region_cons_eq_nil hrec hu).2 (htop u hbegun)

namespace Collects

theorem of_learns (h : Learns w w')
    (hregion : ∀ e ∈ w'.memory.region.known, e ∈ w.memory.region.known) :
    Collects sure factors used c w w' :=
  ⟨h, fun e he => .inl (hregion e he)⟩

theorem trans {v : Workspace Memory} (h : Collects sure factors used c w v)
    (h' : Collects sure factors used c v w') : Collects sure factors used c w w' := by
  refine ⟨h.toLearns.trans h'.toLearns, fun e he => ?_⟩
  rcases h'.met e he with he | he
  · exact h.met e he
  · exact .inr he

theorem steady (c : Call) : Steady (Collects sure factors used c) where
  refl w := .of_learns (.refl w) fun _ he => he
  trans h h' := h.trans h'
  quiet h := .of_learns (.of_quiet h) (by rw [h.memory]; exact fun _ he => he)

theorem lasts : Lasts sure factors used (Collects sure factors used) where
  steady := steady
  down call hnode hrec h :=
    ⟨h.toLearns, fun e he => (h.met e he).imp_right fun he => he.makes call hnode hrec⟩
  mint {t a r w' u n name value} hbegun hrun hextracts h := by
    have hm := hextracts.mints
    refine ⟨h.toLearns.mint hm hextracts.unknown, fun e he => ?_⟩
    rw [hm.region] at he
    rcases List.mem_cons.1 he with rfl | he
    · refine .inr ⟨[], a, .here a, fun t _ => rfl, ⟨rfl, hextracts.serial,
        ⟨r.1, r.2, w', hrun, hextracts.answer, ?_⟩, .inr ⟨hextracts.unknown, ?_⟩⟩,
        hextracts.unknown⟩
      · rw [hm.region, Region.find?_add_self]
      · exact fun hx => hm.fresh (h.reserved _ hx)
    · exact h.met e he
  recipe hnode call hbegun hstart hends hquiet h := by
    refine .of_learns (Learns.lasts.recipe hnode call hbegun hstart hends hquiet h.toLearns) ?_
    rw [hquiet.memory, (hends.grows hbegun).2.2]
    exact fun _ he => he

end Collects

/-- A way down in the region of a visit that goes on in one further below. -/
theorem Begun.descend (h : Begun sure factors used t b) (henters : Enters b p c)
    (hp : t.region p = []) (call : c.Makes k d) (hnode : b.start.arena.get c.id = .ok node)
    {e : NodeId} (he : node.children[k]? = some e)
    (htop : ∀ u, b.start.arena.Unfolds c.id u → u.region (k :: q) = []) :
    t.region (p ++ [k]) = [] ∧ d.id = e ∧ ∀ u, b.start.arena.Unfolds e u → u.region q = [] := by
  obtain ⟨⟨shape, us⟩, hu, hun⟩ := h.formed.unfolds.at? (h.at_enters henters)
  obtain ⟨node', hnode', he'⟩ := call.child
  obtain rfl := Except.ok.inj (((h.ages_enters henters).arena.get hnode).symm.trans hnode')
  obtain ⟨node', hnode', -, hall⟩ := hun.get
  obtain rfl := Except.ok.inj (hnode.symm.trans hnode')
  obtain ⟨v, hv, hev⟩ := Arena.exists_of_getElem?_left hall he
  have hbelow := htop _ hun
  rw [Tree.region_cons hv, Shape.regionBelow_eq_nil] at hbelow
  refine ⟨(Tree.region_append_eq_nil hu).2 ⟨hp, ?_⟩, Option.some.inj (he'.symm.trans he),
    fun u hu => hev.unique hu ▸ hbelow.1⟩
  rw [Tree.region_cons hv, Shape.regionBelow_eq_nil]
  exact ⟨rfl, hbelow.2⟩

/-- A sum that stands in a region is met there.  On the way to where it stands there may be a sum that
is known and not gone into; then the way goes on where that sum was gone into. -/
theorem Begun.exists_enters (h : Begun sure factors used t b)
    (hempty : b.start.memory.region = .empty) (hrun : b.run = .ok r w') :
    ∀ {q p c}, Enters b p c → t.region p = [] → b.start.arena.at? c.id q = some S →
      (∀ u, b.start.arena.Unfolds c.id u → u.region q = []) →
      ∃ p c, Enters b p c ∧ t.region p = [] ∧ c.id = S := by
  intro q
  induction q with
  | nil =>
    intro p c henters hp hq _
    exact ⟨p, c, henters, hp, by simpa [Arena.at?] using hq⟩
  | cons k q ih =>
    intro p c henters hp hq htop
    obtain ⟨node, e, hnode, he, hq⟩ := Arena.at?_cons_eq_some.1 hq
    have hk := (List.getElem?_eq_some_iff.1 he).1
    have hgo : ∀ {p d}, Enters b p d → t.region p = [] → d.id = c.id → (∃ d', d.Makes k d') →
        ∃ p c, Enters b p c ∧ t.region p = [] ∧ c.id = S := by
      rintro p d henters hp hd ⟨d', call⟩
      rw [← hd] at hnode htop
      obtain ⟨hp', rfl, hbelow⟩ := h.descend henters hp call hnode he htop
      exact ih (henters.snoc call) hp' hq hbelow
    obtain ⟨r₁, w₁, hrun₁, -⟩ := h.run_enters henters hrun
    obtain ⟨_, -, hbegun⟩ := h.enters henters
    rcases hbegun.makes_or_known hrun₁ ((h.ages_enters henters).arena.get hnode) hk with
      hmakes | ⟨-, -, n, x, -, hfind⟩
    · exact hgo henters hp rfl hmakes
    · have hcollects := Collects.lasts.until_begin h henters hp
      rcases hcollects.met _ (Region.mem_of_find? hfind) with hmem | ⟨p', d, henters', htop', hd⟩
      · rw [hempty] at hmem
        cases hmem
      · obtain ⟨hmeets, hnone⟩ := hd
        have hid : d.id = c.id := hmeets.id
        obtain ⟨_, -, hbegun'⟩ := h.enters henters'
        obtain ⟨new, passed, w₂, hrun₂, -⟩ := hmeets.answer
        have hnode' : d.start.arena.get d.id = .ok node :=
          hid ▸ (h.ages_enters henters').arena.get hnode
        rcases hbegun'.makes_or_known hrun₂ hnode' hk with hmakes | ⟨-, -, m, y, hserial, hfind'⟩
        · exact hgo henters' (htop' t h) hid hmakes
        · rw [hid] at hserial hfind'
          cases hserial.symm.trans hmeets.serial
          simp [hnone] at hfind'

/-! ### What a region binds -/

/-- At the end of a region just what is pending is bound in it, each name once. -/
theorem RegionEnds.exists_binds {outer : Region} {v u : Workspace Memory} {new : NodeId}
    (h : RegionEnds outer b v u new) (hbegun : Begun sure factors used t b) :
    ∃ result, u.arena.Unfolds new result ∧
      (∀ x ∈ pendingNames v, result.letNames.count x = 1 ∧
        ∃ q, result.BindsAt q x ∧ result.region q = []) ∧
      ∀ x ∉ used, ∀ q, result.BindsAt q x → result.region q = [] → x ∈ pendingNames v := by
  obtain ⟨body, passed, hrun, hplaced⟩ := h.ends
  obtain ⟨known, hstate⟩ := hbegun.state
  obtain ⟨f, floats, after, hf⟩ := hbegun.replaced
    (.empty hstate.factors_eq h.empty hstate.used_reserved) hrun
  obtain ⟨d, hd, hun, -, -⟩ := (gives_bindTemporaries
    (w := { v with memory := { v.memory with region := outer } }) hf.closed.stocked
    hf.closed.placeable hf.pending hf.body).ensures _ _ hplaced
  obtain ⟨_, _, _, result, hbinds, -, -, hresult, honce⟩ :=
    (hbegun.noneDangle h.empty hrun outer).bound
  cases hplaced.symm.trans hbinds
  obtain rfl := hresult.unique hun
  have hnames : (d.bindings.map (·.1.name)).Perm (pendingNames v) := by
    have hpending : pendingNames v = (cores after).map (·.1.name) := by
      rw [pendingNames, ← List.forall₂_eq_eq_eq, List.forall₂_map_left_iff,
        List.forall₂_map_right_iff]
      exact hf.pending.imp fun _ _ h => h.1
    have hperm := hd.bindings.map (·.1.name)
    rw [List.map_map] at hperm
    rw [hpending]
    exact hperm
  refine ⟨_, hun, fun x hx => ?_, fun x hx q hq htop => ?_⟩
  · obtain ⟨b, hb, rfl⟩ := List.mem_map.1 (hnames.symm.subset hx)
    obtain ⟨s, hs, hname⟩ := List.mem_map.1 hx
    exact ⟨hname ▸ honce s hs, exists_bindsAt_of_mem_bindings b hb⟩
  · obtain ⟨b, hb, rfl⟩ := hd.isScoped.mem_bindings_of_bindsAt hx hq htop
    exact hnames.subset (List.mem_map_of_mem hb)

/-- Of the names that the log has for a sum, just this one is bound in the outermost region of the
tree, and it is bound once. -/
structure OneBinding (log : List (String × NodeId)) (S : NodeId) (x : String) (result : Tree) : Prop
    where
  logged : (x, S) ∈ log
  bound : ∃ q, result.BindsAt q x ∧ result.region q = []
  once : result.letNames.count x = 1
  only : ∀ y q, (y, S) ∈ log → result.BindsAt q y → result.region q = [] → y = x

/-- A sum that has no home in a region where it stands has one name there. -/
theorem RegionEnds.oneBinding {outer : Region} {v u : Workspace Memory} {new : NodeId}
    (h : RegionEnds outer b v u new) (hbegun : Begun sure factors used t b)
    (hrecorded : Recorded used b.start) {log : List (String × NodeId)}
    (hlog : extractions v.events ⊆ log) (hnodup : (log.map Prod.fst).Nodup)
    (hunused : ∀ e ∈ log, e.1 ∉ used) (hS : b.start.arena.Unfolds S s)
    (hsum : b.start.arena.IsSum S) (hunbound : S ∉ b.start.memory.bound)
    (hoccurs : ∃ q, t.region q = [] ∧ b.start.arena.at? b.id q = some S)
    (hnowhere : ∀ q, t.region q = [] → b.start.arena.at? b.id q = some S →
      s.home factors t q = none) :
    ∃ x result, u.arena.Unfolds new result ∧ OneBinding log S x result ∧
      ∀ p c n y, Enters b p c → t.region p = [] → Meets S c n y → y = x := by
  obtain ⟨body, passed, hrun, -⟩ := h.ends
  obtain ⟨q, htop, hq⟩ := hoccurs
  obtain ⟨p, c, henters, hp, hid⟩ := hbegun.exists_enters h.empty hrun (.here b) rfl hq
    fun u hu => hbegun.formed.unfolds.unique hu ▸ htop
  obtain ⟨r, w, hvisited, -⟩ := hbegun.run_enters henters hrun
  obtain ⟨tc, -, hc⟩ := hbegun.enters henters
  have hages := hbegun.ages_enters henters
  obtain ⟨n, x, hmeets, -⟩ := hc.meets (hsum.mono hages.arena) (by rwa [hages.bound]) hid hvisited
  -- wherever the sum is met it has no home in the region, so it has the same name
  have hsame : ∀ p' c' m y, Enters b p' c' → t.region p' = [] → Meets S c' m y → y = x := by
    intro p' c' m y henters' hp' hmeets'
    have hat : ∀ {p c n x}, Enters b p c → Meets S c n x → t.region p = [] →
        s.home factors t p = none := fun he hm hp => hnowhere _ hp (hm.id ▸ hbegun.at_enters he)
    refine (hbegun.same_name_iff hS henters' hmeets' henters hmeets).2 ⟨hp'.trans hp.symm, ?_⟩
    rw [hat henters' hmeets' hp', hat henters hmeets hp]
  have hv : Recorded used v := (KeepsRecords.lasts.of_run hbegun hrun).kept hrecorded
  have hknown := Region.mem_of_find? ((hbegun.answered henters hmeets hrun).found hp)
  have hpending : ∀ {y}, y ∈ pendingNames v ↔ ∃ e ∈ v.memory.region.known, e.2 = y := by
    intro y
    rw [hv.pending, List.mem_reverse, List.mem_map]
  obtain ⟨result, hun, hbinds, honly⟩ := h.exists_binds hbegun
  obtain ⟨hcount, hbound⟩ := hbinds x (hpending.2 ⟨_, hknown, rfl⟩)
  refine ⟨x, result, hun, ⟨hlog (hv.logged _ hknown), hbound, hcount, ?_⟩, hsame⟩
  intro y q' hy hq' htop'
  obtain ⟨⟨⟨T, m⟩, _⟩, he, rfl⟩ := hpending.1 (honly y (hunused _ hy) q' hq' htop')
  -- the log has each name once, so it is known for the same sum, which has been met then
  obtain rfl : T = S :=
    congrArg Prod.snd (List.inj_on_of_nodup_map hnodup (hlog (hv.logged _ he)) hy rfl)
  rcases (Collects.lasts.of_run hbegun hrun).met _ he with hmem | ⟨p', d, henters', htop', hm, -⟩
  · rw [h.empty] at hmem
    cases hmem
  · exact hsame p' d m _ henters' (htop' t hbegun) hm

/-! ### Runs -/

section

variable {a : Arena} {options : Options} {root : NodeId} {ρ : List Nat} {outer : Region}

/-- In a run on a fresh memory the sum is met at the position, and the name answers for it. -/
def MetAt (a : Arena) (options : Options) (root S : NodeId) (p : List Nat) (x : String) : Prop :=
  ∃ c new passed w', Reached a options root p c ∧ c.id = S ∧ c.run = .ok (new, passed) w' ∧
    w'.arena.get new = .ok (.var x)

/-- What is reached in a run is so far from its beginning. -/
theorem Reached.exists_begun (h : Reached a options root p c) (hroot : a.Unfolds root t) :
    ∃ top u, t.at? p = some u ∧ Begun False a.factors t.names t top ∧ top.id = root ∧
      top.start.arena = a ∧ Enters top p c ∧ Begun False a.factors t.names u c ∧
      Recorded t.names c.start ∧ a.Extends c.start.arena ∧ a.at? root p = some c.id ∧
      ∀ S, S ∈ c.start.memory.bound ↔ a.IsLetValue root S ∧ a.IsSum S := by
  obtain ⟨w, hsurvey, henters⟩ := h
  obtain ⟨harena, hevents, hregion, hbegun⟩ :=
    begun_of_survey (.of_unfolds hroot) hsurvey
  obtain ⟨u, hu, hc⟩ := hbegun.enters henters
  have hages := hbegun.ages_enters henters
  have hrecorded : Recorded t.names w := by
    obtain ⟨known, hstate⟩ := hbegun.state
    refine ⟨?_, ?_, ?_, fun x hx => ?_, ?_⟩
    · rw [pendingNames, hregion]
      rfl
    · rw [hregion]
      simp [Region.empty]
    · rw [hevents]
      exact .nil
    · rw [hevents] at hx
      exact hstate.used_reserved x (by simpa [minted] using hx)
    · rw [hevents]
      simp [minted]
  refine ⟨_, u, hu, hbegun, rfl, harena, henters, hc, hbegun.recorded hrecorded henters,
    harena ▸ hages.arena, harena ▸ hbegun.at_enters henters, fun S => ?_⟩
  rw [hages.bound, mem_bound_of_survey hsurvey]
  simp [Memory.ofOptions]

theorem Reached.enters {top : Call} (h : Reached a options root [] top)
    (hc : Reached a options root p c) : Enters top p c := by
  obtain ⟨w, hsurvey, henters⟩ := h
  obtain ⟨w', hsurvey', henters'⟩ := hc
  cases hsurvey.symm.trans hsurvey'
  cases henters
  exact henters'

/-- The run is determined by the visits that are reached in it. -/
theorem Reached.run_unique {top : Call} (h : Reached a options root [] top)
    {visits : Nat → ScopedVisit} (hvisits : ∀ p c, Reached a options root p c →
      visits c.depth c.id c.scopes c.start = c.step visits) :
    visits top.depth top.id top.scopes top.start = top.run := by
  obtain ⟨w, hsurvey, henters⟩ := h
  cases henters
  exact Call.run_unique fun p c hc => hvisits p c ⟨w, hsurvey, hc⟩

/-- In a run that succeeds every region ends.  The end of the outermost is the end of the run. -/
theorem IsRegion.exists_ends (hroot : a.Unfolds root t) {out : NodeId} {w' : Workspace Memory}
    (hok : extract root ⟨a, [], .ofOptions options⟩ = .ok out w') {b : Call}
    (h : IsRegion a options root ρ b outer) :
    ∃ v u new, RegionEnds outer b v u new ∧ (ρ = [] → new = out ∧ u = w') := by
  obtain ⟨top, v, hreached, -, -, hends⟩ := exists_region_of_extract hok
  cases h with
  | whole reached =>
    cases hreached.enters reached
    exact ⟨v, w', out, hends, fun _ => ⟨rfl, rfl⟩⟩
  | @recipe p c b q reached node call =>
    have henters := hreached.enters reached
    obtain ⟨_, hu, hbegun⟩ := hreached.begun (.of_unfolds hroot)
    obtain ⟨_, -, hc⟩ := hbegun.enters henters
    obtain ⟨body, passed, hrun, -⟩ := hends.ends
    obtain ⟨r, w, hvisited, -⟩ := hbegun.run_enters henters hrun
    obtain ⟨v, u, new, hregion, -⟩ := hc.regionEnds node call hvisited
    exact ⟨v, u, new, hregion, fun hnil => absurd hnil (by simp)⟩

theorem IsRegion.reached {b : Call} (h : IsRegion a options root ρ b outer) :
    Reached a options root ρ b := by
  cases h with
  | whole reached => exact reached
  | recipe reached _ call => exact reached.makes call

/-- What has been logged in a run that succeeds: names that are each minted once for one sum, bound
once in the result, and not in use before.  What a visit has logged is there. -/
theorem logged_of_extract (hroot : a.Unfolds root t) {out : NodeId} {w' : Workspace Memory}
    (hok : extract root ⟨a, [], .ofOptions options⟩ = .ok out w') :
    ((extractions w'.events).map Prod.fst).Nodup ∧ (∀ e ∈ extractions w'.events, e.1 ∉ t.names) ∧
    (∃ result, w'.arena.Unfolds out result ∧
      ∀ e ∈ extractions w'.events, result.letNames.count e.1 = 1) ∧
    ∀ p c r v, Reached a options root p c → c.run = .ok r v →
      extractions v.events ⊆ extractions w'.events := by
  obtain ⟨top, v, hreached, -, hevents, hends⟩ := exists_region_of_extract hok
  obtain ⟨_, _, hu, -, -, -, -, hbegun, hrecorded, -⟩ := hreached.exists_begun hroot
  obtain rfl := Option.some.inj hu
  obtain ⟨body, passed, hrun, hplaced⟩ := hends.ends
  have hv : Recorded t.names v := (KeepsRecords.lasts.of_run hbegun hrun).kept hrecorded
  have hextracted : extractions w'.events = extractions v.events := (hends.grows hbegun).2.1
  have hmem : ∀ e ∈ extractions v.events, e.1 ∈ minted v.events := fun e he => by
    rw [minted_eq]
    exact List.mem_map_of_mem he
  obtain ⟨known, hstate⟩ := hbegun.state
  obtain ⟨f, floats, after, hf⟩ := hbegun.replaced
    (.empty hstate.factors_eq hends.empty hstate.used_reserved) hrun
  have harena : ({ v with memory := { v.memory with region := .empty } } : Workspace Memory).arena =
      v.arena := rfl
  obtain ⟨d, hd, -, hun, -⟩ := (gives_finish hf harena rfl).ensures _ _ hplaced
  have hminted : (minted v.events).Perm
      ((held Draft.bound Prod.fst [f] floats).map Reduction.name) := by
    simpa [hevents, minted] using hf.advances.minted
  rw [hextracted]
  refine ⟨minted_eq v.events ▸ hv.nodup, fun e he => hv.unused _ (hmem e he), ⟨_, hun, fun e he =>
    (hd.hygienic (fun _ hx => hx) hf.advances.nodup hminted).once _ (hmem e he)⟩, ?_⟩
  intro p c r u hc hvisited
  obtain ⟨_, _, hrun', hsub⟩ := hbegun.run_enters (hreached.enters hc) hrun
  cases hrun'.symm.trans hvisited
  exact hsub

theorem Reached.meets (hroot : a.Unfolds root t) (hsum : a.IsSum S)
    (hunbound : ¬ a.IsLetValue root S) (hc : Reached a options root p c) (hid : c.id = S)
    (hrun : c.run = .ok r w') :
    ∃ n x, Meets S c n x ∧ w'.arena.get r.1 = .ok (.var x) := by
  obtain ⟨_, _, -, -, -, -, -, hbegun, -, hext, -, hbound⟩ := hc.exists_begun hroot
  exact hbegun.meets (hsum.mono hext) (fun hmem => hunbound ((hbound S).1 hmem).1) hid hrun

theorem MetAt.exists_meets (hroot : a.Unfolds root t) (hsum : a.IsSum S)
    (hunbound : ¬ a.IsLetValue root S) (h : MetAt a options root S p x) :
    ∃ c n, Reached a options root p c ∧ Meets S c n x := by
  obtain ⟨c, new, passed, w', hc, hid, hrun, hnew⟩ := h
  obtain ⟨n, y, hm, hy⟩ := hc.meets hroot hsum hunbound hid hrun
  cases hnew.symm.trans hy
  exact ⟨c, n, hc, hm⟩

/-- Two visits of a sum that no let binds are answered by the same name just when they are made in
the same region, and the innermost loop, value or body of a let that binds what the sum reads is the
same around both, or there is none around either.  So where a sum reads nothing that is bound in a
region, one of its names is bound there, and once, as often as the sum occurs.  The visits that are
reached are all there are: whatever does in each of them what the rule does comes to the same as the
run. -/
theorem same_name_iff_extract (options : Options) (hroot : a.Unfolds root t) (hS : a.Unfolds S s)
    (hsum : a.IsSum S) (hunbound : ¬ a.IsLetValue root S) :
    (∀ p c r w', Reached a options root p c → c.id = S → c.run = .ok r w' →
      ∃ x, MetAt a options root S p x ∧ w'.arena.get r.1 = .ok (.var x)) ∧
    (∀ p q x y, MetAt a options root S p x → MetAt a options root S q y →
      (x = y ↔ t.region p = t.region q ∧ s.home a.factors t p = s.home a.factors t q)) ∧
    (∀ out w', (extract root).start a (.ofOptions options) = .ok out w' →
      ∀ ρ b outer u, IsRegion a options root ρ b outer → t.at? ρ = some u →
        (∃ q, u.region q = [] ∧ a.at? b.id q = some S) →
        (∀ q, u.region q = [] → a.at? b.id q = some S → s.home a.factors u q = none) →
        ∃ x v w₁ new body result, RegionEnds outer b v w₁ new ∧ (ρ = [] → new = out ∧ w₁ = w') ∧
          w₁.arena.Unfolds new body ∧ OneBinding (extractions w'.events) S x body ∧
          w'.arena.Unfolds out result ∧ result.letNames.count x = 1 ∧
          ∀ p y, MetAt a options root S (ρ ++ p) y → u.region p = [] → y = x) ∧
    ∀ visits : Nat → ScopedVisit,
      (∀ p c, Reached a options root p c →
        visits c.depth c.id c.scopes c.start = c.step visits) →
      ∀ top, Reached a options root [] top →
        visits top.depth top.id top.scopes top.start = top.run := by
  refine ⟨fun p c r w' hc hid hrun => ?_, fun p q x y hx hy => ?_,
    fun out w' hok ρ b outer u hregion hu hoccurs hnowhere => ?_, fun visits hvisits top htop => ?_⟩
  · obtain ⟨n, x, -, hget⟩ := hc.meets hroot hsum hunbound hid hrun
    exact ⟨x, ⟨c, r.1, r.2, w', hc, hid, hrun, hget⟩, hget⟩
  · obtain ⟨c, n, ⟨w, hsurvey, hc⟩, hcx⟩ := hx.exists_meets hroot hsum hunbound
    obtain ⟨d, m, ⟨w', hsurvey', hd⟩, hdy⟩ := hy.exists_meets hroot hsum hunbound
    cases hsurvey.symm.trans hsurvey'
    obtain ⟨rfl, -, -, hbegun⟩ := begun_of_survey (.of_unfolds hroot) hsurvey
    exact hbegun.same_name_iff hS hc hcx hd hdy
  · obtain ⟨hnodup, hunused, ⟨result, hresult, honce⟩, hlogged⟩ := logged_of_extract hroot hok
    obtain ⟨v, w₁, new, hends, houtermost⟩ := hregion.exists_ends hroot hok
    have hreached := hregion.reached
    obtain ⟨_, _, hu', -, -, -, -, hbegun, hrecorded, hext, hat, hbound⟩ :=
      hreached.exists_begun hroot
    obtain rfl := Option.some.inj (hu.symm.trans hu')
    obtain ⟨_, -, hb⟩ := hroot.at? hat
    have hat? : ∀ q, b.start.arena.at? b.id q = a.at? b.id q := fun q => hext.at?_eq hb
    obtain ⟨body, passed, hrun, -⟩ := hends.ends
    obtain ⟨x, tree, hun, hone, hsame⟩ := hends.oneBinding hbegun hrecorded
      (hlogged _ _ _ _ hreached hrun) hnodup hunused (hS.mono hext) (hsum.mono hext)
      (fun hmem => hunbound ((hbound S).1 hmem).1) (by simpa only [hat?] using hoccurs)
      (by simpa only [hat?] using hnowhere)
    refine ⟨x, v, w₁, new, tree, result, hends, houtermost, hun, hone, hresult,
      honce _ hone.logged, fun p y hy htop => ?_⟩
    obtain ⟨c, n, ⟨w, hsurvey, hc⟩, hcy⟩ := hy.exists_meets hroot hsum hunbound
    obtain ⟨d, hd, hdc⟩ := hc.of_append
    obtain ⟨w', hsurvey', hb'⟩ := hreached
    cases hsurvey.symm.trans hsurvey'
    cases hd.unique hb'
    exact hsame p c n y hdc htop hcy
  · exact htop.run_unique hvisits

theorem at?_repeated {q : List Nat} (h : repeated.at? ⟨2⟩ q = some ⟨1⟩) : q = [0] ∨ q = [1] := by
  -- below the sum stands the index only
  have hbelow : ∀ q, repeated.at? ⟨1⟩ q = some ⟨1⟩ → q = [] := by
    rintro (_ | ⟨_ | k, _ | ⟨l, q⟩⟩) h
    · rfl
    all_goals cases h
  rcases q with _ | ⟨_ | _ | k, q⟩
  · cases h
  · exact .inl (congrArg _ (hbelow q h))
  · exact .inr (congrArg _ (hbelow q h))
  · cases h

/-- The sum is met twice, and one name is bound to it. -/
theorem same_name_iff_extract_repeated :
    ∃ x, MetAt repeated .default ⟨2⟩ ⟨1⟩ [0] x ∧ MetAt repeated .default ⟨2⟩ ⟨1⟩ [1] x ∧
      ∃ out w' result, (extract ⟨2⟩).start repeated (.ofOptions .default) = .ok out w' ∧
        w'.arena.Unfolds out result ∧ OneBinding (extractions w'.events) ⟨1⟩ x result := by
  have hsum : repeated.Unfolds ⟨1⟩ (.node (.indexSum [⟨0⟩]) [.node (.index ⟨0⟩) []]) :=
    ⟨_, rfl, rfl, ⟨_, rfl, rfl, trivial⟩, trivial⟩
  have hroot := wellFormed_repeated.unfolds
  have hunbound : ¬ repeated.IsLetValue ⟨2⟩ ⟨1⟩ := fun h => by
    obtain ⟨node, hnode, hvalue⟩ := h.exists_mem
    fin_cases hnode <;> cases hvalue
  obtain ⟨hmet, hsame, hone, -⟩ :=
    same_name_iff_extract .default hroot hsum ⟨_, _, rfl⟩ hunbound
  obtain ⟨out, w', hok, -⟩ :=
    gives_extract (w := ⟨repeated, [], .ofOptions .default⟩) wellFormed_repeated rfl
  obtain ⟨b, v, hreached, harena, -, hends⟩ := exists_region_of_extract hok
  obtain ⟨body, passed, hrun, -⟩ := hends.ends
  obtain ⟨_, u, hu, -, -, -, -, hbegun, -, hext, hat, -⟩ := hreached.exists_begun hroot
  have hid : b.id = ⟨2⟩ := (Option.some.inj hat).symm
  -- both operands of the root are visited, as it is no sum
  have hmeets : ∀ k < 2, ∃ x, MetAt repeated .default ⟨2⟩ ⟨1⟩ [k] x := by
    intro k hk
    have hnode : b.start.arena.get b.id = .ok (.operator .sum [⟨1⟩, ⟨1⟩]) := by
      rw [hid, harena]
      rfl
    rcases hbegun.makes_or_known hrun hnode hk with ⟨c, call⟩ | ⟨-, ⟨_, _, hno⟩, -⟩
    · have hc := hreached.makes call
      obtain ⟨_, _, -, -, -, -, -, -, -, -, hat, -⟩ := hc.exists_begun hroot
      have hid : c.id = ⟨1⟩ := by
        obtain rfl | rfl : k = 0 ∨ k = 1 := by omega
        all_goals exact (Option.some.inj hat).symm
      obtain ⟨r, w, hvisited, -⟩ := hbegun.run_enters (.down call (.here c)) hrun
      obtain ⟨x, hx, -⟩ := hmet [k] c r w hc hid hvisited
      exact ⟨x, hx⟩
    · cases hnode.symm.trans hno
  obtain ⟨x, hx⟩ := hmeets 0 (by decide)
  obtain ⟨y, hy⟩ := hmeets 1 (by decide)
  obtain rfl := (hsame [0] [1] x y hx hy).2 (by decide)
  obtain ⟨z, _, w₁, new, tree, _, -, houtermost, hun, hbinding, -, -, hall⟩ :=
    hone out w' hok [] b .empty _ (.whole hreached) rfl ⟨[0], by decide, by rw [hid]; rfl⟩ (by
      intro q _ hat
      obtain rfl | rfl := at?_repeated (hid ▸ hat) <;> decide)
  obtain ⟨rfl, rfl⟩ := houtermost rfl
  obtain rfl := hall [0] x hx (by decide)
  exact ⟨x, hx, hy, _, _, tree, hok, hun, hbinding⟩

end

end Extraction

end TensorRecipe
