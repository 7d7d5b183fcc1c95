import TensorRecipe.Proofs.Extraction.Entered
import TensorRecipe.Proofs.Tree.Sums

/-!
# What a region learns

While a region is visited, names are taken and sums become known; what is known stays known under
the same name, and what is new has a name that was not taken (`Learns`).  A visit of a sum that no
let binds is answered by the name that is known for it then, in the scope that is its home
(`Meets`).
-/

namespace TensorRecipe

namespace Extraction

open Draft PassM

namespace Region

variable {r : Region} {key key' : NodeId × Nat} {x : String}

theorem mem_of_find? (h : r.find? key = some x) : (key, x) ∈ r.known := by
  unfold find? at h
  obtain ⟨e, he, rfl⟩ := Option.map_eq_some_iff.1 h
  have hkey : e.1 = key := by simpa using List.find?_some he
  exact hkey ▸ List.mem_of_find?_eq_some he

theorem exists_of_mem (h : (key, x) ∈ r.known) : ∃ y, r.find? key = some y := by
  have hsome : (r.known.find? (·.1 = key)).isSome := List.find?_isSome.2 ⟨_, h, by simp⟩
  obtain ⟨e, he⟩ := Option.isSome_iff_exists.1 hsome
  exact ⟨e.2, by rw [find?, he]; rfl⟩

theorem find?_add_self {t : Temporary} : (r.add key t).find? key = some t.name := by
  simp [find?, add]

theorem find?_add_of_ne {t : Temporary} (h : key' ≠ key) :
    (r.add key' t).find? key = r.find? key := by
  simp [find?, add, h]

end Region

/-- Time has passed: the arena has grown, names have been taken, and scopes have been opened. -/
structure Ages (w w' : Workspace Memory) : Prop where
  arena : w.arena.Extends w'.arena
  bound : w'.memory.bound = w.memory.bound
  reserved : ∀ x ∈ w.memory.namer.reserved, x ∈ w'.memory.namer.reserved
  lastScope : w.memory.lastScope ≤ w'.memory.lastScope

/-- The region knows more. -/
structure Learns (w w' : Workspace Memory) : Prop extends Ages w w' where
  found : ∀ key x, w.memory.region.find? key = some x → w'.memory.region.find? key = some x
  fresh : ∀ e ∈ w'.memory.region.known,
    e ∈ w.memory.region.known ∨ e.2 ∉ w.memory.namer.reserved

section

variable {w w' w'' v u : Workspace Memory}

theorem Ages.refl (w : Workspace Memory) : Ages w w := ⟨.refl _, rfl, fun _ hx => hx, le_rfl⟩

theorem Ages.trans (h : Ages w w') (h' : Ages w' w'') : Ages w w'' :=
  ⟨h.arena.trans h'.arena, h'.bound.trans h.bound, fun x hx => h'.reserved x (h.reserved x hx),
    h.lastScope.trans h'.lastScope⟩

theorem Ages.of_quiet (h : Quiet w w') : Ages w w' := by
  refine ⟨h.arena, ?_, ?_, h.lastScope⟩ <;> rw [h.memory]
  exact fun _ hx => hx

theorem Ages.of_mints {name : String} {key : NodeId × Nat} {value : NodeId}
    (h : Mints w w' name key value) : Ages w w' :=
  ⟨h.arena, h.bound, fun x hx => by rw [h.reserved]; exact List.mem_cons_of_mem _ hx,
    h.lastScope.ge⟩

theorem Learns.refl (w : Workspace Memory) : Learns w w :=
  ⟨.refl w, fun _ _ h => h, fun _ he => .inl he⟩

theorem Learns.trans (h : Learns w w') (h' : Learns w' w'') : Learns w w'' := by
  refine ⟨h.toAges.trans h'.toAges, fun key x hx => h'.found key x (h.found key x hx),
    fun e he => ?_⟩
  rcases h'.fresh e he with he | he
  · exact h.fresh e he
  · exact .inr fun hx => he (h.reserved _ hx)

theorem Learns.of_ages (h : Ages w w') (hregion : w'.memory.region = w.memory.region) :
    Learns w w' := by
  refine ⟨h, ?_, ?_⟩ <;> rw [hregion]
  · exact fun _ _ hx => hx
  · exact fun _ he => .inl he

theorem Learns.of_quiet (h : Quiet w w') : Learns w w' := .of_ages (.of_quiet h) (by rw [h.memory])

theorem Learns.mint (h : Learns w v) {name : String} {key : NodeId × Nat} {value : NodeId}
    (hm : Mints v u name key value) (hnone : w.memory.region.find? key = none) : Learns w u := by
  refine ⟨h.toAges.trans (.of_mints hm), fun key' x hx => ?_, fun e he => ?_⟩
  · have hne : key ≠ key' := by
      rintro rfl
      simp [hnone] at hx
    rw [hm.region, Region.find?_add_of_ne hne]
    exact h.found key' x hx
  · rw [hm.region] at he
    rcases List.mem_cons.1 he with rfl | he
    · exact .inr fun hx => hm.fresh (h.reserved _ hx)
    · exact h.fresh e he

end

variable {sure : Prop} {factors : Index → List Index} {used : List String} {t s : Tree}
  {a b c d : Call} {k n m : Nat} {p q : List Nat} {x y : String} {S : NodeId}
  {r : NodeId × List Scope} {w' : Workspace Memory}

theorem Learns.lasts : Lasts sure factors used fun _ => Learns where
  steady _ := ⟨refl, trans, of_quiet⟩
  down _ _ _ h := h
  mint _ _ hextracts h := h.mint hextracts.mints hextracts.unknown
  recipe _ _ hbegun hstart hends hquiet h := by
    obtain ⟨hext, -, hmemory⟩ := hends.grows hbegun
    refine Learns.trans (.of_ages ⟨?_, ?_, ?_, ?_⟩ (by rw [hmemory])) (.of_quiet hquiet)
    · simpa [hstart] using h.arena.trans hext
    · simpa [hstart, hmemory] using h.bound
    · simpa [hstart, hmemory] using h.reserved
    · simpa [hstart, hmemory] using h.lastScope

theorem Begun.ages (h : Begun sure factors used t a) (call : a.Makes k b) : Ages a.start b.start := by
  obtain ⟨shape, ts⟩ := t
  obtain ⟨node, hnode, -⟩ := h.formed.node
  obtain ⟨q, rfl⟩ | hrec := node.recipe_or
  · rw [(call.start_of_recipe hnode).2]
    exact ⟨.refl _, rfl, fun _ hx => hx, le_rfl⟩
  · exact (Learns.lasts.before h call hnode hrec).toAges

/-- Time passes until a visit further below begins. -/
theorem Begun.ages_enters (h : Begun sure factors used t a) (henters : Enters a p c) :
    Ages a.start c.start := by
  induction henters generalizing t with
  | here => exact .refl _
  | down call _ ih =>
    obtain ⟨shape, ts⟩ := t
    obtain ⟨u, -, hbegun, -⟩ := h.makes call
    exact (h.ages call).trans (ih hbegun)

/-! ### Meeting a sum -/

/-- The visit is of the sum `S`, whose home there has the serial `n`, and it is answered by the name
`x`; the name was known before, or it is new. -/
structure Meets (S : NodeId) (c : Call) (n : Nat) (x : String) : Prop where
  id : c.id = S
  serial : bindingSerial c.scopes S c.start.arena = .ok n
  answer : ∃ new passed w', c.run = .ok (new, passed) w' ∧ w'.arena.get new = .ok (.var x) ∧
    w'.memory.region.find? (S, n) = some x
  before : c.start.memory.region.find? (S, n) = some x ∨
    c.start.memory.region.find? (S, n) = none ∧ x ∉ c.start.memory.namer.reserved

/-- A visit of a sum that no let binds is answered by a name. -/
theorem Begun.meets (h : Begun sure factors used t c) (hsum : c.start.arena.IsSum S)
    (hunbound : S ∉ c.start.memory.bound) (hid : c.id = S) (hrun : c.run = .ok r w') :
    ∃ n x, Meets S c n x ∧ w'.arena.get r.1 = .ok (.var x) := by
  obtain ⟨new, passed⟩ := r
  obtain ⟨depth, node, hdepth, hnode, hran⟩ := h.ran hrun
  obtain ⟨_, id, scopes, w⟩ := c
  obtain rfl : _ = depth + 1 := hdepth
  obtain rfl : id = S := hid
  obtain ⟨indices, body, hsum⟩ := hsum
  obtain rfl := Except.ok.inj (hsum.symm.trans hnode)
  cases hran with
  | loop loop _ _ _ =>
    rcases loop with hloop | ⟨-, hbound⟩
    · cases hloop
    · exact absurd hbound hunbound
  | known _ serial found after answer =>
    refine ⟨_, _, ⟨rfl, serial, ⟨new, passed, w', hrun, answer, ?_⟩, .inl found⟩, answer⟩
    rwa [after.memory]
  | @extracted _ _ value _ v v' u _ n name opened visited after extracts =>
    have call : Call.Makes ⟨depth + 1, id, scopes, w⟩ 0 ⟨depth, body, _, v⟩ :=
      .intro hnode (.sum (.inr ⟨n, extracts.serial, extracts.unknown⟩) opened)
    obtain ⟨shape, ts⟩ := t
    obtain ⟨_, -, hbegun, -⟩ := h.makes call
    have hages := ((h.ages call).trans (Learns.lasts.of_run hbegun visited).toAges).trans
      (.of_quiet after)
    refine ⟨_, _, ⟨rfl, extracts.serial, ⟨new, passed, w', hrun, extracts.answer, ?_⟩,
      .inr ⟨extracts.unknown, fun hx => extracts.mints.fresh (hages.reserved _ hx)⟩⟩,
      extracts.answer⟩
    rw [extracts.mints.region, Region.find?_add_self]
  | part rebuilt _ _ => exact rebuilt.elim

/-- A sum is not met in itself. -/
theorem Begun.ne_of_enters (h : Begun sure factors used t a) (henters : Enters a (k :: p) c)
    (hid : c.id = S) : a.id ≠ S := by
  rintro rfl
  obtain ⟨u, hu, hbegun⟩ := h.enters henters
  have hsame := hbegun.formed.unfolds.unique
    (hid ▸ h.formed.unfolds.mono (h.ages_enters henters).arena)
  have := Tree.height_lt_of_at? hu
  rw [hsame] at this
  omega

/-- The home of a tree on a visit is the serial of one of the scopes around the visit `a` if no scope
since captures the tree, and else it is that of a newer one. -/
theorem Begun.home_cases (h : Begun sure factors used t a) (henters : Enters a p c)
    (hhome : IsHome factors s c.scopes n) :
    s.home factors t p = none ∧ IsHome factors s a.scopes n ∨
      s.home factors t p ≠ none ∧ a.start.memory.lastScope < n := by
  induction henters generalizing t with
  | here => exact .inl ⟨by simp [Tree.home], hhome⟩
  | @down a b c k p call _ ih =>
    obtain ⟨shape, ts⟩ := t
    obtain ⟨u, hu, hbegun, hopened⟩ := h.makes call
    rw [Tree.home_cons hu, ne_eq, Shape.homeBelow_eq_none]
    rcases ih hbegun hhome with ⟨hnone, hhome⟩ | ⟨hsome, hlt⟩
    · generalize hb : b.scopes = scopes at hopened hhome
      cases hopened with
      | same free => exact .inl ⟨⟨hnone, free s⟩, hhome⟩
      | @scope o later binder =>
        rcases hhome.cases_cons with ⟨hcaptures, rfl⟩ | ⟨hfree, hhome⟩
        · exact .inr ⟨fun hno => hno.2 ((binder s).1 hcaptures), later⟩
        · exact .inl ⟨⟨hnone, fun hcaptures => hfree ((binder s).2 hcaptures)⟩, hhome⟩
    · exact .inr ⟨fun hno => hsome hno.1, (h.ages call).lastScope.trans_lt hlt⟩

/-- A name that answers a visit in a region is known when a visit around it begins, or it is new. -/
theorem Begun.before_meets (h : Begun sure factors used t a) (henters : Enters a p c)
    (hmeets : Meets S c n x) (htop : t.region p = []) :
    a.start.memory.region.find? (S, n) = some x ∨
      a.start.memory.region.find? (S, n) = none ∧ x ∉ a.start.memory.namer.reserved := by
  have hlearns := Learns.lasts.until_begin h henters htop
  cases hfind : a.start.memory.region.find? (S, n) with
  | some z =>
    have hfound := hlearns.found _ _ hfind
    rcases hmeets.before with hbefore | ⟨hnone, -⟩
    · exact .inl (hfound.symm.trans hbefore)
    · simp [hfound] at hnone
  | none =>
    refine .inr ⟨rfl, fun hx => ?_⟩
    rcases hmeets.before with hbefore | ⟨-, hfresh⟩
    · rcases hlearns.fresh _ (Region.mem_of_find? hbefore) with hmem | hfresh
      · obtain ⟨y, hy⟩ := Region.exists_of_mem hmem
        simp [hfind] at hy
      · exact hfresh hx
    · exact hfresh (hlearns.reserved _ hx)

theorem Begun.fresh_of_inner (h : Begun sure factors used t a) (henters : Enters a p c)
    (hmeets : Meets S c n x) (hinner : t.region p ≠ []) : x ∉ a.start.memory.namer.reserved := by
  induction henters generalizing t with
  | here => exact absurd rfl hinner
  | @down a b c k p call henters ih =>
    obtain ⟨shape, ts⟩ := t
    obtain ⟨u, hu, hbegun, -⟩ := h.makes call
    obtain ⟨node, hnode, rfl, -⟩ := h.formed.node
    have hold : x ∉ b.start.memory.namer.reserved → x ∉ a.start.memory.namer.reserved :=
      fun hx hmem => hx ((h.ages call).reserved _ hmem)
    by_cases htop : u.region p = []
    · -- the node is a recipe, in whose body nothing was known
      obtain ⟨q, rfl⟩ := node.recipe_or.resolve_right fun hrec =>
        hinner ((Tree.region_cons_eq_nil hrec hu).2 htop)
      refine hold ((hbegun.before_meets henters hmeets htop).resolve_left fun hfind => ?_).2
      rw [(call.start_of_recipe hnode).2] at hfind
      cases hfind
    · exact hold (ih hbegun hmeets htop)

section

variable {known : List (Reduction × Draft)} {w : Workspace Memory}

theorem State.mem_reserved (h : State factors used known w) {e : (NodeId × Nat) × String}
    (he : e ∈ w.memory.region.known) : e.2 ∈ w.memory.namer.reserved := by
  obtain ⟨b, hb, hname, -⟩ := h.memo e he
  exact hname ▸ h.reserved b hb

theorem State.eq_of_name (h : State factors used known w) {e e' : (NodeId × Nat) × String}
    (he : e ∈ w.memory.region.known) (he' : e' ∈ w.memory.region.known) (hname : e.2 = e'.2) :
    e.1.2 = e'.1.2 := by
  obtain ⟨b, hb, hb₁, hb₂, -⟩ := h.memo e he
  obtain ⟨b', hb', hb₁', hb₂', -⟩ := h.memo e' he'
  obtain rfl : b = b' := by
    refine List.inj_on_of_nodup_map h.nodup hb hb' ?_
    rw [hb₁, hb₁', hname]
  exact hb₂.symm.trans hb₂'

theorem State.home_le (h : State factors used known w) {e : (NodeId × Nat) × String}
    (he : e ∈ w.memory.region.known) : e.1.2 ≤ w.memory.lastScope := by
  obtain ⟨b, hb, -, hhome, -⟩ := h.memo e he
  exact hhome ▸ h.homes b hb

end

/-- A name has answered a visit: it is known in the region if it was met there, and is not if it was
met in an inner one. -/
structure Answered (S : NodeId) (n : Nat) (x : String) (here : Prop) (w : Workspace Memory) : Prop
    where
  reserved : x ∈ w.memory.namer.reserved
  found : here → w.memory.region.find? (S, n) = some x
  unknown : ¬ here → ∀ e ∈ w.memory.region.known, e.2 ≠ x

section

variable {here : Prop} {w v : Workspace Memory}

theorem Answered.learns (h : Answered S n x here w) (hl : Learns w v) : Answered S n x here v := by
  refine ⟨hl.reserved _ h.reserved, fun ht => hl.found _ _ (h.found ht), fun hi e he => ?_⟩
  rcases hl.fresh e he with he | he
  · exact h.unknown hi e he
  · exact fun hx => he (hx ▸ h.reserved)

theorem Answered.mint (h : Answered S n x here w) {name : String} {key : NodeId × Nat}
    {value : NodeId} (hm : Mints w v name key value) (hne : key.1 ≠ S) : Answered S n x here v := by
  refine ⟨(Ages.of_mints hm).reserved _ h.reserved, fun ht => ?_, fun hi e he => ?_⟩
  · rw [hm.region, Region.find?_add_of_ne fun heq => hne (congrArg Prod.fst heq)]
    exact h.found ht
  · rw [hm.region] at he
    rcases List.mem_cons.1 he with rfl | he
    · exact fun (hx : name = x) => hm.fresh (hx ▸ h.reserved)
    · exact h.unknown hi e he

end

/-- At the end of a visit the names that have answered visits below are known as they should. -/
theorem Begun.answered (h : Begun sure factors used t a) (henters : Enters a p c)
    (hmeets : Meets S c n x) (hrun : a.run = .ok r w') : Answered S n x (t.region p = []) w' := by
  induction henters generalizing t r w' with
  | @here c =>
    obtain ⟨new, passed, w, hrun', -, hfound⟩ := hmeets.answer
    obtain ⟨rfl, rfl⟩ : _ = _ ∧ _ = _ := by simpa [hrun] using hrun'
    obtain ⟨known, hstate⟩ := h.state
    obtain ⟨f, floats, after, hf⟩ := h.replaced hstate hrun
    exact ⟨hf.state.mem_reserved (Region.mem_of_find? hfound), fun _ => hfound,
      fun hinner => absurd rfl hinner⟩
  | @down a b c k p call henters ih =>
    have hne := h.ne_of_enters (.down call henters) hmeets.id
    have hinner := h.fresh_of_inner (.down call henters) hmeets
    obtain ⟨known, hstate⟩ := h.state
    obtain ⟨shape, ts⟩ := t
    obtain ⟨u, hu, hbegun, -⟩ := h.makes call
    obtain ⟨node, hnode, rfl, -⟩ := h.formed.node
    obtain ⟨q, rfl⟩ | hrec := node.recipe_or
    · obtain ⟨rfl, -⟩ := call.start_of_recipe hnode
      obtain ⟨v, v', new, hends, hquiet⟩ := h.regionEnds hnode call hrun
      obtain ⟨body, passed, hvisited, -⟩ := hends.ends
      have hregion : (Tree.node (Node.recipe q).shape ts).region (0 :: p) ≠ [] := by
        rw [Tree.region_cons hu, ne_eq, Shape.regionBelow_eq_nil]
        exact fun hno => hno.2 _ _ rfl
      refine Answered.learns ⟨?_, fun ht => absurd ht hregion, fun _ e he hx => ?_⟩
        (.of_quiet hquiet)
      · rw [(hends.grows hbegun).2.2]
        exact (ih hbegun hmeets hvisited).reserved
      · rw [(hends.grows hbegun).2.2] at he
        exact hinner hregion (hx ▸ hstate.mem_reserved he)
    · rw [Tree.region_cons_eq_nil hrec hu]
      obtain ⟨r', v, hvisited, hafter⟩ := Learns.lasts.after h call hnode hrec hrun
      have hanswered := ih hbegun hmeets hvisited
      rcases hafter with hl | ⟨m, v', name, value, hl, hextracts⟩
      · exact hanswered.learns hl
      · exact (hanswered.learns hl).mint hextracts.mints hne

/-! ### Meeting a sum twice -/

theorem Begun.isHome (h : Begun sure factors used t c) (hS : c.start.arena.Unfolds S s)
    (hmeets : Meets S c n x) : IsHome factors s c.scopes n := by
  obtain ⟨known, hstate⟩ := h.state
  have hhome := isHome_of_bindingSerial hS hmeets.serial
  rwa [hstate.factors_eq] at hhome

theorem Begun.home_meets (h : Begun sure factors used t a) (hS : a.start.arena.Unfolds S s)
    (henters : Enters a p c) (hmeets : Meets S c n x) :
    s.home factors t p = none ∧ IsHome factors s a.scopes n ∨
      s.home factors t p ≠ none ∧ a.start.memory.lastScope < n := by
  obtain ⟨u, -, hbegun⟩ := h.enters henters
  exact h.home_cases henters (hbegun.isHome (hS.mono (h.ages_enters henters).arena) hmeets)

/-- A home whose serial was in use before the visit of a child is neither at that child nor below. -/
theorem Begun.home_eq_none {node : Node} {ts : List Tree} {u : Workspace Memory}
    (h : Begun sure factors used (.node node.shape ts) a) (hS : a.start.arena.Unfolds S s)
    (call : a.Makes k b) (hquiet : Quiet u b.start) (hscope : node.IsRebuilt ∨
      ∃ o : Scope, b.scopes = o :: a.scopes ∧ u.memory.lastScope < o.serial)
    (henters : Enters b p c) (hmeets : Meets S c n x) (hle : n ≤ u.memory.lastScope) :
    s.home factors (.node node.shape ts) (k :: p) = none := by
  obtain ⟨tb, htb, hb, hopened⟩ := h.makes call
  rw [Tree.home_cons htb, Shape.homeBelow_eq_none]
  rcases hb.home_meets (hS.mono (h.ages call).arena) henters hmeets with
    ⟨hnone, hhome⟩ | ⟨-, hlt⟩
  · refine ⟨hnone, fun hcaptures => ?_⟩
    rcases hscope with hrebuilt | ⟨o, ho, hlt⟩
    · rw [hrebuilt.binder_eq] at hcaptures
      exact Binder.not_captures_empty hcaptures
    · rw [ho] at hhome
      generalize hscopes : b.scopes = scopes at hopened
      cases hopened with
      | same free => exact free s hcaptures
      | scope later binder =>
        obtain ⟨rfl, -⟩ := List.cons.inj (ho.symm.trans hscopes)
        rcases hhome.cases_cons with ⟨-, rfl⟩ | ⟨hfree, -⟩
        · omega
        · exact hfree ((binder s).2 hcaptures)
  · have := hquiet.lastScope
    omega

/-- Two visits of a sum below different children of a node are answered by the same name just when
they are in the region of the node, and the sum has its home outside of both children. -/
theorem Begun.same_name_of_lt (h : Begun sure factors used t a) (hS : a.start.arena.Unfolds S s)
    {j : Nat} (hkj : k < j) (hp : Enters a (k :: p) c) (hx : Meets S c n x)
    (hq : Enters a (j :: q) d) (hy : Meets S d m y) :
    x = y ↔ t.region (k :: p) = t.region (j :: q) ∧
      s.home factors t (k :: p) = s.home factors t (j :: q) := by
  have hhome := h.home_meets hS hp hx
  have hhome' := h.home_meets hS hq hy
  have hnumbered := h.numbered
  obtain ⟨shape, ts⟩ := t
  obtain ⟨node, hnode, rfl, -⟩ := h.formed.node
  cases hp with
  | @down _ b _ _ _ call hp =>
    cases hq with
    | @down _ b' _ _ _ call' hq =>
      obtain ⟨u, hu, hb, -⟩ := h.makes call
      obtain ⟨u', hu', hb', -⟩ := h.makes call'
      obtain ⟨r, v, w, hrun, hlearns, hquiet, hscope⟩ :=
        Learns.lasts.between h hkj call call' hnode
      have hrec : ∀ q, node ≠ .recipe q := by
        rintro q rfl
        have := (call'.start_of_recipe hnode).1
        omega
      rw [Tree.region_eq_of_ne hu hu' hkj.ne, Tree.home_eq_of_ne hu hu' hkj.ne,
        Tree.region_cons_eq_nil hrec hu, Tree.region_cons_eq_nil hrec hu']
      have hanswered := hb.answered hp hx hrun
      have hlater := (hanswered.learns hlearns).learns (.of_quiet hquiet)
      constructor
      · rintro rfl
        have htop' : u'.region q = [] := by
          by_contra hinner
          exact hb'.fresh_of_inner hq hy hinner hlater.reserved
        have hfound : b'.start.memory.region.find? (S, m) = some x :=
          (hb'.before_meets hq hy htop').resolve_right fun hno => hno.2 hlater.reserved
        have htop : u.region p = [] := by
          by_contra hinner
          exact hlater.unknown hinner _ (Region.mem_of_find? hfound) rfl
        obtain rfl : n = m := by
          obtain ⟨known, hstate⟩ := hb'.state
          exact hstate.eq_of_name (Region.mem_of_find? (hlater.found htop))
            (Region.mem_of_find? hfound) rfl
        have hle : n ≤ v.memory.lastScope := by
          obtain ⟨known, hstate⟩ := hb.state
          obtain ⟨f, floats, after, hf⟩ := hb.replaced hstate hrun
          exact hf.state.home_le (Region.mem_of_find? (hanswered.found htop))
        -- the name was known before the later visit, so its home is around both
        have hnone' := h.home_eq_none hS call' hquiet hscope hq hy (hle.trans hlearns.lastScope)
        have hout := (hhome'.resolve_right fun hno => hno.1 hnone').2
        have hnone := (hhome.resolve_right fun hno => hno.2.not_ge (hout.le hnumbered)).1
        exact ⟨⟨htop, htop'⟩, hnone, hnone'⟩
      · rintro ⟨⟨htop, htop'⟩, hnone, hnone'⟩
        obtain rfl : n = m :=
          (hhome.resolve_right fun hno => hno.1 hnone).2.unique
            (hhome'.resolve_right fun hno => hno.1 hnone').2
        have hfound := hlater.found htop
        rcases hb'.before_meets hq hy htop' with hbefore | ⟨hno, -⟩
        · exact Option.some.inj (hfound.symm.trans hbefore)
        · simp [hfound] at hno

/-- Two visits of a sum are answered by the same name just when they are in the same region, and the
sum has the same home there. -/
theorem Begun.same_name_iff (h : Begun sure factors used t a) (hS : a.start.arena.Unfolds S s)
    (hp : Enters a p c) (hx : Meets S c n x) (hq : Enters a q d) (hy : Meets S d m y) :
    x = y ↔ t.region p = t.region q ∧ s.home factors t p = s.home factors t q := by
  induction hp generalizing t q d m y with
  | here c =>
    cases hq with
    | here =>
      obtain ⟨new, passed, w, hrun, hget, -⟩ := hx.answer
      obtain ⟨new', passed', w', hrun', hget', -⟩ := hy.answer
      cases hrun.symm.trans hrun'
      cases hget.symm.trans hget'
      simp
    | down call hq => exact absurd hx.id (h.ne_of_enters (.down call hq) hy.id)
  | @down a b c k p call hp ih =>
    cases hq with
    | here => exact absurd hy.id (h.ne_of_enters (.down call hp) hx.id)
    | @down _ b' _ j q call' hq =>
      rcases lt_trichotomy k j with hlt | rfl | hlt
      · exact h.same_name_of_lt hS hlt (.down call hp) hx (.down call' hq) hy
      · obtain rfl := call.unique call'
        obtain ⟨shape, ts⟩ := t
        obtain ⟨u, hu, hb, -⟩ := h.makes call
        rw [Tree.region_inj hu, Tree.home_inj hu]
        exact ih hb (hS.mono (h.ages call).arena) hx hq hy
      · rw [eq_comm, h.same_name_of_lt hS hlt (.down call' hq) hy (.down call hp) hx]
        exact and_congr eq_comm eq_comm

end Extraction

end TensorRecipe
