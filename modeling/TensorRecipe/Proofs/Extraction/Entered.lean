import TensorRecipe.Proofs.Extraction.Lasting
import TensorRecipe.Proofs.Tree.Homes

/-!
# The visits of a run

When a visit begins the pass knows reductions of its region, the scopes around it are numbered, and
the handle has an unfolding (`Begun`).  So it is with every visit that is made below
(`Begun.makes`), hence with every visit of a run on a fresh memory (`Reached.begun`).  What lasts from
visit to visit lasts over whole visits (`Lasts`).
-/

namespace TensorRecipe

theorem Node.IsRebuilt.binder_eq {node : Node} (h : node.IsRebuilt) (factors : Index → List Index)
    (k : Nat) : node.shape.binder factors k = .empty := by
  cases node <;> first | exact h.elim | exact Extraction.binder_eq rfl k

namespace Extraction

open Draft PassM

/-- What a visit begins with.  All indices of its tree resolve if `sure` holds. -/
structure Begun (sure : Prop) (factors : Index → List Index) (used : List String) (t : Tree)
    (c : Call) : Prop where
  state : ∃ known, State factors used known c.start
  numbered : Numbered c.scopes c.start.memory.lastScope
  formed : c.start.arena.FormedIf sure c.id t
  deep : t.height ≤ c.depth
  names : ∀ y ∈ t.names, y ∈ used

/-- The scopes around a child: one more than around the node where the node binds something there. -/
inductive Opened (factors : Index → List Index) (β : Binder) (last : Nat) (outer : List Scope) :
    List Scope → Prop where
  | same (free : ∀ t, ¬ β.Captures factors t) : Opened factors β last outer outer
  | scope {s : Scope} (later : last < s.serial)
    (binder : ∀ t, s.binder.Captures factors t ↔ β.Captures factors t) :
    Opened factors β last outer (s :: outer)

variable {sure : Prop} {factors : Index → List Index} {used : List String} {t : Tree}
  {scopes inner : List Scope} {w v : Workspace Memory}

theorem Begun.of_openScope {id : NodeId} {depth : Nat} {indices : List Index} {names : List String}
    (hstate : ∃ known, State factors used known w) (hscopes : Numbered scopes w.memory.lastScope)
    (hid : w.arena.FormedIf sure id t) (hdepth : t.height ≤ depth) (hnames : ∀ y ∈ t.names, y ∈ used)
    (h : openScope indices names scopes w = .ok inner v) :
    Begun sure factors used t ⟨depth, id, inner, v⟩ ∧ ∃ s : Scope, inner = s :: scopes ∧
      w.memory.lastScope < s.serial ∧ s.binder = ⟨indices ++ indices.flatMap factors, names⟩ := by
  obtain ⟨known, hknown⟩ := hstate
  obtain ⟨hquiet, s, rfl, hserial, hlast, hbinder⟩ := ensures_openScope_quiet _ _ h
  rw [hknown.factors_eq] at hbinder
  have hgrow : Advances w v [] := .of_grows hquiet.arena (by rw [hquiet.events])
    (by rw [hquiet.memory]; exact fun _ hx => hx) hquiet.lastScope
  refine ⟨⟨⟨known, hknown.mono hgrow (by rw [hquiet.memory])⟩, ?_, hid.mono hquiet.arena, hdepth,
    hnames⟩, s, rfl, by omega, hbinder⟩
  rw [hlast, hserial]
  exact hscopes.cons hserial

/-- What the visit of a value of a let begins with, or that of its body, and the scopes around it. -/
theorem Begun.of_let {ts : List Tree} {known : List (Reduction × Draft)} {depth k : Nat}
    {bindings done : List Binding} {body c : NodeId} {names : List String} {u₀ : Workspace Memory}
    (hvisits : ∀ u ∈ ts, Redrafts sure factors used (rule.transformWithin depth) u)
    (hstate : State factors used known w) (hscopes : Numbered scopes w.memory.lastScope)
    (hids : List.Forall₂ (w.arena.FormedIf sure) (Node.letIn bindings body).children ts)
    (hheight : ∀ u ∈ ts, u.height ≤ depth) (hused : ∀ u ∈ ts, ∀ y ∈ u.names, y ∈ used)
    (child : (Node.letIn bindings body).children[k]? = some c)
    (before : visitValues (rule.transformWithin depth) scopes (bindings.take k) [] w =
      .ok (done, names) u₀)
    (opened : openScope [] names scopes u₀ = .ok inner v) :
    ∃ u, ts[k]? = some u ∧ Begun sure factors used u ⟨depth, c, inner, v⟩ ∧
      Opened factors ((Shape.letIn (bindings.map Binding.name)).binder factors k)
        w.memory.lastScope scopes inner := by
  obtain ⟨u, hu, hchild⟩ := Arena.exists_of_getElem?_left hids child
  have hmem := List.mem_of_getElem? hu
  have hvalues : List.Forall₂ (w.arena.FormedIf sure) ((bindings.take k).map Binding.value)
      (ts.take k) := by
    have hle : k ≤ bindings.length := by
      rcases children_letIn_cases child with ⟨b, hb, -⟩ | ⟨hk, -⟩
      · exact (List.getElem?_eq_some_iff.1 hb).1.le
      · exact hk.le
    have htake : (bindings.take k).map Binding.value =
        (Node.letIn bindings body).children.take k := by
      rw [List.map_take, Node.children, List.take_append_of_le_length (by simpa using hle)]
    rw [htake]
    exact List.forall₂_take k hids
  obtain ⟨-, hnames, fs, floats, after, hfs, -⟩ := (givesIf_visitValues
    (fun u hu => hvisits u (List.mem_of_mem_take hu)) hstate hscopes hvalues).ensures _ _ before
  obtain ⟨hbegun, s, rfl, hlater, hbinder⟩ := Begun.of_openScope ⟨after, hfs.state⟩
    (hscopes.mono hfs.advances.lastScope) (hchild.mono hfs.advances.arena) (hheight u hmem)
    (hused u hmem) opened
  refine ⟨u, hu, hbegun, .scope (hfs.advances.lastScope.trans_lt hlater) fun t => ?_⟩
  rw [hbinder]
  refine captures_names_congr fun x => ?_
  dsimp only at hnames
  rw [hnames, Shape.given, List.map_take]
  simp

/-- What a visit right below begins with, and the scopes around it. -/
theorem Begun.makes {shape : Shape} {ts : List Tree} {a b : Call} {k : Nat}
    (h : Begun sure factors used (.node shape ts) a) (call : a.Makes k b) :
    ∃ u, ts[k]? = some u ∧ Begun sure factors used u b ∧
      Opened factors (shape.binder factors k) a.start.memory.lastScope a.scopes b.scopes := by
  obtain ⟨⟨known, hstate⟩, hscopes, hid, hdepth, hnames⟩ := h
  cases call with
  | @intro depth k id child scopes inner w v node get call =>
    dsimp only at *
    obtain ⟨node', hnode, rfl, hids⟩ := hid.node
    obtain rfl := Except.ok.inj (hnode.symm.trans get)
    have hheight : ∀ u ∈ ts, u.height ≤ depth := fun u hu =>
      Nat.le_of_lt_succ ((Tree.height_lt_of_mem hu).trans_le hdepth)
    have hused : ∀ u ∈ ts, ∀ y ∈ u.names, y ∈ used := fun u hu y hy => hnames y <| by
      rw [Tree.names, List.mem_append, Tree.mem_namesAll]
      exact .inr ⟨u, hu, hy⟩
    have hvisits : ∀ u ∈ ts, Redrafts sure factors used (rule.transformWithin depth) u :=
      fun u hu => redrafts_transformWithin u (hheight u hu) (hused u hu)
    cases call with
    | loop opened | sum _ opened =>
      obtain _ | ⟨hbody, _ | _⟩ := hids
      obtain ⟨hbegun, s, rfl, hlater, hbinder⟩ := Begun.of_openScope ⟨known, hstate⟩ hscopes hbody
        (hheight _ (by simp)) (hused _ (by simp)) opened
      exact ⟨_, rfl, hbegun, .scope hlater fun t => by rw [hbinder, Node.shape, binder_eq rfl]; rfl⟩
    | letIn child before opened =>
      exact Begun.of_let hvisits hstate hscopes hids hheight hused child before opened
    | recipe emptied =>
      obtain _ | ⟨hbody, _ | _⟩ := hids
      obtain ⟨-, rfl⟩ := gives_exchangeRegion.ensures _ _ emptied
      refine ⟨_, rfl, ⟨⟨[], .empty hstate.factors_eq rfl hstate.used_reserved⟩, hscopes, hbody,
        hheight _ (by simp), hused _ (by simp)⟩, .same fun t => ?_⟩
      rw [Node.shape, binder_eq rfl]
      exact Binder.not_captures_empty
    | part rebuilt child before =>
      obtain ⟨u, hu, hchild⟩ := Arena.exists_of_getElem?_left hids child
      have hmem := List.mem_of_getElem? hu
      obtain ⟨rfl, fs, floats, after, hfs⟩ := (givesIf_all
        (fun u hu => hvisits u (List.mem_of_mem_take hu)) hstate hscopes
        (List.forall₂_take k hids)).ensures _ _ before
      refine ⟨u, hu, ⟨⟨after, hfs.state⟩, hscopes.mono hfs.advances.lastScope,
        hchild.mono hfs.advances.arena, hheight u hmem, hused u hmem⟩, .same fun t => ?_⟩
      rw [rebuilt.binder_eq]
      exact Binder.not_captures_empty

theorem Begun.ran {a : Call} (h : Begun sure factors used t a) {r : NodeId × List Scope}
    {w' : Workspace Memory} (hrun : a.run = .ok r w') : ∃ depth node,
      a.depth = depth + 1 ∧ a.start.arena.get a.id = .ok node ∧
        Ran (rule.transformWithin depth) a.id a.scopes a.start w' r.1 node := by
  obtain ⟨depth, id, scopes, w⟩ := a
  obtain ⟨depth, rfl⟩ : ∃ d, depth = d + 1 := by
    have hpos := t.height_pos
    have hdeep : t.height ≤ depth := h.deep
    exact Nat.exists_eq_succ_of_ne_zero (by omega)
  obtain ⟨node, v, hget, hrun⟩ := ok_of_bind_eq_ok hrun
  obtain ⟨hnode, rfl⟩ := of_ask_eq_ok hget
  exact ⟨depth, node, rfl, hnode, ran_of_rule hrun⟩

/-- A region ends: its tree has been visited by `b`, and what is pending is placed. -/
structure RegionEnds (outer : Region) (b : Call) (v u : Workspace Memory) (new : NodeId) : Prop where
  empty : b.start.memory.region = .empty
  ends : ∃ body passed, b.run = .ok (body, passed) v ∧
    bindTemporaries v.memory.region.pending body
      { v with memory := { v.memory with region := outer } } = .ok new u

theorem Begun.regionEnds {a b : Call} (h : Begun sure factors used t a) {q : Recipe}
    (hnode : a.start.arena.get a.id = .ok (.recipe q)) (call : a.Makes 0 b)
    {r : NodeId × List Scope} {w' : Workspace Memory} (hrun : a.run = .ok r w') :
    ∃ v u new, RegionEnds a.start.memory.region b v u new ∧ Quiet u w' := by
  obtain ⟨depth, node, hdepth, hget, hran⟩ := h.ran hrun
  obtain rfl := Except.ok.inj (hget.symm.trans hnode)
  obtain ⟨_, id, scopes, w⟩ := a
  obtain rfl : _ = depth + 1 := hdepth
  cases hran with
  | recipe emptied visited placed after =>
    obtain rfl := call.unique (.intro hnode (.recipe emptied))
    obtain ⟨-, rfl⟩ := gives_exchangeRegion.ensures _ _ emptied
    exact ⟨_, _, _, ⟨rfl, _, _, visited, placed⟩, after⟩
  | loop loop _ _ _ => simp at loop
  | part rebuilt _ _ => exact rebuilt.elim

theorem Begun.replaced {c : Call} (h : Begun sure factors used t c)
    {known : List (Reduction × Draft)} (hstate : State factors used known c.start) {new : NodeId}
    {passed : List Scope} {w' : Workspace Memory} (hrun : c.run = .ok (new, passed) w') :
    ∃ f floats after,
      Replaced factors used c.scopes known [t] c.start [new] w' [f] floats after :=
  ((redrafts_transformWithin t h.deep h.names hstate h.numbered h.formed).ensures _ _ hrun).2

theorem Begun.exists_run {c : Call} (h : Begun sure factors used t c) (hsure : sure) :
    ∃ r w', c.run = .ok r w' := by
  obtain ⟨known, hstate⟩ := h.state
  exact (redrafts_transformWithin t h.deep h.names hstate h.numbered h.formed).succeeds hsure

theorem Begun.enters {a c : Call} {p : List Nat} (h : Begun sure factors used t a)
    (henters : Enters a p c) : ∃ u, t.at? p = some u ∧ Begun sure factors used u c := by
  induction henters generalizing t with
  | here => exact ⟨t, rfl, h⟩
  | down call _ ih =>
    obtain ⟨shape, ts⟩ := t
    obtain ⟨u, hu, hbegun, -⟩ := h.makes call
    obtain ⟨v, hv, hbegun⟩ := ih hbegun
    exact ⟨v, Tree.at?_cons_eq_some.2 ⟨u, hu, hv⟩, hbegun⟩

/-- At the end of a region the region before it is put back. -/
theorem RegionEnds.grows {b : Call} {outer : Region} {u : Workspace Memory} {new : NodeId}
    (h : RegionEnds outer b v u new) (hbegun : Begun sure factors used t b) :
    v.arena.Extends u.arena ∧ extractions u.events = extractions v.events ∧
      u.memory = { v.memory with region := outer } := by
  obtain ⟨body, passed, hrun, hplaced⟩ := h.ends
  obtain ⟨known, hstate⟩ := hbegun.state
  obtain ⟨f, floats, after, hf⟩ := hbegun.replaced
    (.empty hstate.factors_eq h.empty hstate.used_reserved) hrun
  have harena : ({ v with memory := { v.memory with region := outer } } : Workspace Memory).arena =
      v.arena := rfl
  obtain ⟨_, _, _, _, hgrows, hmemory⟩ := (gives_finish hf harena rfl).ensures _ _ hplaced
  exact ⟨hgrows.arena, hgrows.extracted, hmemory⟩

/-! ### What lasts -/

/-- A relation for each visit that lasts over the visits right below it, over the naming of its sum
and over the end of its region. -/
structure Lasts (sure : Prop) (factors : Index → List Index) (used : List String)
    (G : Call → Workspace Memory → Workspace Memory → Prop) : Prop where
  steady : ∀ c, Steady (G c)
  down : ∀ {a b k w w' node}, a.Makes k b → a.start.arena.get a.id = .ok node →
    (∀ q, node ≠ .recipe q) → G b w w' → G a w w'
  mint : ∀ {t a r w' u n name value}, Begun sure factors used t a → a.run = .ok r w' →
    Extracts a.id a.scopes a.start u w' n name value r.1 → G a a.start u → G a a.start w'
  recipe : ∀ {t a b v u w' new q}, a.start.arena.get a.id = .ok (.recipe q) → a.Makes 0 b →
    Begun sure factors used t b →
    b.start = { a.start with memory := { a.start.memory with region := .empty } } →
    RegionEnds a.start.memory.region b v u new → Quiet u w' → G b b.start v → G a a.start w'

namespace Lasts

variable {G : Call → Workspace Memory → Workspace Memory → Prop} {a b c : Call} {node : Node}
  {j k : Nat} {r : NodeId × List Scope} {w' : Workspace Memory}

theorem of_run (hG : Lasts sure factors used G) (h : Begun sure factors used t c)
    (hrun : c.run = .ok r w') : G c c.start w' := by
  induction t using Tree.induct generalizing c r w' with
  | node shape ts ih =>
    obtain ⟨depth, node, hdepth, hnode, hran⟩ := h.ran hrun
    obtain ⟨q, rfl⟩ | hrec := node.recipe_or
    · obtain ⟨b, call⟩ : ∃ b, c.Makes 0 b := by
        obtain ⟨_, id, scopes, w⟩ := c
        obtain rfl : _ = depth + 1 := hdepth
        exact ⟨_, .intro hnode (.recipe rfl)⟩
      obtain ⟨u, hu, hbegun, -⟩ := h.makes call
      obtain ⟨v, v', new, hends, hquiet⟩ := h.regionEnds hnode call hrun
      obtain ⟨body, passed, hvisited, -⟩ := hends.ends
      exact hG.recipe hnode call hbegun (call.start_of_recipe hnode).2 hends hquiet
        (ih u (List.mem_of_getElem? hu) hbegun hvisited)
    · obtain ⟨_, id, scopes, w⟩ := c
      obtain rfl : _ = depth + 1 := hdepth
      refine (hG.steady _).of_ran (fun k c inner v call r' v' hvisited => ?_) hrec hran
        fun n u name value hextracts hu => hG.mint h hrun hextracts hu
      have hmakes : Call.Makes ⟨depth + 1, id, scopes, w⟩ k ⟨depth, c, inner, v⟩ := .intro hnode call
      obtain ⟨u, hu, hbegun, -⟩ := h.makes hmakes
      exact hG.down hmakes hnode hrec (ih u (List.mem_of_getElem? hu) hbegun hvisited)

theorem of_calls (hG : Lasts sure factors used G) {depth : Nat} {id : NodeId}
    (h : Begun sure factors used t ⟨depth + 1, id, scopes, w⟩) (hnode : w.arena.get id = .ok node)
    (hrec : ∀ q, node ≠ .recipe q) (k : Nat) (c : NodeId) (inner : List Scope)
    (v : Workspace Memory) (call : Calls (rule.transformWithin depth) id scopes w node k c inner v) :
    (rule.transformWithin depth c inner).Ensures v
      fun _ v' => G ⟨depth + 1, id, scopes, w⟩ v v' := by
  intro r v' hvisited
  have hmakes : Call.Makes ⟨depth + 1, id, scopes, w⟩ k ⟨depth, c, inner, v⟩ := .intro hnode call
  obtain ⟨shape, ts⟩ := t
  obtain ⟨u, -, hbegun, -⟩ := h.makes hmakes
  exact hG.down hmakes hnode hrec (hG.of_run hbegun hvisited)

/-- It lasts until a visit right below begins. -/
theorem before (hG : Lasts sure factors used G) (h : Begun sure factors used t a)
    (call : a.Makes k b) (hnode : a.start.arena.get a.id = .ok node)
    (hrec : ∀ q, node ≠ .recipe q) : G a a.start b.start := by
  cases call with
  | intro get calls =>
    obtain rfl := Except.ok.inj (hnode.symm.trans get)
    exact (hG.steady _).before (hG.of_calls h get hrec) calls hrec

/-- It lasts from the end of a visit right below to the beginning of a later one. -/
theorem between (hG : Lasts sure factors used G) (h : Begun sure factors used t a) (hkj : k < j)
    (call : a.Makes k b) (call' : a.Makes j c) (hnode : a.start.arena.get a.id = .ok node) :
    ∃ r v u, b.run = .ok r v ∧ G a v u ∧ Quiet u c.start ∧ (node.IsRebuilt ∨
      ∃ s : Scope, c.scopes = s :: a.scopes ∧ u.memory.lastScope < s.serial) := by
  cases call with
  | intro get calls =>
    cases call' with
    | intro get' calls' =>
      obtain rfl := Except.ok.inj (hnode.symm.trans get)
      obtain rfl := Except.ok.inj (hnode.symm.trans get')
      have hrec : ∀ q, node ≠ .recipe q := by
        rintro q rfl
        cases calls' with
        | recipe _ => omega
        | part rebuilt _ _ => exact rebuilt.elim
      exact (hG.steady _).between (hG.of_calls h get hrec) hkj calls calls'

/-- It lasts from the end of a visit right below to the end of the visit; only what names the sum
may come after. -/
theorem after (hG : Lasts sure factors used G) (h : Begun sure factors used t a)
    (call : a.Makes k b) (hnode : a.start.arena.get a.id = .ok node) (hrec : ∀ q, node ≠ .recipe q)
    (hrun : a.run = .ok r w') : ∃ r' v, b.run = .ok r' v ∧ (G a v w' ∨
      ∃ n u name value, G a v u ∧ Extracts a.id a.scopes a.start u w' n name value r.1) := by
  obtain ⟨depth, node', hdepth, hget, hran⟩ := h.ran hrun
  obtain rfl := Except.ok.inj (hnode.symm.trans hget)
  cases call with
  | intro get calls =>
    obtain rfl := Except.ok.inj (hnode.symm.trans get)
    obtain rfl := Nat.succ.inj hdepth
    exact (hG.steady _).after (hG.of_calls h get hrec) calls hrec hran

/-- It lasts until a visit further below begins, in the same region. -/
theorem until_begin (hG : Lasts sure factors used G) (h : Begun sure factors used t a) {p : List Nat}
    (henters : Enters a p c) (htop : t.region p = []) : G a a.start c.start := by
  induction henters generalizing t with
  | here => exact (hG.steady _).refl _
  | @down a b c k p call _ ih =>
    obtain ⟨shape, ts⟩ := t
    obtain ⟨u, hu, hbegun, -⟩ := h.makes call
    obtain ⟨node, hnode, rfl, -⟩ := h.formed.node
    rw [Tree.region_cons hu, Shape.regionBelow_eq_nil] at htop
    have hrec : ∀ q, node ≠ .recipe q := by
      rintro q rfl
      exact htop.2 _ _ rfl
    exact (hG.steady _).trans (hG.before h call hnode hrec)
      (hG.down call hnode hrec (ih hbegun htop.1))

end Lasts

/-! ### Runs -/

/-- In a run on a fresh memory the visit is made at the position. -/
def Reached (a : Arena) (options : Options) (root : NodeId) (p : List Nat) (c : Call) : Prop :=
  ∃ w, (PassM.walk (fun a => Visitor.gather (Memory.survey a)) root : PassM Memory Unit)
      ⟨a, [], .ofOptions options⟩ = .ok () w ∧ Enters ⟨Rule.maxDepth w.arena, root, [], w⟩ p c

/-- The regions of a run are the whole tree and the bodies of the recipes that are visited.  Each
begins with the visit of a tree; the region before it is put back at its end. -/
inductive IsRegion (a : Arena) (options : Options) (root : NodeId) :
    List Nat → Call → Region → Prop where
  | whole {b : Call} (reached : Reached a options root [] b) : IsRegion a options root [] b .empty
  | recipe {p : List Nat} {c b : Call} {q : Recipe} (reached : Reached a options root p c)
    (node : c.start.arena.get c.id = .ok (.recipe q)) (call : c.Makes 0 b) :
    IsRegion a options root (p ++ [0]) b c.start.memory.region

variable {a : Arena} {options : Options} {root : NodeId} {p : List Nat} {b c : Call}

theorem begun_of_survey (h : a.FormedIf sure root t)
    (hok : (PassM.walk (fun a => Visitor.gather (Memory.survey a)) root : PassM Memory Unit)
      ⟨a, [], .ofOptions options⟩ = .ok () w) :
    w.arena = a ∧ w.events = [] ∧ w.memory.region = .empty ∧
      Begun sure a.factors t.names t ⟨Rule.maxDepth w.arena, root, [], w⟩ := by
  obtain ⟨u, hu⟩ := exists_walkable_of_survey hok
  obtain rfl := h.unfolds.unique hu.unfolds
  obtain ⟨rfl, hevents, hreserves, hnames⟩ := (gives_survey_of_walkable hu).ensures _ _ hok
  refine ⟨rfl, hevents, hreserves.region, ⟨[], .empty rfl hreserves.region hnames⟩, .nil, h, ?_,
    fun _ hy => hy⟩
  have hheight := h.unfolds.height_le
  dsimp only
  unfold Rule.maxDepth
  omega

theorem Reached.begun (h : Reached a options root p c) (hroot : a.FormedIf sure root t) :
    ∃ u, t.at? p = some u ∧ Begun sure a.factors t.names u c := by
  obtain ⟨w, hok, henters⟩ := h
  exact (begun_of_survey hroot hok).2.2.2.enters henters

theorem Reached.makes (h : Reached a options root p c) {k : Nat} (call : c.Makes k b) :
    Reached a options root (p ++ [k]) b := by
  obtain ⟨w, hok, henters⟩ := h
  exact ⟨w, hok, henters.snoc call⟩

theorem IsRegion.begun {outer : Region} (h : IsRegion a options root p b outer)
    (hroot : a.FormedIf sure root t) : ∃ u, t.at? p = some u ∧
      Begun sure a.factors t.names u b ∧ b.start.memory.region = .empty := by
  cases h with
  | whole reached =>
    obtain ⟨w, hok, henters⟩ := reached
    obtain ⟨-, -, hregion, hbegun⟩ := begun_of_survey hroot hok
    cases henters
    exact ⟨t, rfl, hbegun, hregion⟩
  | recipe reached node call =>
    obtain ⟨u, hu, hbegun⟩ := (reached.makes call).begun hroot
    exact ⟨u, hu, hbegun, by rw [(call.start_of_recipe node).2]⟩

end Extraction

end TensorRecipe
