import TensorRecipe.Proofs.Extraction.LowestLets
import TensorRecipe.Proofs.Extraction.MirroredVisits

/-!
# Sums are bound by lets

What extraction makes of a tree mirrors it (`ensures_extract_mirrors`), where what is kept are the
sums that lets bind.  So lets bind all sums then (`isLetValue_extract`), if the sums that lets bind
before and that also stand exposed have none but bound sums in them.  Where one has another sum in
it, that is replaced, and the node made anew in the exposed place is a sum that no let binds
(`exists_sum_not_isLetValue`).
-/

namespace TensorRecipe

theorem Arena.Unfolds.exists_within {a : Arena} {id c : NodeId} {t : Tree} (h : a.Unfolds id t)
    (hc : a.Reaches id c) : ∃ u, a.Unfolds c u ∧ u.Within t := by
  induction hc using Relation.ReflTransGen.head_induction_on generalizing t with
  | refl => exact ⟨t, h, .here⟩
  | head hstep _ ih =>
    obtain ⟨shape, children⟩ := t
    obtain ⟨n, hn, -, hall⟩ := h.get
    obtain ⟨u, hu, hcu⟩ := Arena.exists_of_mem_left hall ((Arena.child_iff hn).1 hstep)
    obtain ⟨v, hv, hwithin⟩ := ih hcu
    exact ⟨v, hv, .child hu hwithin⟩

namespace Draft

variable {factors : Index → List Index} {used order : List String}

/-- The value that is bound last mentions only names that are bound before. -/
theorem count_last_eq_zero {xs : List Reduction} {x : Reduction} {values : List Draft}
    {body : Draft} (hs : (temps (xs ++ [x]) values body).Scoped factors used)
    (hapart : (temps (xs ++ [x]) values body).Apart) : ∀ v ∈ values, v.count x.name = 0 := by
  intro v hv
  by_contra hne
  have hx : x.name ∈ (xs ++ [x]).map Reduction.name := by simp
  cases hs with
  | temps length nodup fresh parts _ _ earlier _ _ =>
    rcases (parts v hv).free_or_mem_bound (fresh x (by simp)) (Nat.pos_of_ne_zero hne) with
      ⟨y, hy, hname⟩ | hmem
    · obtain ⟨k, hk⟩ := List.mem_iff_getElem?.1 hv
      obtain ⟨hlt, -⟩ := List.getElem?_eq_some_iff.1 hk
      have hle : k ≤ xs.length := by simpa [← length] using hlt
      rcases earlier k v hk y hy with hy | hy
      · rw [List.take_append_of_le_length hle] at hy
        rw [List.map_append, List.nodup_append] at nodup
        exact nodup.2.2 _ (List.mem_map_of_mem (List.mem_of_mem_take hy)) _ (by simp) hname
      · exact hy (hname ▸ hx)
    · obtain ⟨before, after, hparts⟩ := List.append_of_mem
        (List.mem_append_left [body] hv : v ∈ (temps (xs ++ [x]) values body).parts)
      exact (hapart.notMem_of_split hparts hmem).1 hx

theorem LowLet.body_ne_loop {xs : List Reduction} {values : List Draft} {body : Draft}
    (h : LowLet xs values body) (hs : (temps xs values body).Scoped factors used)
    (hapart : (temps xs values body).Apart) (hne : xs ≠ []) {shape : Shape}
    (hscope : shape.isScope = true) (c : Draft) : body ≠ .node shape [c] := by
  rintro rfl
  obtain ⟨ys, x, rfl⟩ : ∃ ys x, xs = ys ++ [x] := ⟨_, _, (List.dropLast_append_getLast hne).symm⟩
  have hshape : shape ≠ .var x.name := fun heq => by simp [heq, Shape.isScope] at hscope
  have hvalues : (values.map (count x.name)).sum = 0 :=
    List.sum_eq_zero (by simpa using count_last_eq_zero hs hapart)
  rcases h.child shape [c] rfl x (by simp) c (by simp) with hlt | ⟨hno, -⟩
  · rw [count_temps, hvalues, count_node, if_neg hshape] at hlt
    simp at hlt
  · simp [hscope] at hno

theorem Lowest.not_within_letAround_sum {d : Draft} (h : Lowest order d)
    (hs : d.Scoped factors used) (hapart : d.Apart) {names : List String}
    (hfresh : ∃ x ∈ names, x ∉ used) (values : List Tree) (is : List Index) (c : Tree) :
    ¬ (Tree.letAround names values (.indexSum is) [c]).Within d.toTree := by
  intro hwithin
  obtain ⟨xs, vs, body, hinside, rfl, -, hbody⟩ := exists_temps hs hwithin hfresh
  have hne : xs ≠ [] := by
    rintro rfl
    simp at hfresh
  have hlow : LowLet xs vs body := by
    obtain ⟨low, -⟩ := hinside.inherit (fun _ _ => Lowest.part) h
    cases low with
    | temps _ low _ _ => exact low
  have hscoped : (temps xs vs body).Scoped factors used :=
    hinside.inherit (fun _ _ => Scoped.part) hs
  have hap : (temps xs vs body).Apart := hinside.inherit (fun _ _ => Apart.part) hapart
  cases body with
  | node shape children =>
    rw [toTree, toTrees_eq, Tree.node.injEq] at hbody
    obtain ⟨rfl, hchildren⟩ := hbody
    obtain ⟨e, rfl, -⟩ := List.map_eq_singleton_iff.1 hchildren
    exact hlow.body_ne_loop hscoped hap hne rfl e rfl
  | ref x => simp [toTree] at hbody
  | temps ys others inner => simp [toTree] at hbody

end Draft

namespace Extraction

open Draft PassM

/-! ### Noting what is bound -/

namespace Memory

variable {a : Arena} {c : NodeId}

theorem mem_bound_noteSum (m : Memory) (sum : NodeId) :
    c ∈ (m.noteSum sum).bound ↔ c ∈ m.bound ∨ sum = c := by
  unfold noteSum
  split
  · next hmem => exact ⟨.inl, fun h => h.elim id fun heq => heq ▸ hmem⟩
  · rw [List.mem_cons, or_comm, eq_comm]

theorem mem_bound_noteBinding (m : Memory) (b : Binding) :
    c ∈ (noteBinding a m b).bound ↔ c ∈ m.bound ∨ b.value = c ∧ a.IsSum c := by
  unfold noteBinding
  dsimp only
  split
  · next is body hsum =>
    rw [mem_bound_noteSum]
    refine or_congr_right ⟨?_, And.left⟩
    rintro rfl
    exact ⟨rfl, is, body, hsum⟩
  · next hno =>
    refine ⟨.inl, ?_⟩
    rintro (h | ⟨rfl, is, body, hsum⟩)
    · exact h
    · exact absurd hsum (hno is body)

theorem mem_bound_survey (m : Memory) (v : Visited) : c ∈ (survey a v m).bound ↔
    c ∈ m.bound ∨ ∃ id node, v = .node id node ∧ c ∈ node.letValues ∧ a.IsSum c := by
  have hnone : (∀ id bindings body, v ≠ .node id (.letIn bindings body)) →
      ¬ ∃ id node, v = .node id node ∧ c ∈ node.letValues ∧ a.IsSum c := by
    rintro hno ⟨id, node, rfl, hc, -⟩
    cases node
    case letIn bindings body => exact hno id bindings body rfl
    all_goals simp [Node.letValues] at hc
  unfold survey
  split
  · next id bindings body =>
    rw [Visitor.foldl_iff (p := fun m : Memory => c ∈ m.bound) mem_bound_noteBinding]
    refine or_congr_right ⟨?_, ?_⟩
    · rintro ⟨b, hb, rfl, hsum⟩
      exact ⟨id, _, rfl, List.mem_map_of_mem hb, hsum⟩
    · rintro ⟨_, _, ⟨⟩, hc, hsum⟩
      obtain ⟨b, hb, rfl⟩ := List.mem_map.1 hc
      exact ⟨b, hb, rfl, hsum⟩
  · exact ⟨.inl, fun h => h.resolve_right (hnone (by simp))⟩
  · next hno _ => exact ⟨.inl, fun h => h.resolve_right (hnone hno)⟩

end Memory

theorem mem_bound_of_survey {w w' : Workspace Memory} {id c : NodeId}
    (hok : (PassM.walk (fun a => Visitor.gather (Memory.survey a)) id : PassM Memory Unit) w =
      .ok () w') : c ∈ w'.memory.bound ↔
        c ∈ w.memory.bound ∨ w.arena.IsLetValue id c ∧ w.arena.IsSum c := by
  obtain ⟨t, ht⟩ := exists_walkable_of_survey hok
  obtain ⟨-, -, visits, hcovers, hmemory⟩ := (gives_survey_visits ht).ensures _ _ hok
  rw [hmemory, Visitor.foldl_iff (p := fun m : Memory => c ∈ m.bound) Memory.mem_bound_survey]
  refine or_congr_right ⟨?_, ?_⟩
  · rintro ⟨_, hv, d, node, rfl, hc, hsum⟩
    obtain ⟨hd, hn⟩ := (hcovers d node).1 hv
    exact ⟨⟨d, node, hd, hn, hc⟩, hsum⟩
  · rintro ⟨⟨d, node, hd, hn, hc⟩, hsum⟩
    exact ⟨_, (hcovers d node).2 ⟨hd, hn⟩, d, node, rfl, hc, hsum⟩

theorem ensures_survey {w : Workspace Memory} {id : NodeId} :
    (PassM.walk (fun a => Visitor.gather (Memory.survey a)) id : PassM Memory Unit).Ensures w
      fun _ w' => ∀ c, c ∈ w'.memory.bound ↔
        c ∈ w.memory.bound ∨ w.arena.IsLetValue id c ∧ w.arena.IsSum c :=
  fun _ _ hok _ => mem_bound_of_survey hok

/-! ### Whole trees -/

/-- What extraction makes of a tree mirrors it, if no region is open.  What is kept are the sums that
have been noted by then. -/
theorem ensures_extract_replaces {a : Arena} {root : NodeId} {t : Tree} {m : Memory}
    (h : a.WellFormed root t) (hclear : m.region = .empty) :
    (extract root).Ensures ⟨a, [], m⟩ fun out w' =>
      Replaces a w'.memory.bound w' false root out ∧
        (∀ e ∈ extractions w'.events, e.1 ∉ t.names ∧ a.Reaches root e.2) ∧
        ∀ c, c ∈ w'.memory.bound ↔ c ∈ m.bound ∨ a.IsLetValue root c ∧ a.IsSum c := by
  have hsurvey := (gives_survey (w := ⟨a, [], m⟩) h).ensures.and ensures_survey
  refine hsurvey.bind fun _ w₁ ⟨⟨harena, hevents, hreserves, hnames⟩, hbound⟩ => ?_
  have hregion : w₁.memory.region = .empty := hreserves.region.trans hclear
  have hkept : Kept a root t w₁.memory.bound w₁ := by
    refine ⟨harena ▸ .refl _, rfl, hnames, by simp [hevents, extractions], ?_, ?_⟩
    all_goals simp [hregion, Region.empty]
  refine (ensures_replaceSums h.unfolds hkept).bind fun new w₂ hnew => ?_
  refine gives_exchangeRegion.ensures.bind ?_
  rintro _ w₃ ⟨rfl, rfl⟩
  have hstores : Stores a root (· ∈ w₁.memory.bound) (extractions w₂.events)
      w₂.memory.region.pending w₂.arena := hnew.kept.stores h.unfolds
  refine (ensures_bindTemporaries_mirrors (w := { w₂ with memory :=
    { w₂.memory with region := .empty } }) hstores .refl hnew.replaces fun hne hs => hne ?_).mono ?_
  · -- nothing was to be replaced, so nothing is pending
    rw [hnew.region hs, hregion]
    rfl
  rintro out w₄ ⟨hgrows, hmemory, hout⟩
  have hlogged : extractions w₄.events = extractions w₂.events := hgrows.extracted
  have hnoted : w₄.memory.bound = w₁.memory.bound := by
    rw [hmemory]
    exact hnew.kept.noted
  rw [hnoted, Replaces, hlogged]
  exact ⟨hout, hnew.kept.logged, hbound⟩

theorem ensures_extract_mirrors {a : Arena} {root : NodeId} {t : Tree} (options : Options)
    (h : a.WellFormed root t) :
    (extract root).Ensures ⟨a, [], .ofOptions options⟩ fun out w' =>
      Mirrors a w'.arena (a.IsLetValue root) (extractions w'.events) false root out ∧
        ∀ e ∈ extractions w'.events, e.1 ∉ t.names ∧ a.Reaches root e.2 := by
  have hclear : (Memory.ofOptions options).region = .empty := rfl
  refine (ensures_extract_replaces h hclear).mono fun out w' ⟨hout, hlogged, hbound⟩ => ?_
  refine ⟨hout.kept_congr fun c hsum => ?_, hlogged⟩
  simpa [Memory.ofOptions, hsum] using hbound c

/-- What mirrors a tree is tidy, if kept sums that stand exposed have none but kept sums in them. -/
theorem Mirrors.tidy {a b : Arena} {kept : NodeId → Prop} {log : List (String × NodeId)}
    {named : Bool} {root id new : NodeId} {used : List String}
    (h : Mirrors a b kept log named id new)
    (hlog : ∀ e ∈ log, e.1 ∉ used ∧ a.Reaches root e.2)
    (hkept : ∀ c, kept c → a.IsSum c → a.Exposes root c → a.Settled kept c)
    (hid : a.Reaches root id) :
    b.Tidy (fun c => kept c ∧ a.IsSum c ∧ a.Exposes root c) used new := by
  induction h with
  | reference _ entry =>
    exact .intro entry (by simp [Node.children]) (by simp [Node.exposed, Node.children])
  | @node _ id _ node node' old entry shape length parts _ _ ih =>
    have hparts : List.Forall₂ (fun c c' => Mirrors a b kept log false c c' ∧
        b.Tidy (fun c => kept c ∧ a.IsSum c ∧ a.Exposes root c) used c')
        node.children node'.children :=
      List.forall₂_iff_get.2 ⟨length, fun k h h' =>
        ⟨parts k h h', ih k h h' (hid.tail ⟨node, old, List.get_mem _ _⟩)⟩⟩
    refine .of_shape entry shape hparts (fun _ _ hc => hc.2) fun c hc c' hcc' hs => .inl ?_
    -- an exposed sum that is kept has nothing in it to replace, so it is still the same
    obtain ⟨hsum, hk⟩ := hcc'.1.isSum hs
    have hexp : a.Exposes root c := .inr ⟨id, node, hid, old, hc⟩
    rw [hcc'.1.same (hkept c hk hsum hexp)]
    exact ⟨hk, hsum, hexp⟩
  | letIn sum entry nonempty minted _ _ _ ihv ihb =>
    refine .intro entry (fun c hc => ?_) fun _ _ _ => .inr ?_
    · rcases List.mem_append.1 hc with hc | hc
      · obtain ⟨v, hv, rfl⟩ := List.mem_map.1 hc
        exact ihv v hv (hlog _ (minted v hv).logged).2
      · obtain rfl := List.mem_singleton.1 hc
        exact ihb hid
    · obtain ⟨v, hv⟩ := List.exists_mem_of_ne_nil _ nonempty
      exact ⟨v.name, List.mem_map_of_mem hv, (hlog _ (minted v hv).logged).1⟩

/-- What comes of a tree is tidy: no sums are exposed there but some that lets bind in the tree and
that stand exposed there already, and bodies of lets of fresh names. -/
theorem ensures_extract_doubled {a : Arena} {root : NodeId} {t : Tree} (options : Options)
    (h : a.WellFormed root t)
    (hexposed : ∀ c, a.Exposes root c → a.IsLetValue root c → a.IsSum c →
      ∀ s, a.Reaches c s → a.IsSum s → a.IsLetValue root s) :
    (extract root).Ensures ⟨a, [], .ofOptions options⟩ fun out w' =>
      w'.arena.Tidy (fun c => a.IsLetValue root c ∧ a.IsSum c ∧ a.Exposes root c) t.names out ∧
        ¬ w'.arena.IsSum out := by
  refine (ensures_extract_mirrors options h).mono fun out w' ⟨hmirrors, hlog⟩ => ⟨?_, fun hs => ?_⟩
  · exact hmirrors.tidy hlog (fun c hlet hsum hexp => hexposed c hexp hlet hsum) .refl
  · -- a sum at the root would be the value of a let below itself
    obtain ⟨-, hlet⟩ := hmirrors.isSum hs
    exact (Arena.exists_unfolds_iff.1 ⟨t, h.unfolds⟩).2 root .refl hlet.below

/-- What comes of a tree is tidy: no sums are exposed there but some that lets bind in the tree, and
bodies of lets of fresh names. -/
theorem ensures_extract {a : Arena} {root : NodeId} {t : Tree} (options : Options)
    (h : a.WellFormed root t)
    (hexposed : ∀ c, a.Exposes root c → a.IsLetValue root c → a.IsSum c →
      ∀ s, a.Reaches c s → a.IsSum s → a.IsLetValue root s) :
    (extract root).Ensures ⟨a, [], .ofOptions options⟩ fun out w' =>
      w'.arena.Tidy (a.IsLetValue root) t.names out ∧ ¬ w'.arena.IsSum out :=
  (ensures_extract_doubled options h hexposed).mono fun _ _ ⟨htidy, hroot⟩ =>
    ⟨htidy.imp fun _ hc => hc.1, hroot⟩

/-- After extraction lets bind all sums of a tree, if the sums that lets bind before and that also
stand exposed have none but bound sums in them. -/
theorem isLetValue_extract {a : Arena} {root : NodeId} {t : Tree} (options : Options)
    (h : a.WellFormed root t)
    (hexposed : ∀ c, a.Exposes root c → a.IsLetValue root c → a.IsSum c →
      ∀ s, a.Reaches c s → a.IsSum s → a.IsLetValue root s) :
    ∃ out w', (extract root).start a (.ofOptions options) = .ok out w' ∧
      ∀ s, w'.arena.Reaches out s → w'.arena.IsSum s →
        w'.arena.IsLetValue out s ∨ a.IsLetValue root s := by
  obtain ⟨out, w', hok, xs, d, hd, hlowest, hadvances, hun⟩ :=
    gives_extract_lowest (w := ⟨a, [], .ofOptions options⟩) h rfl
  obtain ⟨htidy, hroot⟩ := ensures_extract options h hexposed out w' hok
  refine ⟨out, w', hok, fun s hs hsum => ?_⟩
  have hapart : d.Apart :=
    ⟨((hd.bound.map _).nodup_iff).2 hadvances.nodup, fun x hx => absurd hx (hd.closed x)⟩
  rcases htidy.sum_cases hs hsum with rfl | hlet | hkept | ⟨id, node, hid, hn, hc, x, hx, hfresh⟩
  · exact absurd hsum hroot
  · exact .inl hlet
  · exact .inr hkept
  · -- the body of a let of a fresh name is no sum
    exfalso
    cases node
    case letIn bindings body =>
      obtain rfl : s = body := by simpa [Node.exposed] using hc
      obtain ⟨⟨shape, children⟩, hu, hwithin⟩ := hun.exists_within hid
      obtain ⟨is, c, hs⟩ := hsum
      obtain ⟨_, hn', rfl, hchildren⟩ := hu.get
      obtain rfl := Except.ok.inj (hn.symm.trans hn')
      obtain ⟨values, ⟨_, _⟩, rfl, -, hbody⟩ := Arena.exists_append_singleton hchildren
      obtain ⟨_, hs', rfl, hinner⟩ := hbody.get
      obtain rfl := Except.ok.inj (hs.symm.trans hs')
      obtain _ | ⟨-, _ | _⟩ := hinner
      exact hlowest.not_within_letAround_sum hd.isScoped hapart ⟨x, hx, hfresh⟩ values is _ hwithin
    all_goals simp [Node.shape, Shape.given] at hx

/-- A sum over a sum that a let binds. -/
def overBound : Arena where
  nodes := #[.index ⟨0⟩, .indexSum [⟨0⟩] ⟨0⟩, .var "x", .letIn [⟨"x", ⟨1⟩⟩] ⟨2⟩,
    .indexSum [⟨1⟩] ⟨1⟩, .operator .sum [⟨3⟩, ⟨4⟩]]
  indices := #[⟨"j", 2, .domain, []⟩, ⟨"k", 3, .domain, []⟩]

/-- The same, where the outer sum became the value of a let. -/
def overBoundAfter : Arena where
  nodes := overBound.nodes ++
    #[.var "isum_0", .operator .sum [⟨3⟩, ⟨6⟩], .letIn [⟨"isum_0", ⟨4⟩⟩] ⟨7⟩]
  indices := overBound.indices

theorem wellFormed_overBound : ∃ t, overBound.WellFormed ⟨5⟩ t := by
  let inner : Tree := .node (.indexSum [⟨0⟩]) [.node (.index ⟨0⟩) []]
  have hinner : overBound.Unfolds ⟨1⟩ inner := ⟨_, rfl, rfl, ⟨_, rfl, rfl, trivial⟩, trivial⟩
  let bound : Tree := .node (.letIn ["x"]) [inner, .node (.var "x") []]
  have hlet : overBound.Unfolds ⟨3⟩ bound :=
    ⟨_, rfl, rfl, hinner, ⟨_, rfl, rfl, trivial⟩, trivial⟩
  have hsum : overBound.Unfolds ⟨4⟩ (.node (.indexSum [⟨1⟩]) [inner]) :=
    ⟨_, rfl, rfl, hinner, trivial⟩
  have hj : overBound.Resolves ⟨0⟩ := .intro rfl (by simp [overBound])
  have hk : overBound.Resolves ⟨1⟩ := .intro rfl (by simp [overBound])
  refine ⟨.node (.operator .sum) [bound, .node (.indexSum [⟨1⟩]) [inner]],
    ⟨_, rfl, rfl, hlet, hsum, trivial⟩, ?_⟩
  simp [Tree.indices, Tree.indicesAll, Shape.indices, bound, inner, hj, hk]

/-- The outer sum has become the value of a let. -/
theorem isLetValue_extract_overBound :
    ∃ out w', (extract ⟨5⟩).start overBound (.ofOptions .default) = .ok out w' ∧
      w'.arena.Reaches out ⟨4⟩ ∧ w'.arena.IsLetValue out ⟨4⟩ ∧ ¬ overBound.IsLetValue ⟨5⟩ ⟨4⟩ := by
  obtain ⟨t, ht⟩ := wellFormed_overBound
  have hvalues : ∀ node ∈ overBound.nodes.toList, ∀ c ∈ node.letValues, c = ⟨1⟩ := by decide
  have hroot : overBound.Child ⟨5⟩ ⟨3⟩ := ⟨_, rfl, by decide⟩
  have hinner : ∀ d, overBound.Child ⟨1⟩ d → d = ⟨0⟩ := by
    rintro d ⟨_, ⟨⟩, hd⟩
    exact List.mem_singleton.1 hd
  have hindex : ∀ d, ¬ overBound.Child ⟨0⟩ d := by
    rintro d ⟨_, ⟨⟩, hd⟩
    exact List.not_mem_nil hd
  have hlet : overBound.IsLetValue ⟨5⟩ ⟨1⟩ := ⟨⟨3⟩, _, .single hroot, rfl, by decide⟩
  obtain ⟨out, w', hok, hsums⟩ := isLetValue_extract .default ht fun c _ hc _ s hs hsum => by
    obtain ⟨node, hn, hmem⟩ := hc.exists_mem
    obtain rfl := hvalues node hn c hmem
    -- there is nothing but an index in the inner sum
    rcases Relation.ReflTransGen.cases_head hs with rfl | ⟨d, hd, hds⟩
    · exact hlet
    · obtain rfl := hinner d hd
      rcases Relation.ReflTransGen.cases_head hds with rfl | ⟨e, he, -⟩
      · obtain ⟨_, _, hsum⟩ := hsum
        cases hsum
      · exact absurd he (hindex e)
  have hresult : outcome? ((extract ⟨5⟩).start overBound (.ofOptions .default)) =
      some (⟨8⟩, overBoundAfter) := by decide +kernel
  obtain ⟨w₁, hrun, harena⟩ := exists_ok_of_outcome? hresult
  obtain ⟨rfl, rfl⟩ : out = ⟨8⟩ ∧ w' = w₁ := by simpa [hok] using hrun
  have hnot : ¬ overBound.IsLetValue ⟨5⟩ ⟨4⟩ := fun h => by
    obtain ⟨node, hn, hmem⟩ := h.exists_mem
    exact absurd (hvalues node hn _ hmem) (by decide)
  have hvalue : overBoundAfter.Child ⟨8⟩ ⟨4⟩ := ⟨_, rfl, by decide⟩
  rw [harena] at hsums
  refine ⟨⟨8⟩, w', hok, ?_⟩
  rw [harena]
  exact ⟨.single hvalue, (hsums ⟨4⟩ (.single hvalue) ⟨_, _, rfl⟩).resolve_right hnot, hnot⟩

/-- A sum over a sum, which a let binds and which also stands beside that let. -/
def stacked : Arena where
  nodes := #[.index ⟨0⟩, .indexSum [⟨0⟩] ⟨0⟩, .indexSum [⟨1⟩] ⟨1⟩, .var "x",
    .letIn [⟨"x", ⟨2⟩⟩] ⟨3⟩, .operator .sum [⟨2⟩, ⟨4⟩]]
  indices := #[⟨"j", 2, .domain, []⟩, ⟨"k", 3, .domain, []⟩]

theorem wellFormed_stacked : ∃ t, stacked.WellFormed ⟨5⟩ t := by
  let sum : Tree := .node (.indexSum [⟨1⟩]) [.node (.indexSum [⟨0⟩]) [.node (.index ⟨0⟩) []]]
  have hsum : stacked.Unfolds ⟨2⟩ sum :=
    ⟨_, rfl, rfl, ⟨_, rfl, rfl, ⟨_, rfl, rfl, trivial⟩, trivial⟩, trivial⟩
  let bound : Tree := .node (.letIn ["x"]) [sum, .node (.var "x") []]
  have hlet : stacked.Unfolds ⟨4⟩ bound :=
    ⟨_, rfl, rfl, hsum, ⟨_, rfl, rfl, trivial⟩, trivial⟩
  have hj : stacked.Resolves ⟨0⟩ := .intro rfl (by simp [stacked])
  have hk : stacked.Resolves ⟨1⟩ := .intro rfl (by simp [stacked])
  refine ⟨.node (.operator .sum) [sum, bound], ⟨_, rfl, rfl, hsum, hlet, trivial⟩, ?_⟩
  simp [Tree.indices, Tree.indicesAll, Shape.indices, bound, sum, hj, hk]

/-- The same, where the inner sum became the value of a let. -/
def stackedAfter : Arena where
  nodes := stacked.nodes ++ #[.var "isum_0", .indexSum [⟨1⟩] ⟨6⟩, .var "isum_0",
    .indexSum [⟨1⟩] ⟨8⟩, .letIn [⟨"x", ⟨9⟩⟩] ⟨3⟩, .operator .sum [⟨7⟩, ⟨10⟩],
    .letIn [⟨"isum_0", ⟨1⟩⟩] ⟨11⟩]
  indices := stacked.indices

/-- Where the outer sum stands beside the let it is made anew over the name of the inner one, and no
let binds it there. -/
theorem exists_sum_not_isLetValue :
    (∃ t, stacked.WellFormed ⟨5⟩ t) ∧
    ∃ out w' s, (extract ⟨5⟩).start stacked (.ofOptions .default) = .ok out w' ∧
      w'.arena.Reaches out s ∧ w'.arena.IsSum s ∧ ¬ w'.arena.IsLetValue out s ∧
      ¬ stacked.IsLetValue ⟨5⟩ s := by
  refine ⟨wellFormed_stacked, ?_⟩
  have hresult : outcome? ((extract ⟨5⟩).start stacked (.ofOptions .default)) =
      some (⟨12⟩, stackedAfter) := by decide +kernel
  obtain ⟨w', hrun, harena⟩ := exists_ok_of_outcome? hresult
  refine ⟨⟨12⟩, w', ⟨7⟩, hrun, ?_⟩
  rw [harena]
  refine ⟨?_, ⟨_, _, rfl⟩, fun hlet => ?_, fun hlet => ?_⟩
  · have hbody : stackedAfter.Child ⟨12⟩ ⟨11⟩ := ⟨_, rfl, by decide⟩
    have hpart : stackedAfter.Child ⟨11⟩ ⟨7⟩ := ⟨_, rfl, by decide⟩
    exact .head hbody (.single hpart)
  · obtain ⟨node, hn, hc⟩ := hlet.exists_mem
    revert node
    decide
  · obtain ⟨node, hn, hc⟩ := hlet.exists_mem
    revert node
    decide

end Extraction

end TensorRecipe
