import TensorRecipe.Extraction.Memory
import TensorRecipe.Proofs.Extraction.Naming
import TensorRecipe.Proofs.Pass.Steps
import TensorRecipe.Proofs.Tree.Walks

/-!
# Binding scopes

The home of a tree is the serial of the innermost scope that captures it, and zero where none does
(`IsHome`).  It is what `bindingSerial` finds (`isHome_of_bindingSerial`).  Before anything is extracted the
names of the tree are all taken (`gives_survey`).
-/

namespace TensorRecipe

namespace Extraction

/-- What a scope binds. -/
def Scope.binder (s : Scope) : Binder := ⟨s.indices, s.names⟩

/-- The serial of the innermost scope that captures a tree, or zero. -/
inductive IsHome (factors : Index → List Index) (t : Tree) : List Scope → Nat → Prop
  | nowhere : IsHome factors t [] 0
  | here {s : Scope} {scopes : List Scope} (captures : s.binder.Captures factors t) :
    IsHome factors t (s :: scopes) s.serial
  | outside {s : Scope} {scopes : List Scope} {n : Nat} (free : ¬ s.binder.Captures factors t)
    (home : IsHome factors t scopes n) : IsHome factors t (s :: scopes) n

/-- Serials are positive and descend from the innermost scope; the newest is the first at most. -/
def Numbered (scopes : List Scope) (last : Nat) : Prop :=
  scopes.Pairwise (fun s u => u.serial < s.serial) ∧ ∀ s ∈ scopes, 0 < s.serial ∧ s.serial ≤ last

namespace Numbered

variable {scopes : List Scope} {last last' : Nat}

theorem nil : Numbered [] last := ⟨.nil, by simp⟩

theorem mono (h : Numbered scopes last) (hle : last ≤ last') : Numbered scopes last' :=
  ⟨h.1, fun s hs => ⟨(h.2 s hs).1, (h.2 s hs).2.trans hle⟩⟩

theorem cons (h : Numbered scopes last) {s : Scope} (hs : s.serial = last + 1) :
    Numbered (s :: scopes) (last + 1) := by
  refine ⟨List.pairwise_cons.2 ⟨fun u hu => ?_, h.1⟩, fun u hu => ?_⟩
  · have := (h.2 u hu).2
    omega
  · rcases List.mem_cons.1 hu with rfl | hu
    · omega
    · have := h.2 u hu
      omega

end Numbered

namespace IsHome

variable {factors : Index → List Index} {t : Tree} {scopes : List Scope} {n last : Nat}

theorem le (h : IsHome factors t scopes n) (hs : Numbered scopes last) : n ≤ last := by
  induction h with
  | nowhere => exact Nat.zero_le _
  | here _ => exact (hs.2 _ (by simp)).2
  | outside _ _ ih =>
    exact ih ⟨(List.pairwise_cons.1 hs.1).2, fun u hu => hs.2 u (List.mem_cons_of_mem _ hu)⟩

theorem unique {m : Nat} (h : IsHome factors t scopes n) (h' : IsHome factors t scopes m) :
    n = m := by
  induction h with
  | nowhere => cases h'; rfl
  | here captures =>
    cases h' with
    | here _ => rfl
    | outside free _ => exact absurd captures free
  | outside free _ ih =>
    cases h' with
    | here captures => exact absurd captures free
    | outside _ home => exact ih home

/-- Seen from inside a scope opened anew, a home is that scope or one around it. -/
theorem cases_cons {s : Scope} (h : IsHome factors t (s :: scopes) n) :
    (s.binder.Captures factors t ∧ n = s.serial) ∨
      (¬ s.binder.Captures factors t ∧ IsHome factors t scopes n) := by
  cases h with
  | here captures => exact .inl ⟨captures, rfl⟩
  | outside free home => exact .inr ⟨free, home⟩

theorem captures_of_eq {s : Scope} (hs : Numbered scopes last) (hlt : last < s.serial)
    (h : IsHome factors t (s :: scopes) n) (hn : n = s.serial) : s.binder.Captures factors t := by
  rcases h.cases_cons with ⟨hc, -⟩ | ⟨-, hhome⟩
  · exact hc
  · have := hhome.le hs
    omega

theorem outside_of_ne {s : Scope} (h : IsHome factors t (s :: scopes) n) (hn : n ≠ s.serial) :
    ¬ s.binder.Captures factors t ∧ IsHome factors t scopes n := by
  rcases h.cases_cons with ⟨-, heq⟩ | hout
  · exact absurd heq hn
  · exact hout

theorem exists_find? {p : Scope → Bool} (hp : ∀ s, p s = true ↔ s.binder.Captures factors t) :
    ∀ scopes : List Scope, IsHome factors t scopes
      (match scopes.find? p with
        | some scope => scope.serial
        | none => 0)
  | [] => .nowhere
  | s :: scopes => by
    rw [List.find?_cons]
    cases hs : p s with
    | true => exact .here ((hp s).1 hs)
    | false => exact .outside (fun hc => by simp [(hp s).2 hc] at hs) (exists_find? hp scopes)

end IsHome

/-! ### What a reduction reads -/

theorem mem_gatherName {x : String} (names : List String) (v : Visited) :
    x ∈ gatherName v names ↔ x ∈ names ∨ ∃ id, v = .node id (.var x) := by
  unfold gatherName
  split
  · next id y =>
    split
    · next hy =>
      refine ⟨.inl, ?_⟩
      rintro (hx | ⟨id', hid⟩)
      · exact hx
      · cases hid
        exact hy
    · rw [List.mem_cons, or_comm]
      refine or_congr_right ⟨?_, ?_⟩
      · rintro rfl
        exact ⟨id, rfl⟩
      · rintro ⟨id', hid⟩
        cases hid
        rfl
  · next hno =>
    refine ⟨.inl, ?_⟩
    rintro (hx | ⟨id, rfl⟩)
    · exact hx
    · exact absurd rfl (hno id x)

variable {a : Arena} {id : NodeId} {t : Tree}

theorem namesRead_eq (h : a.Walkable id t) :
    ∃ names, namesRead id a = .ok names ∧ ∀ x, x ∈ names ↔ t.HasVar a.factors x := by
  obtain ⟨visits, hgather, hcovers⟩ := Visitor.gather_walk_of_walkable gatherName h
  refine ⟨visits.foldl (fun names v => gatherName v names) [], ?_, fun x => ?_⟩
  · simp only [namesRead, EStateM.run, hgather []]
  · rw [Visitor.foldl_iff (p := (x ∈ ·)) mem_gatherName, h.unfolds.hasVar_iff]
    constructor
    · rintro (hx | ⟨_, hc, c, rfl⟩)
      · simp at hx
      · exact h.unfolds.mem_shapes_iff.2 ⟨c, _, ((hcovers c _).1 hc).1, ((hcovers c _).1 hc).2, rfl⟩
    · intro hx
      obtain ⟨c, n, hc, hget, hn⟩ := h.unfolds.mem_shapes_iff.1 hx
      obtain rfl := Node.eq_var hn
      exact .inr ⟨_, (hcovers c _).2 ⟨hc, hget⟩, c, rfl⟩

theorem mem_namesRead {names : List String} (h : a.Unfolds id t) (hok : namesRead id a = .ok names)
    (x : String) : x ∈ names ↔ t.HasVar a.factors x := by
  have hwalkable : a.Walkable id t := by
    unfold namesRead at hok
    split at hok
    · next hwalk =>
      obtain ⟨u, hu⟩ := Visitor.exists_walkable_of_walkWithin hwalk
      rwa [h.unique hu.unfolds]
    · cases hok
  obtain ⟨names', hnames, hmem⟩ := namesRead_eq hwalkable
  rw [Except.ok.inj (hok.symm.trans hnames)]
  exact hmem x

theorem indicesRead_eq (h : a.WellFormed id t) :
    indicesRead id a = .ok (t.free a.factors [] ++ (t.free a.factors []).flatMap a.factors) := by
  have hflat : a.flatten (t.free a.factors []) = .ok ((t.free a.factors []).flatMap a.factors) :=
    Arena.flatten_eq fun i hi => h.resolves i (Tree.mem_indices_of_mem_free hi)
  unfold indicesRead
  rw [Arena.freeIndices_eq h]
  show (do let factors ← a.flatten _; return _ : Except Fault (List Index)) = _
  rw [hflat]
  rfl

theorem indicesRead_of_ok {is : List Index} (h : a.Unfolds id t) (hok : indicesRead id a = .ok is) :
    is = t.free a.factors [] ++ (t.free a.factors []).flatMap a.factors := by
  obtain ⟨free, hfree, hok⟩ := exists_of_bind_eq_ok hok
  obtain ⟨factors, hfactors, hok⟩ := exists_of_bind_eq_ok hok
  obtain rfl := Arena.freeWithin_of_ok h hfree
  obtain ⟨-, rfl⟩ := Arena.of_flatten_eq_ok hfactors
  exact (Except.ok.inj hok).symm

theorem isHome_of_bindingSerial (h : a.Unfolds id t) {scopes : List Scope} {n : Nat}
    (hok : bindingSerial scopes id a = .ok n) : IsHome a.factors t scopes n := by
  obtain ⟨is, his, hok⟩ := exists_of_bind_eq_ok hok
  obtain ⟨names, hnames, hok⟩ := exists_of_bind_eq_ok hok
  obtain rfl := indicesRead_of_ok h his
  have hbinds : ∀ s : Scope, s.binds (t.free a.factors [] ++
      (t.free a.factors []).flatMap a.factors) names = true ↔ s.binder.Captures a.factors t := by
    intro s
    simp [Scope.binds, Binder.Captures, Scope.binder, mem_namesRead h hnames]
  rw [← Except.ok.inj hok]
  exact IsHome.exists_find? hbinds scopes

theorem exists_bindingSerial (h : a.WellFormed id t) (scopes : List Scope) :
    ∃ n, bindingSerial scopes id a = .ok n := by
  obtain ⟨names, hnames, -⟩ := namesRead_eq h.walkable
  unfold bindingSerial
  rw [indicesRead_eq h, hnames]
  exact ⟨_, rfl⟩

/-! ### Names in use -/

namespace Memory

/-- More names are taken, and perhaps more sums are known to be bound. -/
structure Reserves (m m' : Memory) : Prop where
  options : m'.options = m.options
  region : m'.region = m.region
  lastScope : m'.lastScope = m.lastScope
  reserved : ∀ x ∈ m.namer.reserved, x ∈ m'.namer.reserved

theorem Reserves.refl (m : Memory) : Reserves m m := ⟨rfl, rfl, rfl, fun _ h => h⟩

theorem Reserves.trans {m m' m'' : Memory} (h : Reserves m m') (h' : Reserves m' m'') :
    Reserves m m'' :=
  ⟨h'.options.trans h.options, h'.region.trans h.region, h'.lastScope.trans h.lastScope,
    fun x hx => h'.reserved x (h.reserved x hx)⟩

theorem reserves_noteBinding (a : Arena) (m : Memory) (b : Binding) :
    Reserves m (noteBinding a m b) ∧ b.name ∈ (noteBinding a m b).namer.reserved := by
  have hreserve : Reserves m { m with namer := m.namer.reserve b.name } :=
    ⟨rfl, rfl, rfl, fun x hx => Namer.mem_reserve.2 (.inr hx)⟩
  have hname : b.name ∈ (m.namer.reserve b.name).reserved := Namer.mem_reserve.2 (.inl rfl)
  have hnote : ∀ (m : Memory) (sum : NodeId), Reserves m (m.noteSum sum) := by
    intro m sum
    unfold noteSum
    split
    · exact .refl m
    · exact ⟨rfl, rfl, rfl, fun _ h => h⟩
  unfold noteBinding
  dsimp only
  split
  · exact ⟨hreserve.trans (hnote _ _), (hnote _ _).reserved _ hname⟩
  · exact ⟨hreserve, hname⟩

theorem reserves_foldl_noteBinding (a : Arena) :
    ∀ (bindings : List Binding) (m : Memory), Reserves m (bindings.foldl (noteBinding a) m) ∧
      ∀ b ∈ bindings, b.name ∈ (bindings.foldl (noteBinding a) m).namer.reserved
  | [], m => ⟨.refl m, by simp⟩
  | b :: bindings, m => by
    obtain ⟨hb, hname⟩ := reserves_noteBinding a m b
    obtain ⟨hrest, hnames⟩ := reserves_foldl_noteBinding a bindings (noteBinding a m b)
    refine ⟨hb.trans hrest, fun c hc => ?_⟩
    rcases List.mem_cons.1 hc with rfl | hc
    · exact hrest.reserved _ hname
    · exact hnames c hc

theorem reserves_survey (a : Arena) (v : Visited) (m : Memory) :
    Reserves m (survey a v m) ∧ ∀ id n, v = .node id n → ∀ x ∈ n.shape.names,
      x ∈ (survey a v m).namer.reserved := by
  unfold survey
  split
  · next id bindings body =>
    obtain ⟨hrest, hnames⟩ := reserves_foldl_noteBinding a bindings m
    refine ⟨hrest, ?_⟩
    rintro _ _ ⟨⟩ x hx
    obtain ⟨b, hb, rfl⟩ := List.mem_map.1 hx
    exact hnames b hb
  · next id name =>
    refine ⟨⟨rfl, rfl, rfl, fun x hx => Namer.mem_reserve.2 (.inr hx)⟩, ?_⟩
    rintro _ _ ⟨⟩ x hx
    exact Namer.mem_reserve.2 (.inl (by simpa [Node.shape, Shape.names] using hx))
  · next hlet hvar =>
    refine ⟨.refl m, fun id n hv x hx => ?_⟩
    cases n
    case letIn bindings body => exact absurd hv (hlet id bindings body)
    case var name => exact absurd hv (hvar id name)
    all_goals simp [Node.shape, Shape.names] at hx

theorem reserves_foldl_survey (a : Arena) :
    ∀ (visits : List Visited) (m : Memory),
      Reserves m (visits.foldl (fun m v => survey a v m) m) ∧
      ∀ id n, .node id n ∈ visits → ∀ x ∈ n.shape.names,
        x ∈ (visits.foldl (fun m v => survey a v m) m).namer.reserved
  | [], m => ⟨.refl m, by simp⟩
  | v :: visits, m => by
    obtain ⟨hv, hnames⟩ := reserves_survey a v m
    obtain ⟨hrest, hall⟩ := reserves_foldl_survey a visits (survey a v m)
    refine ⟨hv.trans hrest, fun id n hn x hx => ?_⟩
    rcases List.mem_cons.1 hn with hn | hn
    · exact hrest.reserved x (hnames id n hn.symm x hx)
    · exact hall id n hn x hx

end Memory

/-- The survey is a walk over the tree. -/
theorem gives_survey_visits {w : Workspace Memory} (h : w.arena.Walkable id t) :
    (PassM.walk (fun a => Visitor.gather (Memory.survey a)) id : PassM Memory Unit).Gives w
      fun _ w' => w'.arena = w.arena ∧ w'.events = w.events ∧ ∃ visits,
        Visitor.Covers w.arena id visits ∧
          w'.memory = visits.foldl (fun m v => Memory.survey w.arena v m) w.memory := by
  obtain ⟨visits, hgather, hcovers⟩ :=
    Visitor.gather_walk_of_walkable (Memory.survey w.arena) h
  refine ⟨(), ⟨w.arena, w.events, visits.foldl (fun m v => Memory.survey w.arena v m) w.memory⟩, ?_,
    rfl, rfl, visits, hcovers, rfl⟩
  simp only [PassM.walk, hgather w.memory]

/-- Before anything is extracted, all names of the tree are taken. -/
theorem gives_survey_of_walkable {w : Workspace Memory} (h : w.arena.Walkable id t) :
    (PassM.walk (fun a => Visitor.gather (Memory.survey a)) id : PassM Memory Unit).Gives w
      fun _ w' => w'.arena = w.arena ∧ w'.events = w.events ∧
        Memory.Reserves w.memory w'.memory ∧ ∀ x ∈ t.names, x ∈ w'.memory.namer.reserved := by
  refine (gives_survey_visits h).mono fun _ w' ⟨harena, hevents, visits, hcovers, hmemory⟩ => ?_
  obtain ⟨hreserves, hnames⟩ := Memory.reserves_foldl_survey w.arena visits w.memory
  rw [← hmemory] at hreserves hnames
  refine ⟨harena, hevents, hreserves, fun x hx => ?_⟩
  obtain ⟨shape, hshape, hx⟩ := Tree.mem_names_iff.1 hx
  obtain ⟨c, n, hc, hn, rfl⟩ := h.unfolds.mem_shapes_iff.1 hshape
  exact hnames c n ((hcovers c n).2 ⟨hc, hn⟩) x hx

theorem gives_survey {w : Workspace Memory} (h : w.arena.WellFormed id t) :
    (PassM.walk (fun a => Visitor.gather (Memory.survey a)) id : PassM Memory Unit).Gives w
      fun _ w' => w'.arena = w.arena ∧ w'.events = w.events ∧
        Memory.Reserves w.memory w'.memory ∧ ∀ x ∈ t.names, x ∈ w'.memory.namer.reserved :=
  gives_survey_of_walkable h.walkable

/-- A survey that succeeds has seen a whole tree. -/
theorem exists_walkable_of_survey {w w' : Workspace Memory}
    (h : (PassM.walk (fun a => Visitor.gather (Memory.survey a)) id : PassM Memory Unit) w =
      .ok () w') : ∃ t, w.arena.Walkable id t := by
  simp only [PassM.walk] at h
  split at h
  · next hwalk => exact Visitor.exists_walkable_of_walkWithin hwalk
  · cases h

end Extraction

end TensorRecipe
