import TensorRecipe.Proofs.Extraction.Visits
import TensorRecipe.Proofs.Pass.Sequences

/-!
# Which visits are made

`Calls` says which visits the rule makes right below a node, and inside which scopes: a sum that is
known is not gone into.  It makes no others (`rule_congr`).  `Enters` says which visits are made
below a visit, by their positions.  These are all: whatever does in each of them what the rule does
comes to the same (`Call.run_unique`).

`Ran` lists the ways in which the rule can go through a node, with all that is done besides the
visits (`ran_of_rule`).
-/

namespace TensorRecipe

open PassM

/-- Sums, loops, lets and recipes have rules of their own; any other node is rebuilt. -/
def Node.IsRebuilt : Node → Prop
  | .indexSum _ _ | .forAll _ _ | .letIn _ _ | .recipe _ => False
  | _ => True

namespace Extraction

/-- A visit: how deep it may go, what it is of, the scopes around it, and the workspace it begins
in. -/
structure Call where
  depth : Nat
  id : NodeId
  scopes : List Scope
  start : Workspace Memory

/-- The visit itself. -/
def Call.run (c : Call) : EStateM.Result Fault (Workspace Memory) (NodeId × List Scope) :=
  rule.transformWithin c.depth c.id c.scopes c.start

/-- The visits that the rule makes right below a node `id`, begun in the workspace `w`: it visits the
`k`-th child `c` inside the scopes `inner`, and that begins in the workspace `v`. -/
inductive Calls (visit : ScopedVisit) (id : NodeId) (scopes : List Scope) (w : Workspace Memory) :
    Node → Nat → NodeId → List Scope → Workspace Memory → Prop where
  | loop {indices : List Index} {body : NodeId} {inner : List Scope} {v : Workspace Memory}
    (opened : openScope indices [] scopes w = .ok inner v) :
    Calls visit id scopes w (.forAll indices body) 0 body inner v
  /-- Only a sum that a let binds or that is not known is gone into. -/
  | sum {indices : List Index} {body : NodeId} {inner : List Scope} {v : Workspace Memory}
    (new : id ∈ w.memory.bound ∨ ∃ n, bindingSerial scopes id w.arena = .ok n ∧
      w.memory.region.find? (id, n) = none)
    (opened : openScope indices [] scopes w = .ok inner v) :
    Calls visit id scopes w (.indexSum indices body) 0 body inner v
  | letIn {bindings done : List Binding} {body c : NodeId} {names : List String} {k : Nat}
    {u v : Workspace Memory} {inner : List Scope}
    (child : (Node.letIn bindings body).children[k]? = some c)
    (before : visitValues visit scopes (bindings.take k) [] w = .ok (done, names) u)
    (opened : openScope [] names scopes u = .ok inner v) :
    Calls visit id scopes w (.letIn bindings body) k c inner v
  | recipe {r : Recipe} {outer : Region} {v : Workspace Memory}
    (emptied : exchangeRegion .empty w = .ok outer v) :
    Calls visit id scopes w (.recipe r) 0 r.body scopes v
  | part {node : Node} {k : Nat} {c : NodeId} {done : List NodeId} {passed : List Scope}
    {v : Workspace Memory} (rebuilt : node.IsRebuilt) (child : node.children[k]? = some c)
    (before : visit.all (node.children.take k) scopes w = .ok (done, passed) v) :
    Calls visit id scopes w node k c passed v

/-- The visit that a visit makes right below it, of the `k`-th child. -/
inductive Call.Makes : Call → Nat → Call → Prop where
  | intro {depth k : Nat} {id child : NodeId} {scopes inner : List Scope} {w v : Workspace Memory}
    {node : Node} (get : w.arena.get id = .ok node)
    (call : Calls (rule.transformWithin depth) id scopes w node k child inner v) :
    Makes ⟨depth + 1, id, scopes, w⟩ k ⟨depth, child, inner, v⟩

/-- The visits that are made below a visit, by the positions in its tree. -/
inductive Enters : Call → List Nat → Call → Prop where
  | here (c : Call) : Enters c [] c
  | down {a b c : Call} {k : Nat} {p : List Nat} (call : a.Makes k b) (enters : Enters b p c) :
    Enters a (k :: p) c

variable {visit : ScopedVisit} {id c c' : NodeId} {scopes inner inner' : List Scope} {node : Node}
  {j k : Nat} {w v v' u : Workspace Memory}

theorem Calls.unique (h : Calls visit id scopes w node k c inner v)
    (h' : Calls visit id scopes w node k c' inner' v') : c = c' ∧ inner = inner' ∧ v = v' := by
  cases h with
  | loop opened =>
    cases h' with
    | loop opened' => cases opened.symm.trans opened'; exact ⟨rfl, rfl, rfl⟩
    | part rebuilt => exact rebuilt.elim
  | sum _ opened =>
    cases h' with
    | sum _ opened' => cases opened.symm.trans opened'; exact ⟨rfl, rfl, rfl⟩
    | part rebuilt => exact rebuilt.elim
  | letIn child before opened =>
    cases h' with
    | letIn child' before' opened' =>
      cases child.symm.trans child'
      cases before.symm.trans before'
      cases opened.symm.trans opened'
      exact ⟨rfl, rfl, rfl⟩
    | part rebuilt => exact rebuilt.elim
  | recipe emptied =>
    cases h' with
    | recipe emptied' => cases emptied.symm.trans emptied'; exact ⟨rfl, rfl, rfl⟩
    | part rebuilt => exact rebuilt.elim
  | part rebuilt child before =>
    cases h' with
    | part _ child' before' =>
      cases child.symm.trans child'
      cases before.symm.trans before'
      exact ⟨rfl, rfl, rfl⟩
    | _ => exact rebuilt.elim

theorem Call.Makes.unique {a b b' : Call} (h : a.Makes k b) (h' : a.Makes k b') : b = b' := by
  cases h with
  | intro get call =>
    cases h' with
    | intro get' call' =>
      cases get.symm.trans get'
      obtain ⟨rfl, rfl, rfl⟩ := call.unique call'
      rfl

theorem Enters.unique {top a b : Call} {p : List Nat} (h : Enters top p a) (h' : Enters top p b) :
    a = b := by
  induction h with
  | here => cases h'; rfl
  | down call _ ih =>
    cases h' with
    | down call' enters' =>
      obtain rfl := call.unique call'
      exact ih enters'

theorem Enters.snoc {top a b : Call} {p : List Nat} (h : Enters top p a) (call : a.Makes k b) :
    Enters top (p ++ [k]) b := by
  induction h with
  | here => exact .down call (.here b)
  | down first _ ih => exact .down first (ih call)

/-- The body of a recipe is visited right away, but nothing is known there. -/
theorem Call.Makes.start_of_recipe {a b : Call} {r : Recipe} (call : a.Makes k b)
    (hnode : a.start.arena.get a.id = .ok (.recipe r)) : k = 0 ∧
      b.start = { a.start with memory := { a.start.memory with region := .empty } } := by
  cases call with
  | intro get call =>
    cases get.symm.trans hnode
    cases call with
    | recipe emptied => exact ⟨rfl, (gives_exchangeRegion.ensures _ _ emptied).2⟩
    | part rebuilt _ _ => exact rebuilt.elim

/-! ### What is done besides visits -/

/-- The arena may have grown, and scopes may have been opened; nothing else has happened. -/
structure Quiet (w w' : Workspace Memory) : Prop where
  arena : w.arena.Extends w'.arena
  events : w'.events = w.events
  memory : w'.memory = { w.memory with lastScope := w'.memory.lastScope }
  lastScope : w.memory.lastScope ≤ w'.memory.lastScope

theorem Quiet.of_arena {w' : Workspace Memory} (h : w.arena.Extends w'.arena)
    (hw : w' = { w with arena := w'.arena }) : Quiet w w' := by
  refine ⟨h, ?_, ?_, ?_⟩ <;> rw [hw]

theorem ensures_openScope_quiet {indices : List Index} {names : List String} :
    (openScope indices names scopes).Ensures w fun inner w' => Quiet w w' ∧ ∃ s : Scope,
      inner = s :: scopes ∧ s.serial = w.memory.lastScope + 1 ∧ w'.memory.lastScope = s.serial ∧
        s.binder = ⟨indices ++ indices.flatMap w.arena.factors, names⟩ := by
  refine (givesIf_openScope fun h : False => h.elim).ensures.mono ?_
  rintro _ w' ⟨s, rfl, hserial, hbinder, hw'⟩
  refine ⟨⟨?_, by rw [hw'], by rw [hw'], ?_⟩, s, rfl, hserial, by rw [hw'], hbinder⟩
  · rw [hw']
    exact .refl _
  · rw [hw']
    exact hserial ▸ Nat.le_succ _

theorem ensures_addUnless_quiet {unchanged : Prop} [Decidable unchanged] {new : Node} :
    (addUnless unchanged id new).Ensures w fun _ w' => Quiet w w' :=
  (gives_addUnless_get _ _ _).ensures.mono fun _ _ ⟨hext, hw', _⟩ => .of_arena hext hw'

theorem ensures_setChildren_quiet {news : List NodeId} :
    (setChildren id node news).Ensures w fun _ w' => Quiet w w' := by
  unfold setChildren
  split
  · exact ensures_pure (.of_arena (.refl _) rfl)
  · refine ensures_ask_bind fun new _ => gives_addNode.ensures.mono ?_
    rintro _ w' ⟨-, rfl⟩
    exact .of_arena (.addNode _ _) rfl

/-- What has become of a sum that was not known: it is a reduction with a name of its own. -/
structure Extracts (id : NodeId) (scopes : List Scope) (w u w' : Workspace Memory) (n : Nat)
    (name : String) (value new : NodeId) : Prop where
  unbound : id ∉ w.memory.bound
  serial : bindingSerial scopes id w.arena = .ok n
  unknown : w.memory.region.find? (id, n) = none
  mints : Mints u w' name (id, n) value
  answer : w'.arena.get new = .ok (.var name)

/-- The ways in which the rule can go through a node, if it succeeds. -/
inductive Ran (visit : ScopedVisit) (id : NodeId) (scopes : List Scope) (w w' : Workspace Memory)
    (new : NodeId) : Node → Prop where
  | loop {node : Node} {indices : List Index} {body : NodeId} {inner : List Scope}
    {v v' : Workspace Memory} {r : NodeId × List Scope}
    (loop : node = .forAll indices body ∨ node = .indexSum indices body ∧ id ∈ w.memory.bound)
    (opened : openScope indices [] scopes w = .ok inner v)
    (visited : visit body inner v = .ok r v') (after : Quiet v' w') : Ran visit id scopes w w' new node
  | known {indices : List Index} {body : NodeId} {n : Nat} {name : String}
    (unbound : id ∉ w.memory.bound) (serial : bindingSerial scopes id w.arena = .ok n)
    (found : w.memory.region.find? (id, n) = some name) (after : Quiet w w')
    (answer : w'.arena.get new = .ok (.var name)) :
    Ran visit id scopes w w' new (.indexSum indices body)
  | extracted {indices : List Index} {body value : NodeId} {inner : List Scope}
    {v v' u : Workspace Memory} {r : NodeId × List Scope} {n : Nat} {name : String}
    (opened : openScope indices [] scopes w = .ok inner v)
    (visited : visit body inner v = .ok r v') (after : Quiet v' u)
    (extracts : Extracts id scopes w u w' n name value new) :
    Ran visit id scopes w w' new (.indexSum indices body)
  | letIn {bindings done : List Binding} {body : NodeId} {names : List String}
    {inner : List Scope} {u v v' : Workspace Memory} {r : NodeId × List Scope}
    (values : visitValues visit scopes bindings [] w = .ok (done, names) u)
    (opened : openScope [] names scopes u = .ok inner v)
    (visited : visit body inner v = .ok r v') (after : Quiet v' w') :
    Ran visit id scopes w w' new (.letIn bindings body)
  | recipe {r : Recipe} {outer : Region} {v v' u : Workspace Memory} {body body' : NodeId}
    {passed : List Scope} (emptied : exchangeRegion .empty w = .ok outer v)
    (visited : visit r.body scopes v = .ok (body, passed) v')
    (placed : bindTemporaries v'.memory.region.pending body
      { v' with memory := { v'.memory with region := w.memory.region } } = .ok body' u)
    (after : Quiet u w') : Ran visit id scopes w w' new (.recipe r)
  | part {node : Node} {news : List NodeId} {passed : List Scope} {v : Workspace Memory}
    (rebuilt : node.IsRebuilt) (visited : visit.all node.children scopes w = .ok (news, passed) v)
    (after : Quiet v w') : Ran visit id scopes w w' new node

theorem ran_visitLoop {indices : List Index} (hchildren : node.children = [c])
    (hloop : node = .forAll indices c ∨ node = .indexSum indices c ∧ id ∈ w.memory.bound)
    {r : NodeId × List Scope} (h : visitLoop indices visit id node scopes w = .ok r v) :
    Ran visit id scopes w v r.1 node := by
  simp only [visitLoop, Rule.rebuild, hchildren, Visit.all, bind_assoc, pure_bind] at h
  obtain ⟨inner, u, hopen, h⟩ := ok_of_bind_eq_ok h
  obtain ⟨new, v', hvisited, h⟩ := ok_of_bind_eq_ok h
  obtain ⟨id', w', hset, h⟩ := ok_of_bind_eq_ok h
  cases h
  exact .loop hloop hopen hvisited (ensures_setChildren_quiet _ _ hset)

theorem ran_rebuild {r : NodeId × List Scope}
    (h : Rule.rebuild visit id node scopes w = .ok r v) (hrebuilt : node.IsRebuilt) :
    Ran visit id scopes w v r.1 node := by
  obtain ⟨⟨news, passed⟩, u, hall, h⟩ := ok_of_bind_eq_ok h
  obtain ⟨new, v', hset, h⟩ := ok_of_bind_eq_ok h
  cases h
  exact .part hrebuilt hall (ensures_setChildren_quiet _ _ hset)

theorem ran_extractSum {indices : List Index} {body new : NodeId} {n : Nat}
    (hbound : id ∉ w.memory.bound) (hn : bindingSerial scopes id w.arena = .ok n)
    (hnone : w.memory.region.find? (id, n) = none)
    (h : extractSum indices body visit id n scopes w = .ok new v) :
    Ran visit id scopes w v new (.indexSum indices body) := by
  obtain ⟨inner, w₁, hopen, h⟩ := ok_of_bind_eq_ok h
  obtain ⟨⟨value, _⟩, w₂, hvisited, h⟩ := ok_of_bind_eq_ok h
  obtain ⟨value', w₃, hadded, h⟩ := ok_of_bind_eq_ok h
  obtain ⟨name, hmints, hnew⟩ := gives_mint.ensures _ _ h
  obtain ⟨node, hget, hshape, -⟩ := hnew.get
  obtain rfl := Node.eq_var hshape
  exact .extracted hopen hvisited (ensures_addUnless_quiet _ _ hadded)
    ⟨hbound, hn, hnone, hmints, hget⟩

theorem ran_visitSum {indices : List Index} {body : NodeId} {r : NodeId × List Scope}
    (h : visitSum indices body visit id scopes w = .ok r v) :
    Ran visit id scopes w v r.1 (.indexSum indices body) := by
  obtain ⟨m, w₁, hm, h⟩ := ok_of_bind_eq_ok h
  cases hm
  split at h
  · next hbound => exact ran_visitLoop rfl (.inr ⟨rfl, hbound⟩) h
  · next hbound =>
    obtain ⟨n, w₂, hask, h⟩ := ok_of_bind_eq_ok h
    obtain ⟨hn, rfl⟩ := of_ask_eq_ok hask
    cases hfind : w₂.memory.region.find? (id, n) with
    | some name =>
      rw [hfind] at h
      obtain ⟨new, w₃, hadd, h⟩ := ok_of_bind_eq_ok h
      cases h
      obtain ⟨rfl, rfl⟩ := gives_addNode.ensures _ _ hadd
      exact .known hbound hn hfind (.of_arena (.addNode _ _) rfl) (Arena.get_nextId_addNode _ _)
    | none =>
      rw [hfind] at h
      obtain ⟨new, w₃, hextract, h⟩ := ok_of_bind_eq_ok h
      cases h
      exact ran_extractSum hbound hn hfind hextract

theorem ran_visitLet {bindings : List Binding} {body : NodeId} {r : NodeId × List Scope}
    (h : visitLet bindings body visit id scopes w = .ok r v) :
    Ran visit id scopes w v r.1 (.letIn bindings body) := by
  obtain ⟨⟨done, names⟩, w₁, hvalues, h⟩ := ok_of_bind_eq_ok h
  obtain ⟨inner, w₂, hopen, h⟩ := ok_of_bind_eq_ok h
  obtain ⟨⟨new, _⟩, w₃, hvisited, h⟩ := ok_of_bind_eq_ok h
  obtain ⟨id', w₄, hadded, h⟩ := ok_of_bind_eq_ok h
  cases h
  exact .letIn hvalues hopen hvisited (ensures_addUnless_quiet _ _ hadded)

theorem ran_visitRecipe {q : Recipe} {r : NodeId × List Scope}
    (h : visitRecipe q visit id scopes w = .ok r v) : Ran visit id scopes w v r.1 (.recipe q) := by
  obtain ⟨outer, w₁, hemptied, h⟩ := ok_of_bind_eq_ok h
  obtain ⟨⟨body, _⟩, w₂, hvisited, h⟩ := ok_of_bind_eq_ok h
  obtain ⟨inner, w₃, hback, h⟩ := ok_of_bind_eq_ok h
  obtain ⟨new, w₄, hplaced, h⟩ := ok_of_bind_eq_ok h
  obtain ⟨id', w₅, hadded, h⟩ := ok_of_bind_eq_ok h
  cases h
  obtain ⟨rfl, -⟩ := gives_exchangeRegion.ensures _ _ hemptied
  obtain ⟨rfl, rfl⟩ := gives_exchangeRegion.ensures _ _ hback
  exact .recipe hemptied hvisited hplaced (ensures_addUnless_quiet _ _ hadded)

/-- Nothing else can become of a node. -/
theorem ran_of_rule {r : NodeId × List Scope} {w' : Workspace Memory}
    (h : rule visit id node scopes w = .ok r w') : Ran visit id scopes w w' r.1 node := by
  cases node with
  | forAll indices body => exact ran_visitLoop rfl (.inl rfl) h
  | indexSum indices body => exact ran_visitSum h
  | letIn bindings body => exact ran_visitLet h
  | recipe q => exact ran_visitRecipe h
  | _ => exact ran_rebuild h trivial

/-! ### No other visits -/

/-- The value of a binding is visited in a scope of the names before it. -/
def visitValue (visit : ScopedVisit) (scopes : List Scope) (b : Binding) (names : List String) :
    PassM Memory (Binding × List String) := do
  let inner ← openScope [] names scopes
  let (value, _) ← visit b.value inner
  return ({ b with value }, b.name :: names)

theorem visitValues_eq_through (bindings : List Binding) (names : List String) :
    visitValues visit scopes bindings names = through (visitValue visit scopes) bindings names := by
  induction bindings generalizing names with
  | nil => rfl
  | cons b bindings ih => simp only [visitValues, through, visitValue, bind_assoc, pure_bind, ih]

theorem getElem?_children_letIn {bindings : List Binding} {body : NodeId} {b : Binding}
    (hb : bindings[k]? = some b) : (Node.letIn bindings body).children[k]? = some b.value := by
  have hlt := (List.getElem?_eq_some_iff.1 hb).1
  rw [Node.children, List.getElem?_append_left (by simpa using hlt), List.getElem?_map, hb]
  rfl

theorem children_letIn_cases {bindings : List Binding} {body : NodeId}
    (h : (Node.letIn bindings body).children[k]? = some c) :
    (∃ b, bindings[k]? = some b ∧ b.value = c) ∨ k = bindings.length ∧ body = c := by
  rw [Node.children, List.getElem?_append] at h
  split at h
  · rw [List.getElem?_map, Option.map_eq_some_iff] at h
    exact .inl h
  · obtain ⟨hk, hc⟩ := List.getElem?_eq_some_iff.1 h
    rw [List.length_singleton] at hk
    refine .inr ⟨?_, by simpa using hc⟩
    rw [List.length_map] at *
    omega

section

variable {visit' : ScopedVisit}

theorem rebuild_congr (hrebuilt : node.IsRebuilt)
    (h : ∀ k c inner v, Calls visit id scopes w node k c inner v →
      visit c inner v = visit' c inner v) :
    Rule.rebuild visit id node scopes w = Rule.rebuild visit' id node scopes w := by
  refine bind_congr_at ?_ fun _ _ _ => rfl
  rw [Visit.all_eq_through, Visit.all_eq_through]
  refine through_congr fun k c done passed v hc hbefore => ?_
  rw [← Visit.all_eq_through] at hbefore
  exact h k c passed v (.part hrebuilt hc hbefore)

theorem visitLoop_congr {indices : List Index} (hchildren : node.children = [c])
    (h : ∀ inner v, openScope indices [] scopes w = .ok inner v →
      visit c inner v = visit' c inner v) :
    visitLoop indices visit id node scopes w = visitLoop indices visit' id node scopes w := by
  simp only [visitLoop, Rule.rebuild, hchildren, Visit.all, bind_assoc, pure_bind]
  exact bind_congr_at rfl fun inner v hopen => bind_congr_at (h inner v hopen) fun _ _ _ => rfl

theorem visitSum_congr {indices : List Index} {body : NodeId}
    (h : ∀ k c inner v, Calls visit id scopes w (.indexSum indices body) k c inner v →
      visit c inner v = visit' c inner v) :
    visitSum indices body visit id scopes w = visitSum indices body visit' id scopes w := by
  refine bind_congr_at rfl ?_
  rintro _ v hm
  cases hm
  split
  · next hbound =>
    exact visitLoop_congr rfl fun inner v hopen => h 0 body inner v (.sum (.inl hbound) hopen)
  · refine bind_congr_at rfl fun n v hask => ?_
    obtain ⟨hn, rfl⟩ := of_ask_eq_ok hask
    cases hnone : v.memory.region.find? (id, n) with
    | some name => rfl
    | none =>
      refine bind_congr_at (bind_congr_at rfl fun inner u hopen => ?_) fun _ _ _ => rfl
      exact bind_congr_at (h 0 body inner u (.sum (.inr ⟨n, hn, hnone⟩) hopen)) fun _ _ _ => rfl

theorem visitLet_congr {bindings : List Binding} {body : NodeId}
    (h : ∀ k c inner v, Calls visit id scopes w (.letIn bindings body) k c inner v →
      visit c inner v = visit' c inner v) :
    visitLet bindings body visit id scopes w = visitLet bindings body visit' id scopes w := by
  have hvalues : visitValues visit scopes bindings [] w =
      visitValues visit' scopes bindings [] w := by
    rw [visitValues_eq_through, visitValues_eq_through]
    refine through_congr fun k b done names v hb hbefore => ?_
    rw [← visitValues_eq_through] at hbefore
    exact bind_congr_at rfl fun inner v' hopen =>
      bind_congr_at (h _ _ _ _ (.letIn (getElem?_children_letIn hb) hbefore hopen)) fun _ _ _ => rfl
  have hlast : (Node.letIn bindings body).children[bindings.length]? = some body := by
    simp [Node.children]
  refine bind_congr_at hvalues ?_
  rintro ⟨done, names⟩ u hbefore
  refine bind_congr_at rfl fun inner v hopen =>
    bind_congr_at (h _ _ _ _ (.letIn hlast (by rwa [List.take_length]) hopen)) fun _ _ _ => rfl

/-- The rule makes no other visits: it does the same with any other way to make these. -/
theorem rule_congr (h : ∀ k c inner v, Calls visit id scopes w node k c inner v →
      visit c inner v = visit' c inner v) :
    rule visit id node scopes w = rule visit' id node scopes w := by
  cases node with
  | forAll indices body => exact visitLoop_congr rfl fun inner v hopen => h _ _ _ _ (.loop hopen)
  | indexSum indices body => exact visitSum_congr h
  | letIn bindings body => exact visitLet_congr h
  | recipe r =>
    exact bind_congr_at rfl fun outer v hemptied =>
      bind_congr_at (h _ _ _ _ (.recipe hemptied)) fun _ _ _ => rfl
  | _ => exact rebuild_congr trivial h

end

/-- What a visit comes to if it follows the rule, and the trees below are visited as `visits` says,
told how deep that may go. -/
def Call.step (visits : Nat → ScopedVisit) (c : Call) :
    EStateM.Result Fault (Workspace Memory) (NodeId × List Scope) :=
  match c.depth with
  | 0 => c.run
  | depth + 1 => (ask (·.get c.id) >>= fun node => rule (visits depth) c.id node c.scopes) c.start

/-- A visit is determined by the visits made below it. -/
theorem Call.run_unique {visits : Nat → ScopedVisit} {top : Call}
    (h : ∀ p c, Enters top p c → visits c.depth c.id c.scopes c.start = c.step visits) :
    visits top.depth top.id top.scopes top.start = top.run := by
  obtain ⟨depth, id, scopes, w⟩ := top
  induction depth generalizing id scopes w with
  | zero => exact h [] _ (.here _)
  | succ depth ih =>
    refine (h [] _ (.here _)).trans (bind_congr_at rfl fun node v hask => ?_)
    obtain ⟨hget, rfl⟩ := of_ask_eq_ok hask
    refine (rule_congr fun k child inner v hcall => ?_).symm
    exact (ih _ _ _ fun p c hc => h (k :: p) c (.down (.intro hget hcall) hc)).symm

end Extraction

end TensorRecipe
