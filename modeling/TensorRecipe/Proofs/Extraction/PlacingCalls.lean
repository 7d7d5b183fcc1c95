import TensorRecipe.Extraction.Plan
import TensorRecipe.Proofs.Pass.Sequences

/-!
# Which calls placing makes

`Placing` is a call of `Plan.placeWithin`.  Right inside it placing is called for each child of the
node, one after another (`Visits`), and for the value of each temporary that is complete at the node,
round after round (`Fetches`); it is called for nothing else (`placeWithin_congr`).  `Enters` says
which calls are made in the course of another.  These are all: whatever does the same as placing right
inside each of them does the same altogether (`Placing.run_unique`).
-/

namespace TensorRecipe

namespace Extraction

open PassM

/-! ### Calls -/

/-- A call: how deep it may go, whether a bare reference is a place, the node, and the workspace it
begins in. -/
structure Placing where
  depth : Nat
  isBody : Bool
  id : NodeId
  start : Workspace (List Nat)

/-- Where the rounds of binding at a node stand: the uses that have been seen, and the workspace. -/
abbrev Standing : Type := Tally × Workspace (List Nat)

/-- A round that finds something complete, and places it. -/
def Plan.Round (p : Plan) (place : NodeId → PlaceM (NodeId × Tally)) (around : NodeId)
    (s s' : Standing) : Prop :=
  p.complete s.1 s.2.memory ≠ [] ∧ ∃ values,
    p.placeValues place around (p.complete s.1 s.2.memory) s.1 s.2 = .ok (values, s'.1) s'.2

/-- So many rounds, one after another. -/
inductive Plan.Rounds (p : Plan) (place : NodeId → PlaceM (NodeId × Tally)) (around : NodeId) :
    Nat → Standing → Standing → Prop where
  | none (s : Standing) : Rounds p place around 0 s s
  | more {n : Nat} {s s' s'' : Standing} (rounds : Rounds p place around n s s')
    (round : p.Round place around s' s'') : Rounds p place around (n + 1) s s''

/-- The numbers of the temporaries that have no place. -/
def Plan.unplaced (p : Plan) (placed : List Nat) : List Nat :=
  (List.range p.temporaries.length).filter (· ∉ placed)

namespace Placing

variable (p : Plan)

/-- The call itself. -/
def run (c : Placing) : EStateM.Result Fault (Workspace (List Nat)) (NodeId × Tally) :=
  p.placeWithin c.depth c.isBody c.id c.start

/-- The call is for a bare reference to a temporary. -/
def IsReference (c : Placing) : Prop :=
  ∃ node t, c.start.arena.get c.id = .ok node ∧ Plan.refersTo? p.temporaries node = some t

/-- A call makes another for a child of its node, once the children before are placed. -/
inductive Visits : Placing → Placing → Prop where
  | intro {depth k : Nat} {isBody : Bool} {id c : NodeId} {w v : Workspace (List Nat)}
    {node : Node} {done : List NodeId × Tally} (get : w.arena.get id = .ok node)
    (inner : Plan.refersTo? p.temporaries node = none) (child : node.children[k]? = some c)
    (before : Plan.placeChildren (p.placeWithin depth (isScope node)) (node.children.take k) w =
      .ok done v) :
    Visits ⟨depth + 1, isBody, id, w⟩ ⟨depth, isScope node, c, v⟩

/-- A call goes on to bind what is complete around a node, having seen these uses: around the
reference it is for, or around its node, once the children are placed.  What it calls then may go so
deep. -/
inductive Closes : Placing → Nat → NodeId → Standing → Prop where
  | reference {depth t : Nat} {id : NodeId} {w : Workspace (List Nat)} {node : Node}
    (get : w.arena.get id = .ok node) (refers : Plan.refersTo? p.temporaries node = some t) :
    Closes ⟨depth + 1, true, id, w⟩ depth id ([(t, 1)], w)
  | node {depth : Nat} {isBody : Bool} {id around : NodeId} {w v u : Workspace (List Nat)}
    {node : Node} {children : List NodeId} {uses : Tally} (get : w.arena.get id = .ok node)
    (inner : Plan.refersTo? p.temporaries node = none)
    (placed : Plan.placeChildren (p.placeWithin depth (isScope node)) node.children w =
      .ok (children, uses) v)
    (made : setChildren id node children v = .ok around u) :
    Closes ⟨depth + 1, isBody, id, w⟩ depth around (uses, u)

/-- A call makes another for the value of the temporary `t`, which is complete after some rounds, once
what is complete with it and comes before it is placed. -/
inductive Fetches : Placing → Nat → Placing → Prop where
  | intro {c : Placing} {depth n k t : Nat} {around : NodeId} {s s' : Standing} {x : Temporary}
    {done : List (Nat × NodeId) × Tally} {u : Workspace (List Nat)}
    (closes : c.Closes p depth around s)
    (rounds : p.Rounds (p.placeWithin depth false) around n s s')
    (complete : (p.complete s'.1 s'.2.memory)[k]? = some t)
    (before : p.placeValues (p.placeWithin depth false) around
      ((p.complete s'.1 s'.2.memory).take k) s'.1 s'.2 = .ok done u)
    (found : p.temporaries[t]? = some x) :
    Fetches c t ⟨depth, false, x.value, { u with memory := t :: u.memory }⟩

/-- A call is made in the course of another. -/
inductive Enters : Placing → Placing → Prop where
  | here (c : Placing) : Enters c c
  | child {top c d : Placing} (enters : Enters top c) (visits : c.Visits p d) : Enters top d
  | value {top c d : Placing} {t : Nat} (enters : Enters top c) (fetches : c.Fetches p t d) :
    Enters top d

end Placing

/-- The call for the body of a whole region. -/
def Plan.whole (p : Plan) (body : NodeId) (w : Workspace (List Nat)) : Placing :=
  ⟨(p.temporaries.length + 1) * (w.arena.size + 1), true, body, w⟩

theorem Plan.le_length_unplaced (p : Plan) (placed : List Nat) :
    p.temporaries.length ≤ (p.unplaced placed).length + placed.length := by
  have hsub : List.range p.temporaries.length ⊆ p.unplaced placed ++ placed := by
    intro k hk
    by_cases hmem : k ∈ placed
    · exact List.mem_append_right _ hmem
    · exact List.mem_append_left _ (List.mem_filter.2 ⟨hk, by simpa using hmem⟩)
  simpa using (List.nodup_range.subperm hsub).length_le

/-! ### No other calls -/

namespace Plan

variable (p : Plan)

/-- What is done in a call, with whatever is called right inside it. -/
def placeNode (place : Bool → NodeId → PlaceM (NodeId × Tally)) (isBody : Bool) (id : NodeId) :
    PlaceM (NodeId × Tally) := do
  let node ← ask (·.get id)
  match refersTo? p.temporaries node with
  | some t => if isBody then p.bindComplete (place false) id [(t, 1)] else return (id, [(t, 1)])
  | none =>
    let (children, uses) ← placeChildren (place (isScope node)) node.children
    let id ← setChildren id node children
    p.bindComplete (place false) id uses

theorem placeWithin_succ (depth : Nat) : p.placeWithin (depth + 1) = p.placeNode (p.placeWithin depth) :=
  rfl

variable {p} {place place' : NodeId → PlaceM (NodeId × Tally)} {around : NodeId}

theorem placeChildren_cons_of_ok {id : NodeId} {ids : List NodeId} {w w₁ w₂ : Workspace (List Nat)}
    {r : NodeId × Tally} {rs : List NodeId × Tally} (h : place id w = .ok r w₁)
    (hs : placeChildren place ids w₁ = .ok rs w₂) :
    placeChildren place (id :: ids) w = .ok (r.1 :: rs.1, r.2.merge rs.2) w₂ := by
  rw [placeChildren, bind_of_ok h]
  exact (bind_of_ok hs).trans rfl

theorem placeChildren_congr {ids : List NodeId} {w : Workspace (List Nat)}
    (h : ∀ (k : Nat) id done v, ids[k]? = some id →
      placeChildren place (ids.take k) w = .ok done v → place id v = place' id v) :
    placeChildren place ids w = placeChildren place' ids w := by
  induction ids generalizing w with
  | nil => rfl
  | cons id ids ih =>
    refine bind_congr_at (h 0 id _ w rfl rfl) fun r w₁ hr => bind_congr_at ?_ fun _ _ _ => rfl
    exact ih fun k id' done v hk hdone =>
      h (k + 1) id' _ v hk (placeChildren_cons_of_ok hr hdone)

theorem placeValues_congr {ts : List Nat} {uses : Tally} {w : Workspace (List Nat)}
    (h : ∀ (k : Nat) t x done u, ts[k]? = some t →
      p.placeValues place around (ts.take k) uses w = .ok done u → p.temporaries[t]? = some x →
      place x.value { u with memory := t :: u.memory } =
        place' x.value { u with memory := t :: u.memory }) :
    p.placeValues place around ts uses w = p.placeValues place' around ts uses w := by
  induction ts generalizing uses w with
  | nil => rfl
  | cons t ts ih =>
    unfold placeValues
    refine bind_congr_at rfl fun _ w₁ hw₁ => ?_
    cases hw₁
    cases ht : p.temporaries[t]? with
    | none =>
      refine ih fun k t' x done u hk hdone hx => h (k + 1) t' x done u hk ?_ hx
      rw [List.take_succ_cons, placeValues, ht]
      exact hdone
    | some temporary =>
      refine bind_congr_at (h 0 t temporary _ w rfl rfl ht) fun r w₂ hr => ?_
      refine bind_congr_at rfl fun _ w₃ hw₃ => bind_congr_at ?_ fun _ _ _ => rfl
      refine ih fun k t' x done u hk hdone hx =>
        h (k + 1) t' x ((t, r.1) :: done.1, done.2) u hk ?_ hx
      rw [List.take_succ_cons, placeValues, ht]
      refine (bind_of_ok rfl).trans ((bind_of_ok hr).trans ((bind_of_ok hw₃).trans ?_))
      exact (bind_of_ok hdone).trans rfl

theorem Rounds.after {n : Nat} {s s' s'' : Standing} (round : p.Round place around s s')
    (h : p.Rounds place around n s' s'') : p.Rounds place around (n + 1) s s'' := by
  induction h with
  | none => exact .more (.none s) round
  | more _ last ih => exact .more (ih round) last

theorem placeComplete_congr {rounds : Nat} {uses : Tally} {w : Workspace (List Nat)}
    (h : ∀ (n k : Nat) s t x done u, p.Rounds place around n (uses, w) s →
      (p.complete s.1 s.2.memory)[k]? = some t →
      p.placeValues place around ((p.complete s.1 s.2.memory).take k) s.1 s.2 = .ok done u →
      p.temporaries[t]? = some x →
      place x.value { u with memory := t :: u.memory } =
        place' x.value { u with memory := t :: u.memory }) :
    p.placeComplete place around rounds uses w = p.placeComplete place' around rounds uses w := by
  induction rounds generalizing uses w with
  | zero => rfl
  | succ rounds ih =>
    unfold placeComplete
    refine bind_congr_at rfl fun placed w₁ hw₁ => ?_
    cases hw₁
    have hfirst : p.placeValues place around (p.complete uses w.memory) uses w =
        p.placeValues place' around (p.complete uses w.memory) uses w :=
      placeValues_congr fun k t x done u hk hdone hx => h 0 k _ t x done u (.none _) hk hdone hx
    have hround : p.complete uses w.memory ≠ [] → ∀ r w₂,
        p.placeValues place around (p.complete uses w.memory) uses w = .ok r w₂ →
        p.placeComplete place around rounds r.2 w₂ = p.placeComplete place' around rounds r.2 w₂ :=
      fun hne r w₂ hr => ih fun n k s t x done u hrounds =>
        h (n + 1) k s t x done u (.after ⟨hne, r.1, hr⟩ hrounds)
    dsimp only
    generalize p.complete uses w.memory = ts at hfirst hround
    cases ts with
    | nil => rfl
    | cons t ts =>
      exact bind_congr_at hfirst fun r w₂ hr =>
        bind_congr_at (hround (by simp) r w₂ hr) fun _ _ _ => rfl

/-- What the rounds come to: after the last of them nothing is complete, unless there are no more
rounds to be had. -/
theorem rounds_of_placeComplete {rounds : Nat} {s : Standing} {r : List (Nat × NodeId) × Tally}
    {w : Workspace (List Nat)} (h : p.placeComplete place around rounds s.1 s.2 = .ok r w) :
    ∃ n, p.Rounds place around n s (r.2, w) ∧ (p.complete r.2 w.memory = [] ∨ n = rounds) := by
  induction rounds generalizing s r with
  | zero =>
    cases h
    exact ⟨0, .none _, .inr rfl⟩
  | succ rounds ih =>
    obtain ⟨placed, w₁, hw₁, h⟩ := ok_of_bind_eq_ok h
    cases hw₁
    dsimp only at h
    generalize hts : p.complete s.1 s.2.memory = ts at h
    cases ts with
    | nil =>
      cases h
      exact ⟨0, .none _, .inl hts⟩
    | cons t ts =>
      obtain ⟨⟨values, uses⟩, w₁, hvalues, h⟩ := ok_of_bind_eq_ok h
      obtain ⟨⟨more, uses'⟩, w₂, hmore, h⟩ := ok_of_bind_eq_ok h
      cases h
      obtain ⟨n, hrounds, hlast⟩ := ih (s := (uses, w₁)) hmore
      rw [← hts] at hvalues
      exact ⟨n + 1, .after ⟨by simp [hts], values, hvalues⟩ hrounds,
        hlast.imp_right fun hn => by rw [hn]⟩

/-- Whatever agrees with placing on the calls made right inside a call does the same in it. -/
theorem placeWithin_congr {place : Bool → NodeId → PlaceM (NodeId × Tally)} {depth : Nat}
    {isBody : Bool} {id : NodeId} {w : Workspace (List Nat)}
    (hvisits : ∀ d : Placing, Placing.Visits p ⟨depth + 1, isBody, id, w⟩ d →
      d.run p = place d.isBody d.id d.start)
    (hfetches : ∀ (t : Nat) (d : Placing), Placing.Fetches p ⟨depth + 1, isBody, id, w⟩ t d →
      d.run p = place d.isBody d.id d.start) :
    p.placeWithin (depth + 1) isBody id w = p.placeNode place isBody id w := by
  have hcomplete : ∀ {around : NodeId} {uses : Tally} {v : Workspace (List Nat)},
      Placing.Closes p ⟨depth + 1, isBody, id, w⟩ depth around (uses, v) →
      p.bindComplete (p.placeWithin depth false) around uses v =
        p.bindComplete (place false) around uses v := fun hcloses =>
    bind_congr_at (placeComplete_congr fun _ _ _ t _ _ _ hrounds hk hdone hx =>
      hfetches t _ (.intro hcloses hrounds hk hdone hx)) fun _ _ _ => rfl
  rw [placeWithin_succ]
  refine bind_congr_at rfl fun node w₁ hnode => ?_
  obtain ⟨hget, rfl⟩ := of_ask_eq_ok hnode
  cases href : refersTo? p.temporaries node with
  | some t =>
    cases isBody with
    | false => rfl
    | true => exact hcomplete (.reference hget href)
  | none =>
    refine bind_congr_at (placeChildren_congr fun k c done v hk hdone =>
      hvisits _ (.intro hget href hk hdone)) fun r v hr => bind_congr_at rfl fun around u hset => ?_
    exact hcomplete (.node hget href hr hset)

end Plan

namespace Placing

variable (p : Plan)

/-- What a call comes to if `place`, told how deep it may go, is called right inside it. -/
def step (place : Nat → Bool → NodeId → PlaceM (NodeId × Tally)) (c : Placing) :
    EStateM.Result Fault (Workspace (List Nat)) (NodeId × Tally) :=
  match c.depth with
  | 0 => c.run p
  | depth + 1 => p.placeNode (place depth) c.isBody c.id c.start

variable {p}

theorem Enters.trans {c d e : Placing} (h : c.Enters p d) (h' : d.Enters p e) : c.Enters p e := by
  induction h' with
  | here => exact h
  | child _ visits ih => exact .child ih visits
  | value _ fetches ih => exact .value ih fetches

theorem Visits.depth_eq {c d : Placing} (h : c.Visits p d) : c.depth = d.depth + 1 := by
  cases h
  rfl

theorem Fetches.depth_eq {c d : Placing} {t : Nat} (h : c.Fetches p t d) :
    c.depth = d.depth + 1 := by
  obtain ⟨closes, -, -, -, -⟩ := h
  cases closes <;> rfl

/-- A call is determined by the calls made in its course. -/
theorem run_unique {place : Nat → Bool → NodeId → PlaceM (NodeId × Tally)} {top : Placing}
    (h : ∀ c, top.Enters p c → place c.depth c.isBody c.id c.start = c.step p place) :
    place top.depth top.isBody top.id top.start = top.run p := by
  obtain ⟨depth, isBody, id, w⟩ := top
  induction depth generalizing isBody id w with
  | zero => exact h _ (.here _)
  | succ depth ih =>
    have hinside : ∀ d : Placing, Enters p ⟨depth + 1, isBody, id, w⟩ d →
        depth + 1 = d.depth + 1 → d.run p = place depth d.isBody d.id d.start := by
      rintro ⟨_, isBody', id', v⟩ hd hdepth
      obtain rfl := Nat.succ.inj hdepth
      exact (ih _ _ _ fun c hc => h c (hd.trans hc)).symm
    refine (h _ (.here _)).trans (Plan.placeWithin_congr (fun d hd => ?_) fun t d hd => ?_).symm
    · exact hinside d (.child (.here _) hd) hd.depth_eq
    · exact hinside d (.value (.here _) hd) hd.depth_eq

end Placing

end Extraction

end TensorRecipe
