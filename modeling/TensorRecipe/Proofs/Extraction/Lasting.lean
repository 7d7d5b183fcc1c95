import TensorRecipe.Proofs.Extraction.Calls

/-!
# What lasts from visit to visit

A relation between workspaces that holds over the visits right below a node, and over what is done
besides them, holds over the whole visit (`Steady.of_ran`), from its beginning to that of one of
these visits (`Steady.before`), from the end of one to the beginning of a later one
(`Steady.between`), and from there to the end of the whole visit (`Steady.after`).
-/

namespace TensorRecipe

open PassM

namespace Extraction

variable {visit : ScopedVisit} {id c : NodeId} {scopes inner : List Scope} {node : Node} {k : Nat}
  {w v u : Workspace Memory}

/-- A relation between workspaces that is kept while nothing happens. -/
structure Steady (G : Workspace Memory → Workspace Memory → Prop) : Prop where
  refl : ∀ w, G w w
  trans : ∀ {w v u}, G w v → G v u → G w u
  quiet : ∀ {w w'}, Quiet w w' → G w w'

section

variable {G : Workspace Memory → Workspace Memory → Prop}

theorem eachKeeps_parts (hcalls : ∀ k c inner v, Calls visit id scopes w node k c inner v →
      (visit c inner).Ensures v fun _ v' => G v v') (hnode : node.IsRebuilt) :
    EachKeeps G visit node.children scopes w := by
  intro k c done passed v hc hbefore
  rw [← Visit.all_eq_through] at hbefore
  exact hcalls k c passed v (.part hnode hc hbefore)

variable (hG : Steady G)

include hG

theorem Steady.of_openScope {indices : List Index} {names : List String}
    (h : openScope indices names scopes w = .ok inner v) : G w v :=
  hG.quiet (ensures_openScope_quiet _ _ h).1

variable (hcalls : ∀ k c inner v, Calls visit id scopes w node k c inner v →
  (visit c inner).Ensures v fun _ v' => G v v')

include hcalls

/-- Each value of a let is visited right below it. -/
theorem Steady.eachKeeps_values {bindings : List Binding} {body : NodeId}
    (hnode : node = .letIn bindings body) : EachKeeps G (visitValue visit scopes) bindings [] w := by
  intro k b done names v hb hbefore x v' hrun
  subst hnode
  rw [← visitValues_eq_through] at hbefore
  obtain ⟨inner, u, hopen, hrun⟩ := ok_of_bind_eq_ok hrun
  obtain ⟨r, u', hvisited, hrun⟩ := ok_of_bind_eq_ok hrun
  cases hrun
  exact hG.trans (hG.of_openScope hopen)
    (hcalls k _ inner u (.letIn (getElem?_children_letIn hb) hbefore hopen) _ _ hvisited)

theorem Steady.of_values {bindings done : List Binding} {body : NodeId} {names : List String}
    (hnode : node = .letIn bindings body)
    (hvalues : visitValues visit scopes bindings [] w = .ok (done, names) u)
    (hopen : openScope [] names scopes u = .ok inner v)
    {r : NodeId × List Scope} (hvisited : visit body inner v = .ok r v') : G w u ∧ G u v' := by
  have hbefore : visitValues visit scopes (bindings.take bindings.length) [] w =
      .ok (done, names) u := by rwa [List.take_length]
  have hlast : (Node.letIn bindings body).children[bindings.length]? = some body := by
    simp [Node.children]
  have heach := hG.eachKeeps_values hcalls hnode
  subst hnode
  rw [visitValues_eq_through] at hvalues
  exact ⟨ensures_through hG.refl hG.trans heach _ _ hvalues, hG.trans (hG.of_openScope hopen)
    (hcalls _ _ inner v (.letIn hlast hbefore hopen) _ _ hvisited)⟩

/-- What holds over the visits right below a node, and over what is done besides them, holds over
the visit of the node. -/
theorem Steady.of_ran {new : NodeId} {w' : Workspace Memory} (hnode : ∀ q, node ≠ .recipe q)
    (h : Ran visit id scopes w w' new node)
    (hmint : ∀ n u name value, Extracts id scopes w u w' n name value new → G w u → G w w') :
    G w w' := by
  cases h with
  | loop loop opened visited after =>
    refine hG.trans (hG.of_openScope opened)
      (hG.trans (hcalls 0 _ _ _ ?_ _ _ visited) (hG.quiet after))
    rcases loop with rfl | ⟨rfl, hbound⟩
    · exact .loop opened
    · exact .sum (.inl hbound) opened
  | known _ _ _ after _ => exact hG.quiet after
  | @extracted _ _ value _ v _ u _ n name opened visited after extracts =>
    refine hmint n u name value extracts (hG.trans (hG.of_openScope opened) ?_)
    exact hG.trans (hcalls 0 _ _ _
      (.sum (.inr ⟨n, extracts.serial, extracts.unknown⟩) opened) _ _ visited) (hG.quiet after)
  | letIn values opened visited after =>
    obtain ⟨hbefore, hbody⟩ := hG.of_values hcalls rfl values opened visited
    exact hG.trans hbefore (hG.trans hbody (hG.quiet after))
  | recipe _ _ _ _ => exact absurd rfl (hnode _)
  | part rebuilt visited after =>
    rw [Visit.all_eq_through] at visited
    exact hG.trans (ensures_through hG.refl hG.trans (eachKeeps_parts hcalls rebuilt) _ _ visited)
      (hG.quiet after)

/-- What is visited before the value of a binding, and the visit itself. -/
theorem Steady.between_values {bindings done : List Binding} {body : NodeId} {names names' : List String}
    {b : Binding} (hnode : node = .letIn bindings body) (hb : bindings[k]? = some b)
    (hbefore : visitValues visit scopes (bindings.take k) [] w = .ok (done, names) u)
    (hopen : openScope [] names scopes u = .ok inner v) {j : Nat}
    (hkj : k < j) {done' : List Binding} {u' : Workspace Memory}
    (hvalues : visitValues visit scopes (bindings.take j) [] w = .ok (done', names') u') :
    ∃ r v', visit b.value inner v = .ok r v' ∧ G v' u' := by
  have heach := (hG.eachKeeps_values hcalls hnode).take j
  have hb' : (bindings.take j)[k]? = some b := by rwa [List.getElem?_take, if_pos hkj]
  have htake : (bindings.take j).take k = bindings.take k := by
    rw [List.take_take, min_eq_left hkj.le]
  rw [← htake, visitValues_eq_through] at hbefore
  rw [visitValues_eq_through] at hvalues
  obtain ⟨y, v', hvisited, hrest⟩ := through_between hG.refl hG.trans heach hb' hbefore hvalues
  obtain ⟨inner', v₁, hopen', hvisited⟩ := ok_of_bind_eq_ok hvisited
  cases hopen.symm.trans hopen'
  obtain ⟨r, v₂, hvisited, hdone⟩ := ok_of_bind_eq_ok hvisited
  cases hdone
  exact ⟨r, v', hvisited, hrest⟩

theorem Steady.before (call : Calls visit id scopes w node k c inner v)
    (hnode : ∀ q, node ≠ .recipe q) : G w v := by
  cases call with
  | loop opened => exact hG.of_openScope opened
  | sum _ opened => exact hG.of_openScope opened
  | letIn _ before opened =>
    rw [visitValues_eq_through] at before
    have heach := (hG.eachKeeps_values hcalls rfl).take k
    exact hG.trans (ensures_through hG.refl hG.trans heach _ _ before) (hG.of_openScope opened)
  | recipe _ => exact absurd rfl (hnode _)
  | part rebuilt _ before =>
    rw [Visit.all_eq_through] at before
    exact ensures_through hG.refl hG.trans ((eachKeeps_parts hcalls rebuilt).take k) _ _ before

theorem Steady.between {j : Nat} {inner' : List Scope} {c' : NodeId} (hkj : k < j)
    (call : Calls visit id scopes w node k c inner v)
    (call' : Calls visit id scopes w node j c' inner' u) :
    ∃ r v' u₀, visit c inner v = .ok r v' ∧ G v' u₀ ∧ Quiet u₀ u ∧ (node.IsRebuilt ∨
      ∃ s : Scope, inner' = s :: scopes ∧ u₀.memory.lastScope < s.serial) := by
  cases call' with
  | loop _ => omega
  | sum _ _ => omega
  | recipe _ => omega
  | @letIn bindings _ body _ _ _ u₀ _ _ child' before' opened' =>
    cases call with
    | @letIn _ _ _ _ _ _ u₁ _ _ child before opened =>
      obtain ⟨b, hb, rfl⟩ : ∃ b, bindings[k]? = some b ∧ b.value = c := by
        refine (children_letIn_cases child).resolve_right fun ⟨hk, _⟩ => ?_
        have := (List.getElem?_eq_some_iff.1 child').1
        simp [Node.children] at this
        omega
      obtain ⟨r, v', hvisited, hrest⟩ :=
        hG.between_values hcalls rfl hb before opened hkj before'
      obtain ⟨hquiet, s, rfl, hserial, -, -⟩ := ensures_openScope_quiet _ _ opened'
      exact ⟨r, v', u₀, hvisited, hrest, hquiet, .inr ⟨s, rfl, by omega⟩⟩
    | part rebuilt _ _ => exact rebuilt.elim
  | @part _ _ _ done' _ _ rebuilt child' before' =>
    cases call with
    | part _ child before =>
      rw [Visit.all_eq_through] at before before'
      have hk : (node.children.take j)[k]? = some c := by rwa [List.getElem?_take, if_pos hkj]
      have htake : (node.children.take j).take k = node.children.take k := by
        rw [List.take_take, min_eq_left hkj.le]
      rw [← htake] at before
      obtain ⟨r, v', hvisited, hrest⟩ := through_between hG.refl hG.trans
        ((eachKeeps_parts hcalls rebuilt).take j) hk before before'
      exact ⟨r, v', u, hvisited, hrest, .of_arena (.refl _) rfl, .inl rebuilt⟩
    | _ => exact rebuilt.elim

theorem Steady.after_let {bindings done done' : List Binding} {body : NodeId}
    {names names' : List String} {u₀ v₀ v₁ w' : Workspace Memory} {inner' : List Scope}
    {r : NodeId × List Scope} (hnode : node = .letIn bindings body)
    (child : (Node.letIn bindings body).children[k]? = some c)
    (before : visitValues visit scopes (bindings.take k) [] w = .ok (done, names) u)
    (opened : openScope [] names scopes u = .ok inner v)
    (values : visitValues visit scopes bindings [] w = .ok (done', names') u₀)
    (opened' : openScope [] names' scopes u₀ = .ok inner' v₀)
    (visited : visit body inner' v₀ = .ok r v₁) (after : Quiet v₁ w') :
    ∃ r v', visit c inner v = .ok r v' ∧ G v' w' := by
  rcases children_letIn_cases child with ⟨b, hb, rfl⟩ | ⟨rfl, rfl⟩
  · obtain ⟨-, hbody⟩ := hG.of_values hcalls hnode values opened' visited
    obtain ⟨r, v', hvisited, hrest⟩ := hG.between_values hcalls hnode hb before opened
      (List.getElem?_eq_some_iff.1 hb).1 (by rwa [List.take_length])
    exact ⟨r, v', hvisited, hG.trans hrest (hG.trans hbody (hG.quiet after))⟩
  · rw [List.take_length] at before
    cases before.symm.trans values
    cases opened.symm.trans opened'
    exact ⟨_, _, visited, hG.quiet after⟩

theorem Steady.after {new : NodeId} {w' : Workspace Memory}
    (call : Calls visit id scopes w node k c inner v) (hnode : ∀ q, node ≠ .recipe q)
    (h : Ran visit id scopes w w' new node) : ∃ r v', visit c inner v = .ok r v' ∧
      (G v' w' ∨ ∃ n u name value, G v' u ∧ Extracts id scopes w u w' n name value new) := by
  have hsame : ∀ {indices : List Index} {body : NodeId} {inner inner' : List Scope}
      {v v₁ v' : Workspace Memory} {r : NodeId × List Scope},
      openScope indices [] scopes w = .ok inner v →
      openScope indices [] scopes w = .ok inner' v₁ →
      visit body inner' v₁ = .ok r v' → visit body inner v = .ok r v' := by
    intro indices body inner inner' v v₁ v' r hopen hopen' hvisited
    cases hopen.symm.trans hopen'
    exact hvisited
  cases h with
  | loop loop opened visited after =>
    cases call with
    | loop opened' =>
      obtain ⟨rfl, rfl⟩ : _ ∧ _ := by simpa using loop
      exact ⟨_, _, hsame opened' opened visited, .inl (hG.quiet after)⟩
    | sum _ opened' =>
      obtain ⟨⟨rfl, rfl⟩, -⟩ : _ ∧ _ := by simpa using loop
      exact ⟨_, _, hsame opened' opened visited, .inl (hG.quiet after)⟩
    | letIn _ _ _ => simp at loop
    | recipe _ => simp at loop
    | part rebuilt _ _ =>
      rcases loop with rfl | ⟨rfl, -⟩
      · exact rebuilt.elim
      · exact rebuilt.elim
  | known unbound serial found _ _ =>
    cases call with
    | sum new _ =>
      rcases new with hbound | ⟨n, hn, hnone⟩
      · exact absurd hbound unbound
      · cases hn.symm.trans serial
        simp [hnone] at found
    | part rebuilt _ _ => exact rebuilt.elim
  | extracted opened visited after extracts =>
    cases call with
    | sum _ opened' =>
      exact ⟨_, _, hsame opened' opened visited, .inr ⟨_, _, _, _, hG.quiet after, extracts⟩⟩
    | part rebuilt _ _ => exact rebuilt.elim
  | letIn values opened visited after =>
    cases call with
    | letIn child before opened' =>
      obtain ⟨r, v', hvisited, hrest⟩ :=
        hG.after_let hcalls rfl child before opened' values opened visited after
      exact ⟨r, v', hvisited, .inl hrest⟩
    | part rebuilt _ _ => exact rebuilt.elim
  | recipe _ _ _ _ => exact absurd rfl (hnode _)
  | part rebuilt visited after =>
    cases call with
    | part _ child before =>
      rw [Visit.all_eq_through] at before visited
      obtain ⟨r, v', hvisited, hrest⟩ := through_between hG.refl hG.trans
        (eachKeeps_parts hcalls rebuilt) child before visited
      exact ⟨r, v', hvisited, .inl (hG.trans hrest (hG.quiet after))⟩
    | _ => exact rebuilt.elim

end

end Extraction

end TensorRecipe
