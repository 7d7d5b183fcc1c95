import TensorRecipe.Pass.Variables
import TensorRecipe.Proofs.Pass.Steps

/-!
# Renaming variables from left to right

A rule that only renames variables goes through the tree from left to right and hands one value on.
`Tree.varNames` lists the names of the variables in that order, a shared tree once for each time it
occurs, and `Tree.nameless` is all else there is to a tree.  The names of the result are what the
step makes of the list, one name after another (`accumulate`), and nothing else changes.

Main statement: `Rule.renames_leftToRight`.
-/

namespace TensorRecipe

/-! ### Names in a tree -/

namespace Tree

mutual

/-- The names of the variables, from left to right. -/
def varNames : Tree → List String
  | node (.var x) _ => [x]
  | node _ children => varNamesAll children

/-- The names of the variables of the trees, from left to right. -/
def varNamesAll : List Tree → List String
  | [] => []
  | t :: ts => varNames t ++ varNamesAll ts

end

mutual

/-- The tree with the names of its variables blotted out. -/
def nameless : Tree → Tree
  | node (.var _) children => node (.var "") children
  | node shape children => node shape (namelessAll children)

/-- The trees with the names of their variables blotted out. -/
def namelessAll : List Tree → List Tree
  | [] => []
  | t :: ts => nameless t :: namelessAll ts

end

variable {shape : Shape} {children : List Tree}

theorem varNames_node (h : ∀ x, shape ≠ .var x) :
    (node shape children).varNames = varNamesAll children := by
  cases shape
  case var x => exact absurd rfl (h x)
  all_goals rfl

theorem namelessAll_eq_map : ∀ ts : List Tree, namelessAll ts = ts.map nameless
  | [] => rfl
  | t :: ts => by rw [namelessAll, namelessAll_eq_map ts, List.map_cons]

theorem nameless_node (h : ∀ x, shape ≠ .var x) :
    (node shape children).nameless = node shape (namelessAll children) := by
  cases shape
  case var x => exact absurd rfl (h x)
  all_goals rfl

end Tree

section

variable {α β τ : Type}

/-- What a step makes of one after another, handing a value on. -/
def accumulate (step : α → τ → β × τ) : List α → τ → List β × τ
  | [], passed => ([], passed)
  | x :: xs, passed =>
    let (y, passed) := step x passed
    let (ys, passed) := accumulate step xs passed
    (y :: ys, passed)

theorem accumulate_append (step : α → τ → β × τ) (xs ys : List α) (passed : τ) :
    accumulate step (xs ++ ys) passed =
      ((accumulate step xs passed).1 ++ (accumulate step ys (accumulate step xs passed).2).1,
        (accumulate step ys (accumulate step xs passed).2).2) := by
  induction xs generalizing passed with
  | nil => rfl
  | cons x xs ih => simp only [List.cons_append, accumulate, ih]

theorem accumulate_number (name : Nat → β) (xs : List α) (start : Nat) :
    accumulate (fun _ n => (name n, n + 1)) xs start =
      ((List.range xs.length).map fun k => name (start + k), start + xs.length) := by
  induction xs generalizing start with
  | nil => rfl
  | cons x xs ih =>
    simp only [accumulate, ih, List.length_cons, List.range_succ_eq_map, List.map_cons, List.map_map,
      Function.comp_def, Nat.succ_eq_add_one, Nat.add_zero, Nat.add_assoc, Nat.add_comm 1]

end

namespace Rule

open PassM

variable {τ : Type} {step : String → τ → String × τ} {visit : Visit Unit τ}

/-- Wherever a visit finds the tree, it makes one of it that differs in the names of variables alone,
and these are what the step makes of those there were. -/
def Renames (step : String → τ → String × τ) (visit : Visit Unit τ) (t : Tree) : Prop :=
  ∀ {id : NodeId} {passed : τ} {w : Workspace Unit}, w.arena.Unfolds id t →
    (visit id passed).Gives w fun r w' => w.arena.Extends w'.arena ∧ ∃ t',
      w'.arena.Unfolds r.1 t' ∧ t'.nameless = t.nameless ∧
        (t'.varNames, r.2) = accumulate step t.varNames passed

theorem renames_all :
    ∀ {ts : List Tree} {ids : List NodeId} {passed : τ} {w : Workspace Unit},
      (∀ t ∈ ts, Renames step visit t) → List.Forall₂ w.arena.Unfolds ids ts →
        (visit.all ids passed).Gives w fun r w' => w.arena.Extends w'.arena ∧ ∃ ts',
          List.Forall₂ w'.arena.Unfolds r.1 ts' ∧ Tree.namelessAll ts' = Tree.namelessAll ts ∧
            (Tree.varNamesAll ts', r.2) = accumulate step (Tree.varNamesAll ts) passed
  | [], [], passed, w, _, .nil => gives_pure ⟨.refl _, [], .nil, rfl, rfl⟩
  | t :: ts, id :: ids, passed, w, hvisit, .cons hid hids => by
    refine (hvisit t (by simp) hid).bind ?_
    rintro ⟨id', passed₁⟩ w₁ ⟨hext₁, t', ht', hnameless, hnames⟩
    refine (renames_all (fun u hu => hvisit u (List.mem_cons_of_mem t hu))
      (hids.imp fun _ _ h => h.mono hext₁)).bind ?_
    rintro ⟨ids', passed₂⟩ w₂ ⟨hext₂, ts', hts', hnamelessAll, hnamesAll⟩
    refine gives_pure ⟨hext₁.trans hext₂, t' :: ts', .cons (ht'.mono hext₂) hts', ?_, ?_⟩
    · rw [Tree.namelessAll, hnameless, hnamelessAll, Tree.namelessAll]
    · rw [Tree.varNamesAll, Tree.varNamesAll, accumulate_append, ← hnames, ← hnamesAll]

/-- A node that is no variable keeps what it is over its renamed children. -/
theorem renames_rebuild {ts : List Tree} {id : NodeId} {node : Node} {passed : τ}
    {w : Workspace Unit} (hinner : ∀ x, node.shape ≠ .var x)
    (hvisit : ∀ t ∈ ts, Renames step visit t) (hn : w.arena.get id = .ok node)
    (hc : List.Forall₂ w.arena.Unfolds node.children ts) :
    (rebuild visit id node passed).Gives w fun r w' => w.arena.Extends w'.arena ∧ ∃ t',
      w'.arena.Unfolds r.1 t' ∧ t'.nameless = (Tree.node node.shape ts).nameless ∧
        (t'.varNames, r.2) = accumulate step (Tree.node node.shape ts).varNames passed := by
  refine (renames_all hvisit hc).bind ?_
  rintro ⟨new, passed'⟩ w' ⟨hext, ts', hts', hnameless, hnames⟩
  have hlen : new.length = node.children.length := by
    have hsame : ts'.length = ts.length := by
      simpa [Tree.namelessAll_eq_map] using congrArg List.length hnameless
    rw [hts'.length_eq, hsame, hc.length_eq]
  refine (gives_setChildren (hext.get hn) hlen hts').bind ?_
  rintro id' w'' ⟨hun, hext', -⟩
  refine gives_pure ⟨hext.trans hext', _, hun, ?_, ?_⟩
  · rw [Tree.nameless_node hinner, Tree.nameless_node hinner, hnameless]
  · rw [Tree.varNames_node hinner, Tree.varNames_node hinner, hnames]

theorem renames_transformWithin (step : String → τ → String × τ) (t : Tree) :
    ∀ {depth : Nat}, t.height ≤ depth →
      Renames step ((renameVariables step).transformWithin depth) t := by
  induction t using Tree.induct with
  | node shape children ih =>
    intro depth hdepth id passed w ht
    obtain ⟨depth, rfl, hheight⟩ := Tree.height_le_iff.1 hdepth
    obtain ⟨node, hn, rfl, hc⟩ := ht.get
    refine gives_transformWithin hn ?_
    by_cases hvar : ∃ x, node = .var x
    · obtain ⟨x, rfl⟩ := hvar
      cases hc
      refine gives_addNode.bind ?_
      rintro id' w' ⟨rfl, rfl⟩
      exact gives_pure ⟨.addNode _ _, _, Arena.unfolds_addNode .nil, rfl, rfl⟩
    · have hrule : renameVariables step ((renameVariables step).transformWithin depth) id node
          passed = rebuild ((renameVariables step).transformWithin depth) id node passed := by
        cases node
        case var x => exact absurd ⟨x, rfl⟩ hvar
        all_goals rfl
      rw [hrule]
      exact renames_rebuild (fun x hx => hvar ⟨x, Node.eq_var hx⟩)
        (fun t ht => ih t ht (hheight t ht)) hn hc

theorem gives_renameVariables {root : NodeId} {t : Tree} {w : Workspace Unit}
    (ht : w.arena.Unfolds root t) (step : String → τ → String × τ) (start : τ) :
    ((renameVariables step).transform root start).Gives w fun r w' =>
      w.arena.Extends w'.arena ∧ ∃ t', w'.arena.Unfolds r.1 t' ∧ t'.nameless = t.nameless ∧
        (t'.varNames, r.2) = accumulate step t.varNames start :=
  gives_ask_bind rfl
    (renames_transformWithin step t (ht.height_le.trans (Nat.le_add_right _ _)) ht)

/-- A rule that renames variables by a step succeeds on every tree.  The result differs in the names
of variables alone; from left to right, a shared tree once for each time it occurs, they are what
the step makes of the names there were, one after another, and the value passed on at the end is the
last that the step gives.  Numbering from `start` makes the `k`-th of them `v` with the number
`start + k`, and ends at `start` plus how many variables there are. -/
theorem renames_leftToRight {a : Arena} {root : NodeId} {t : Tree} (h : a.Unfolds root t) :
    (∀ {τ : Type} (step : String → τ → String × τ) (start : τ), ∃ out final w t',
      ((renameVariables step).transform root start).start a () = .ok (out, final) w ∧
        a.Extends w.arena ∧ w.arena.Unfolds out t' ∧ t'.nameless = t.nameless ∧
          (t'.varNames, final) = accumulate step t.varNames start) ∧
    ∀ start : Nat, ∃ out w t',
      (numberVariables.transform root start).start a () = .ok (out, start + t.varNames.length) w ∧
        a.Extends w.arena ∧ w.arena.Unfolds out t' ∧ t'.nameless = t.nameless ∧
          t'.varNames = (List.range t.varNames.length).map fun k => "v" ++ toString (start + k) := by
  refine ⟨fun step start => ?_, fun start => ?_⟩
  · obtain ⟨⟨out, final⟩, w, hrun, hext, t', hun, hnameless, hnames⟩ :=
      (gives_renameVariables (w := ⟨a, [], ()⟩) h step start).start
    exact ⟨out, final, w, t', hrun, hext, hun, hnameless, hnames⟩
  · rw [numberVariables]
    obtain ⟨⟨out, final⟩, w, hrun, hext, t', hun, hnameless, hnames⟩ :=
      (gives_renameVariables (w := ⟨a, [], ()⟩) h (fun _ n => ("v" ++ toString n, n + 1)) start).start
    simp only [accumulate_number fun n => "v" ++ toString n, Prod.mk.injEq] at hnames
    obtain ⟨hnames, rfl⟩ := hnames
    exact ⟨out, w, t', hrun, hext, hun, hnameless, hnames⟩

/-- A function of a variable and of a let that binds and uses the same variable. -/
def sharedVariable : Arena where
  nodes := #[.var "x", .var "f", .letIn [⟨"y", ⟨0⟩⟩] ⟨0⟩, .apply .call ⟨1⟩ [⟨0⟩, ⟨2⟩]]
  indices := #[]

/-- The tree of the call. -/
def sharedVariableTree : Tree :=
  .node (.apply .call) [.node (.var "f") [], .node (.var "x") [],
    .node (.letIn ["y"]) [.node (.var "x") [], .node (.var "x") []]]

theorem unfolds_sharedVariable : sharedVariable.Unfolds ⟨3⟩ sharedVariableTree :=
  ⟨_, rfl, rfl, ⟨_, rfl, rfl, trivial⟩, ⟨_, rfl, rfl, trivial⟩,
    ⟨_, rfl, rfl, ⟨_, rfl, rfl, trivial⟩, ⟨_, rfl, rfl, trivial⟩, trivial⟩, trivial⟩

/-- The one variable `x` gets three numbers, one for each time it occurs. -/
theorem renames_leftToRight_sharedVariable : sharedVariable.Unfolds ⟨3⟩ sharedVariableTree ∧
    ∃ out w t', (numberVariables.transform ⟨3⟩ 5).start sharedVariable () = .ok (out, 9) w ∧
      w.arena.Unfolds out t' ∧ t'.varNames = ["v5", "v6", "v7", "v8"] := by
  obtain ⟨-, hnumber⟩ := renames_leftToRight unfolds_sharedVariable
  have hlength : sharedVariableTree.varNames.length = 4 := rfl
  obtain ⟨out, w, t', hrun, -, hun, -, hnames⟩ := hnumber 5
  rw [hlength] at hrun hnames
  exact ⟨unfolds_sharedVariable, out, w, t', hrun, hun, hnames.trans (by cbv)⟩

end Rule

end TensorRecipe
