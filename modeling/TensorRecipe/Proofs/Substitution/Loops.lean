import TensorRecipe.Proofs.Pass.Ensures
import TensorRecipe.Substitution

/-!
# What becomes of loops under substitution

`a.Loops id is last` says that loops over the indices `is` stand right below one another from the
handle `id` down, and that at `last` below them stands none.  Substitution takes such loops to loops
over the renamed indices (`ensures_loops`), unless it puts a loop where the last of them ends.  What
it makes of a recipe is said by `ensures_renameRecipe`.
-/

namespace TensorRecipe

namespace Arena

variable {a b : Arena} {id last : NodeId} {is : List Index}

/-- A node stands at the handle, and it is no loop. -/
def IsLast (a : Arena) (id : NodeId) : Prop :=
  ∃ node, a.get id = .ok node ∧ ∀ is body, node ≠ .forAll is body

/-- The loops from a handle down, the outermost first, and where they end. -/
inductive Loops (a : Arena) : NodeId → List Index → NodeId → Prop where
  | last {id : NodeId} (h : a.IsLast id) : a.Loops id [] id
  | loop {id body last : NodeId} {is below : List Index} (entry : a.get id = .ok (.forAll is body))
    (rest : a.Loops body below last) : a.Loops id (is ++ below) last

theorem IsLast.mono (h : a.IsLast id) (hab : a.Extends b) : b.IsLast id := by
  obtain ⟨node, hn, hne⟩ := h
  exact ⟨node, hab.get hn, hne⟩

theorem Loops.mono (h : a.Loops id is last) (hab : a.Extends b) : b.Loops id is last := by
  induction h with
  | last h => exact .last (h.mono hab)
  | loop entry _ ih => exact .loop (hab.get entry) ih

end Arena

namespace Substitution

open PassM

variable {s : Substitution} {a : Arena}

/-! ### Renaming -/

theorem renameGroup_eq_ok {group new : List Index} (h : s.renameGroup group a = .ok new) :
    ∃ names, List.Forall₂ (s.renamed a · = .ok ·) group names ∧ new = names.filterMap id := by
  obtain ⟨names, hnames, h⟩ := exists_of_bind_eq_ok h
  cases h
  exact ⟨names, forall₂_of_mapM_eq_ok hnames, rfl⟩

/-- The declared indices are renamed one by one, those left out that become no index. -/
theorem renameGroups_eq_ok {g new : IndexDeclaration} (h : s.renameGroups g a = .ok new) :
    ∃ names, List.Forall₂ (s.renamed a · = .ok ·) g.toList names ∧
      new.toList = names.filterMap id := by
  obtain ⟨_, hd, h⟩ := exists_of_bind_eq_ok h
  obtain ⟨_, hb, h⟩ := exists_of_bind_eq_ok h
  obtain ⟨_, hp, h⟩ := exists_of_bind_eq_ok h
  cases h
  obtain ⟨ds, hds, rfl⟩ := renameGroup_eq_ok hd
  obtain ⟨bs, hbs, rfl⟩ := renameGroup_eq_ok hb
  obtain ⟨ps, hps, rfl⟩ := renameGroup_eq_ok hp
  refine ⟨ds ++ bs ++ ps, ?_, by simp [IndexDeclaration.toList]⟩
  exact List.rel_append (List.rel_append hds hbs) hps

/-- What a loop over an index runs over after the substitution. -/
def Renames (s : Substitution) (a : Arena) (i j : Index) : Prop :=
  ∃ name, s.renamed a i = .ok name ∧ j = name.getD i

theorem renameScope_eq_ok {scope new : List Index} (h : s.renameScope scope a = .ok new) :
    List.Forall₂ (s.Renames a) scope new := by
  obtain ⟨names, hnames, hnew⟩ := exists_of_bind_eq_ok h
  cases hnew
  have hall := forall₂_of_mapM_eq_ok hnames
  clear hnames h
  induction hall with
  | nil => exact .nil
  | cons hname _ ih => exact .cons ⟨_, hname, rfl⟩ ih

theorem keptTranspose_congr {b : Arena} (h : b.indices = a.indices) (r : Recipe)
    (g : IndexDeclaration) : keptTranspose r g b = keptTranspose r g a := by
  simp only [keptTranspose, Arena.flatten_congr h]

theorem keptTranspose_eq_some {r : Recipe} {g : IndexDeclaration} {p : List Nat}
    (h : keptTranspose r g a = .ok (some p)) : r.transpose = some p ∧ ∃ new old,
      a.flatten g.toList = .ok new ∧ a.flatten r.indices.toList = .ok old ∧
        new.length = old.length := by
  unfold keptTranspose at h
  split at h
  · cases h
  · next q hq =>
    obtain ⟨new, hnew, h⟩ := exists_of_bind_eq_ok h
    obtain ⟨old, hold, h⟩ := exists_of_bind_eq_ok h
    by_cases hlen : new.length = old.length
    · rw [if_pos hlen] at h
      cases h
      exact ⟨hq, new, old, hnew, hold, hlen⟩
    · rw [if_neg hlen] at h
      cases h

/-! ### One node -/

section

variable {visit : Visit Unit Unit} {w : Workspace Unit} {id body : NodeId}
  {Q : NodeId → Arena → Prop} (hmono : ∀ a b id, a.Extends b → Q id a → Q id b)

include hmono

/-- A loop stays a loop, over the renamed indices. -/
theorem ensures_renameLoop {build : List Index → NodeId → Node} {is : List Index}
    (hchildren : (build is body).children = [body])
    (hreplace : ∀ new, (build is body).replaceChildren [new] = build is new)
    (hn : w.arena.get id = .ok (build is body))
    (hvisit : (visit body ()).Ensures w fun p w' => w.arena.Extends w'.arena ∧ Q p.1 w'.arena) :
    (s.renameLoop build is body visit id).Ensures w fun p w' => w.arena.Extends w'.arena ∧
      ∃ js new, s.renameScope is w.arena = .ok js ∧ Q new w'.arena ∧
        w'.arena.get p.1 = .ok (build js new) := by
  refine ensures_ask_bind fun js hjs => ?_
  split
  · next hsame =>
    subst hsame
    unfold Rule.rebuild
    rw [hchildren]
    refine (hvisit.bind (R := fun r w' => w.arena.Extends w'.arena ∧
      ∃ new, r.1 = [new] ∧ Q new w'.arena) fun p w₁ ⟨hext, hQ⟩ =>
        ensures_pure ⟨hext, p.1, rfl, hQ⟩).bind fun r w₁ ⟨hext₁, new, hnew, hQ⟩ => ?_
    have hlen : r.1.length = (build js body).children.length := by rw [hnew, hchildren]; rfl
    refine (ensures_setChildren hlen).bind fun id' w₂ ⟨hext₂, _, hid'⟩ => ?_
    refine ensures_pure ⟨hext₁.trans hext₂, js, new, hjs, hmono _ _ _ hext₂ hQ, ?_⟩
    rw [hnew, hchildren] at hid'
    rcases hid' with ⟨hkept, rfl⟩ | ⟨-, hid'⟩
    · obtain rfl : new = body := by simpa using hkept
      exact (hext₁.trans hext₂).get hn
    · rw [hid', hreplace]
  · refine hvisit.bind fun p w₁ ⟨hext, hQ⟩ => ?_
    refine gives_addNode.ensures.bind fun id' w₂ ⟨hid', hw₂⟩ => ?_
    subst hid' hw₂
    have hadd := Arena.Extends.addNode w₁.arena (build js p.1)
    exact ensures_pure ⟨hext.trans hadd, js, p.1, hjs, hmono _ _ _ hadd hQ,
      Arena.get_nextId_addNode _ _⟩

/-- A recipe stays a recipe, with the renamed indices.  If it is made anew, its transpose is kept on
a condition. -/
theorem ensures_renameRecipe {r : Recipe} (hn : w.arena.get id = .ok (.recipe r))
    (hvisit : (visit r.body ()).Ensures w fun p w' => w.arena.Extends w'.arena ∧ Q p.1 w'.arena) :
    (s.renameRecipe r visit id).Ensures w fun p w' => w.arena.Extends w'.arena ∧
      ∃ new, w'.arena.get p.1 = .ok (.recipe new) ∧ Q new.body w'.arena ∧
        s.renameGroups r.indices w.arena = .ok new.indices ∧
          (new = r ∨ keptTranspose r new.indices w'.arena = .ok new.transpose) := by
  refine ensures_ask_bind fun g hg => ?_
  refine hvisit.bind fun p w₁ ⟨hext, hQ⟩ => ?_
  dsimp only
  split
  · next hsame =>
    obtain ⟨rfl, hbody⟩ := hsame
    exact ensures_pure ⟨hext, r, hext.get hn, hbody ▸ hQ, hg, .inl rfl⟩
  · refine ensures_ask_bind fun transpose hkept => ?_
    refine gives_addNode.ensures.bind fun id' w₂ ⟨hid', hw₂⟩ => ?_
    subst hid' hw₂
    have hadd := Arena.Extends.addNode w₁.arena (.recipe ⟨g, p.1, transpose⟩)
    refine ensures_pure ⟨hext.trans hadd, ⟨g, p.1, transpose⟩, Arena.get_nextId_addNode _ _,
      hmono _ _ _ hadd hQ, hg, .inr ?_⟩
    rwa [keptTranspose_congr hadd.indices]

end

/-! ### Whole trees -/

/-- An index leaf at the end of loops becomes no loop. -/
def KeepsEnd (s : Substitution) (a : Arena) (last : NodeId) : Prop :=
  ∀ i, a.get last = .ok (.index i) → ∀ id, s i = some id → a.IsLast id

/-- Substitution appends nodes, and where loops end at a node, they end at what becomes of it. -/
theorem ensures_rule {visit : Visit Unit Unit} {id : NodeId} {node : Node} {w : Workspace Unit}
    (hvisit : ∀ c (w : Workspace Unit), (visit c ()).Ensures w fun _ w' => w.arena.Extends w'.arena)
    (hn : w.arena.get id = .ok node) : (s.rule visit id node ()).Ensures w fun p w' =>
      w.arena.Extends w'.arena ∧
        ((∀ is body, node ≠ .forAll is body) → s.KeepsEnd w.arena id → w'.arena.IsLast p.1) := by
  have hbody : ∀ c (w : Workspace Unit), (visit c ()).Ensures w fun _ w' =>
      w.arena.Extends w'.arena ∧ True :=
    fun c w => (hvisit c w).mono fun _ _ hext => ⟨hext, trivial⟩
  cases node with
  | index i =>
    refine ensures_pure ⟨.refl _, fun hne hend => ?_⟩
    cases hi : s i with
    | none => exact ⟨_, hn, hne⟩
    | some new => exact hend i hn new hi
  | recipe r =>
    refine (ensures_renameRecipe (Q := fun _ _ => True) (fun _ _ _ _ h => h) hn
      (hbody _ _)).mono fun p w' ⟨hext, new, hnew, _⟩ => ?_
    exact ⟨hext, fun _ _ => ⟨_, hnew, nofun⟩⟩
  | forAll is body =>
    refine (ensures_renameLoop (Q := fun _ _ => True) (fun _ _ _ _ h => h) rfl (fun _ => rfl) hn
      (hbody _ _)).mono fun p w' ⟨hext, _⟩ => ?_
    exact ⟨hext, fun hne => absurd rfl (hne is body)⟩
  | indexSum is body =>
    refine (ensures_renameLoop (Q := fun _ _ => True) (fun _ _ _ _ h => h) rfl (fun _ => rfl) hn
      (hbody _ _)).mono fun p w' ⟨hext, js, new, _, _, hnew⟩ => ?_
    exact ⟨hext, fun _ _ => ⟨_, hnew, nofun⟩⟩
  | _ =>
    refine (Rule.ensures_rebuild .extends (I := fun _ _ => True) (fun _ _ _ _ h => h) hn
      (fun c _ _ w _ => ?_) trivial).mono
      fun p w' ⟨hext, _, new, hnew, hshape, _⟩ => ?_
    · exact (hvisit c w).mono fun _ _ hext => ⟨hext, trivial, trivial⟩
    · refine ⟨hext, fun _ _ => ⟨new, hnew, ?_⟩⟩
      rintro is body rfl
      cases hshape

theorem ensures_extends : ∀ (depth : Nat) (id : NodeId) (w : Workspace Unit),
    (s.rule.transformWithin depth id ()).Ensures w fun _ w' => w.arena.Extends w'.arena
  | 0, _, _ => ensures_throw
  | depth + 1, _, _ => Rule.ensures_transformWithin fun _ hn =>
    (ensures_rule (ensures_extends depth) hn).mono fun _ _ h => h.1

/-- Loops become loops over the renamed indices. -/
theorem ensures_loops {id last : NodeId} {is : List Index} {w : Workspace Unit}
    (h : w.arena.Loops id is last) (hend : s.KeepsEnd w.arena last) :
    ∀ depth, (s.rule.transformWithin depth id ()).Ensures w fun p w' => w.arena.Extends w'.arena ∧
      ∃ js last', List.Forall₂ (s.Renames w.arena) is js ∧ w'.arena.Loops p.1 js last' := by
  induction h with
  | last h =>
    obtain ⟨node, entry, hne⟩ := h
    intro depth
    cases depth with
    | zero => exact ensures_throw
    | succ depth =>
      refine Rule.ensures_transformWithin fun node' hn => ?_
      obtain rfl : node = node' := by simpa [entry] using hn
      refine (ensures_rule (ensures_extends depth) hn).mono fun p w' ⟨hext, hlast⟩ => ?_
      exact ⟨hext, [], p.1, .nil, .last (hlast hne hend)⟩
  | @loop id body last is below entry _ ih =>
    intro depth
    cases depth with
    | zero => exact ensures_throw
    | succ depth =>
      refine Rule.ensures_transformWithin fun node hn => ?_
      obtain rfl : .forAll is body = node := by simpa [entry] using hn
      refine (ensures_renameLoop (Q := fun id b => ∃ js last',
        List.Forall₂ (s.Renames w.arena) below js ∧ b.Loops id js last')
        (fun a b id hab ⟨js, last', hjs, hloops⟩ => ⟨js, last', hjs, hloops.mono hab⟩)
        rfl (fun _ => rfl) hn (ih hend depth)).mono ?_
      rintro p w' ⟨hext, js, new, hjs, ⟨rest, last', hrest, hloops⟩, hnew⟩
      exact ⟨hext, js ++ rest, last', List.rel_append (renameScope_eq_ok hjs) hrest,
        .loop hnew hloops⟩

end Substitution

end TensorRecipe
