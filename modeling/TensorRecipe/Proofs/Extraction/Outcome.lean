import TensorRecipe.Proofs.Extraction.Low
import TensorRecipe.Proofs.Extraction.Placed
import TensorRecipe.Proofs.Pass.Steps

/-!
# Outcomes of placing

A step of placing makes a draft with places of a draft without (`Outcome`): it binds an entry where
it has all of its uses, and leaves none unbound that has (`Settled`).  So what is bound around a part
has uses outside of whatever lies right below (`Bare`), and its let is low.  While the steps go through a
region, `Ready` says how many uses are still to come; uses that have been seen and uses to come
always make up the same total (`Outcome.conserved`).
-/

namespace TensorRecipe

namespace Extraction

open Draft

/-! ### Growing workspaces -/

/-- The names that have been minted, the newest first. -/
def minted (events : List Event) : List String :=
  events.filterMap fun
    | .extracted name _ _ => some name
    | _ => none

/-- The sums that have been extracted with the names minted for them, the newest first. -/
def extractions (events : List Event) : List (String × NodeId) :=
  events.filterMap fun
    | .extracted name sum _ => some (name, sum)
    | _ => none

theorem minted_eq (events : List Event) : minted events = (extractions events).map Prod.fst := by
  rw [minted, extractions, List.map_filterMap]
  refine List.filterMap_congr fun e _ => ?_
  cases e <;> rfl

/-- The arena grows, and nothing is extracted. -/
structure Grows {ω : Type} (w w' : Workspace ω) : Prop where
  arena : w.arena.Extends w'.arena
  extracted : extractions w'.events = extractions w.events

namespace Grows

variable {ω : Type} {w w' w'' : Workspace ω}

theorem refl (w : Workspace ω) : Grows w w := ⟨.refl _, rfl⟩

theorem trans (h : Grows w w') (h' : Grows w' w'') : Grows w w'' :=
  ⟨h.arena.trans h'.arena, h'.extracted.trans h.extracted⟩

theorem minted (h : Grows w w') : minted w'.events = minted w.events := by
  rw [minted_eq, h.extracted, ← minted_eq]

end Grows

section

variable (entries : List (Reduction × Draft)) (total : String → Nat)

/-- The plan knows the entries: their names, where their values are, and how often each is used. -/
structure Fits (p : Plan) (a : Arena) : Prop where
  temporaries : List.Forall₂ (fun (t : Temporary) (e : Reduction × Draft) =>
    t.name = e.1.name ∧ a.Unfolds t.value e.2.toTree) p.temporaries entries
  totals : ∀ (k : Nat) e, entries[k]? = some e → Tally.count p.totals k = total e.1.name

/-- The tally counts the uses of entries, and nothing else. -/
structure Tallied (uses : Tally) (f : String → Nat) : Prop where
  ordered : uses.Ordered
  lt : ∀ e ∈ uses, e.1 < entries.length
  count : ∀ (k : Nat) e, entries[k]? = some e → Tally.count uses k = f e.1.name

/-- So many uses are still to come, besides those in the values of entries that have no place.  No
entry has more than its total, and one that has a place has no more. -/
structure Ready (placed : List Nat) (f : String → Nat) : Prop where
  nodup : placed.Nodup
  lt : ∀ k ∈ placed, k < entries.length
  le : ∀ (k : Nat) e, entries[k]? = some e →
    f e.1.name + rest entries placed e.1.name ≤ if k ∈ placed then 0 else total e.1.name

/-- What has all of its uses in a part is bound there. -/
def Settled (part : Part) : Prop :=
  ∀ (k : Nat) e, entries[k]? = some e → total e.1.name ≤ part.draft.count e.1.name → k ∈ part.here

/-- No let is around the part yet, and what is not bound in the part has uses outside of each draft
right below it; save where that is a bare reference and no place for a let. -/
structure Bare (part : Part) : Prop where
  ne_temps : ∀ xs values body, part.draft ≠ .temps xs values body
  child : ∀ shape children, part.draft = .node shape children →
    ∀ (k : Nat) e, entries[k]? = some e → k ∉ part.here → ∀ d ∈ children,
      d.count e.1.name < total e.1.name ∨
        shape.isScope = false ∧ ∃ y, d = .ref y ∧ y.name = e.1.name

variable (factors : Index → List Index) (used : List String)

/-- The handle and the tally are those of the draft `c` with places. -/
structure Outcome (c : Draft) (w w' : Workspace (List Nat)) (r : NodeId × Tally) (part : Part) :
    Prop where
  placed : Placed entries total factors used part.here c part.draft
  unfolds : w'.arena.Unfolds r.1 part.draft.toTree
  tallied : Tallied entries r.2 (part.draft.count ·)
  memory : w'.memory.Perm (part.here ++ w.memory)
  nodup : w'.memory.Nodup
  lt : ∀ k ∈ part.here, k < entries.length
  grows : Grows w w'
  low : Low (entries.map (·.1.name)) part.draft

end

variable {entries : List (Reduction × Draft)} {total : String → Nat} {factors : Index → List Index}
  {used : List String}

/-! ### Uses to come -/

theorem rest_cons {placed : List Nat} {t : Nat} (ht : t ∉ placed) (hlt : t < entries.length)
    (x : String) : rest entries placed x = readsIn entries x t + rest entries (t :: placed) x := by
  have hset : (Finset.range entries.length).filter (· ∉ placed) =
      insert t ((Finset.range entries.length).filter (· ∉ t :: placed)) := by
    ext k
    simp only [Finset.mem_filter, Finset.mem_range, Finset.mem_insert, List.mem_cons]
    by_cases hk : k = t
    · simp [hk, ht, hlt]
    · simp [hk]
  rw [rest, hset, Finset.sum_insert (by simp), rest]

theorem rest_congr {placed placed' : List Nat} (h : placed.Perm placed') (x : String) :
    rest entries placed x = rest entries placed' x := by
  unfold rest
  refine Finset.sum_congr (Finset.filter_congr fun k _ => ?_) fun _ _ => rfl
  rw [h.mem_iff]

theorem rest_append {placed : List Nat} :
    ∀ {here : List Nat}, (here ++ placed).Nodup → (∀ k ∈ here, k < entries.length) → ∀ x,
      rest entries placed x = (here.map (readsIn entries x)).sum + rest entries (here ++ placed) x
  | [], _, _, _ => by simp
  | k :: here, hnodup, hlt, x => by
    rw [List.cons_append, List.nodup_cons] at hnodup
    rw [rest_append hnodup.2 (fun j hj => hlt j (List.mem_cons_of_mem k hj)),
      rest_cons hnodup.1 (hlt k (by simp)), List.map_cons, List.sum_cons, List.cons_append]
    omega

theorem rest_of_perm {placed placed' here : List Nat} (hperm : placed'.Perm (here ++ placed))
    (hnodup : placed'.Nodup) (hlt : ∀ k ∈ here, k < entries.length) (x : String) :
    rest entries placed x = (here.map (readsIn entries x)).sum + rest entries placed' x := by
  rw [rest_append (hperm.nodup_iff.1 hnodup) hlt, rest_congr hperm]

namespace Ready

variable {placed placed' here : List Nat} {f g : String → Nat}

theorem mono (h : Ready entries total placed f) (hg : ∀ x, g x ≤ f x) :
    Ready entries total placed g :=
  ⟨h.nodup, h.lt, fun k e he => (Nat.add_le_add_right (hg _) _).trans (h.le k e he)⟩

theorem le_total (h : Ready entries total placed f) {k : Nat} {e : Reduction × Draft}
    (he : entries[k]? = some e) : f e.1.name + rest entries placed e.1.name ≤ total e.1.name := by
  have := h.le k e he
  split at this <;> omega

theorem eq_zero (h : Ready entries total placed f) {k : Nat} {e : Reduction × Draft}
    (he : entries[k]? = some e) (hk : k ∈ placed) :
    f e.1.name + rest entries placed e.1.name = 0 := by
  have := h.le k e he
  rw [if_pos hk] at this
  omega

theorem length_le (h : Ready entries total placed f) : placed.length ≤ entries.length := by
  have hsub : placed ⊆ List.range entries.length := fun k hk => List.mem_range.2 (h.lt k hk)
  simpa using (h.nodup.subperm hsub).length_le

/-- Once a part has been seen, what remains is to come. -/
theorem after (h : Ready entries total placed (fun x => f x + g x))
    (hperm : placed'.Perm (here ++ placed)) (hnodup : placed'.Nodup)
    (hlt : ∀ k ∈ here, k < entries.length)
    (hfull : ∀ k ∈ here, ∀ e, entries[k]? = some e →
      total e.1.name ≤ f e.1.name + (here.map (readsIn entries e.1.name)).sum) :
    Ready entries total placed' g := by
  refine ⟨hnodup, fun k hk => ?_, fun k e he => ?_⟩
  · rcases List.mem_append.1 (hperm.subset hk) with hk | hk
    · exact hlt k hk
    · exact h.lt k hk
  · have hrest := rest_of_perm hperm hnodup hlt e.1.name
    have hle := h.le k e he
    split
    · next hk =>
      rcases List.mem_append.1 (hperm.subset hk) with hk | hk
      · have hfk := hfull k hk e he
        have hto := h.le_total he
        omega
      · rw [if_pos hk] at hle
        omega
    · next hk =>
      rw [if_neg fun hmem => hk (hperm.symm.subset (List.mem_append_right _ hmem))] at hle
      omega

end Ready

namespace Outcome

variable {c : Draft} {w w' : Workspace (List Nat)} {r : NodeId × Tally} {part : Part}

/-- Uses that have been seen and uses to come make up the same as before. -/
theorem conserved (h : Outcome entries total factors used c w w' r part) (x : String) :
    part.draft.count x + rest entries w'.memory x = c.count x + rest entries w.memory x := by
  rw [h.placed.count_eq, rest_of_perm h.memory h.nodup h.lt]
  omega

theorem ready (h : Outcome entries total factors used c w w' r part) {g : String → Nat}
    (hr : Ready entries total w.memory fun x => c.count x + g x) :
    Ready entries total w'.memory g := by
  refine hr.after h.memory h.nodup h.lt fun k hk e he => ?_
  rw [← h.placed.count_eq]
  exact h.placed.full k hk e he

end Outcome

/-! ### Tallies of entries -/

namespace Tallied

variable {uses more : Tally} {f g : String → Nat}

theorem nil : Tallied entries [] fun _ => 0 := ⟨Tally.ordered_nil, by simp, fun _ _ _ => rfl⟩

theorem congr (h : Tallied entries uses f) (hfg : ∀ x, f x = g x) : Tallied entries uses g :=
  ⟨h.ordered, h.lt, fun k e he => (h.count k e he).trans (hfg _)⟩

theorem merge (h : Tallied entries uses f) (h' : Tallied entries more g) :
    Tallied entries (uses.merge more) fun x => f x + g x := by
  have hcount : ∀ k, Tally.count (uses.merge more) k = Tally.count uses k + Tally.count more k :=
    fun k => Tally.count_merge h'.ordered h.ordered
  have hmem : ∀ {t : Tally}, t.Ordered → (∀ e ∈ t, e.1 < entries.length) → ∀ k,
      0 < Tally.count t k → k < entries.length := fun ho hl k hk =>
    hl (k, _) ((Tally.mem_iff ho).2 ⟨rfl, hk⟩)
  refine ⟨Tally.ordered_merge h'.ordered h.ordered, fun ⟨k, n⟩ he => ?_, fun k e he => ?_⟩
  · obtain ⟨hn, hpos⟩ := (Tally.mem_iff (Tally.ordered_merge h'.ordered h.ordered)).1 he
    rw [hcount] at hn
    rcases Nat.eq_zero_or_pos (Tally.count uses k) with h0 | hk
    · exact hmem h'.ordered h'.lt k (by omega)
    · exact hmem h.ordered h.lt k hk
  · rw [hcount, h.count k e he, h'.count k e he]

end Tallied

end Extraction

end TensorRecipe
