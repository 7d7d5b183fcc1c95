import TensorRecipe.Proofs.Graph.Meetings

/-!
# Outlines

The outline of a tree shows all of it, down to the indices that nodes carry, and marks the handles
that name nothing instead of leaving the tree without an unfolding.  A handle has an outline, no
higher than a walk may go, as soon as nothing that it reaches lies below itself
(`Arena.exists_outlines`).
-/

namespace TensorRecipe

/-- What lies below something visited: the parts of a node, and nothing below an index. -/
def Visited.parts : Visited → List Key
  | .node _ n => n.parts
  | .index _ _ => []

/-- The fault of looking up what is not there. -/
def Key.fault : Key → Fault
  | .node id => .unknownNode id
  | .index i => .unknownIndex i

/-- A tree, with the handles in it that name nothing. -/
inductive Outline where
  | missing (key : Key)
  | found (visited : Visited) (parts : List Outline)

namespace Outline

theorem induct {motive : Outline → Prop} (missing : ∀ key, motive (.missing key))
    (found : ∀ visited parts, (∀ o ∈ parts, motive o) → motive (.found visited parts)) :
    ∀ o, motive o := by
  intro o
  refine Outline.rec (motive_1 := motive) (motive_2 := fun os => ∀ o ∈ os, motive o) missing found
    ?_ ?_ o
  · simp
  · exact fun o os iho ihos => List.forall_mem_cons.2 ⟨iho, ihos⟩

mutual

/-- The number of outlines on a longest way down. -/
def height : Outline → Nat
  | missing _ => 1
  | found _ parts => heightAll parts + 1

/-- The greatest of the heights of several outlines. -/
def heightAll : List Outline → Nat
  | [] => 0
  | o :: os => max (height o) (heightAll os)

end

theorem heightAll_le_iff {os : List Outline} {n : Nat} :
    heightAll os ≤ n ↔ ∀ o ∈ os, o.height ≤ n := by
  induction os with
  | nil => simp [heightAll]
  | cons o os ih => simp [heightAll, ih]

end Outline

namespace Arena

variable {a : Arena} {id : NodeId} {key : Key} {above : List NodeId}

mutual

/-- The outline of what hangs under a key. -/
def Outlines (a : Arena) : Key → Outline → Prop
  | key, .missing key' => key' = key ∧ ¬ a.HasKey key
  | key, .found visited parts =>
    visited.key = key ∧ a.Has visited ∧ a.OutlinesAll visited.parts parts

/-- The outlines of what hangs under several keys. -/
def OutlinesAll (a : Arena) : List Key → List Outline → Prop
  | [], [] => True
  | key :: keys, o :: os => a.Outlines key o ∧ a.OutlinesAll keys os
  | _, _ => False

end

theorem outlinesAll_iff {keys : List Key} {os : List Outline} :
    a.OutlinesAll keys os ↔ List.Forall₂ a.Outlines keys os := by
  induction keys generalizing os with
  | nil => cases os <;> simp [OutlinesAll]
  | cons key keys ih => cases os <;> simp [OutlinesAll, ih]

theorem outlines_missing {key' : Key} :
    a.Outlines key (.missing key') ↔ key' = key ∧ ¬ a.HasKey key := by
  rw [Outlines]

theorem outlines_found {visited : Visited} {parts : List Outline} :
    a.Outlines key (.found visited parts) ↔
      visited.key = key ∧ a.Has visited ∧ List.Forall₂ a.Outlines visited.parts parts := by
  rw [Outlines, outlinesAll_iff]

theorem get_of_not_hasKey (h : ¬ a.HasKey (.node id)) : a.get id = .error (.unknownNode id) := by
  cases hn : a.nodes[id.pos]? with
  | none => simp [get, hn]
  | some node => exact absurd (hasKey_node_iff.2 ⟨node, get_eq_ok.2 hn⟩) h

theorem indexInfo_of_not_hasKey {i : Index} (h : ¬ a.HasKey (.index i)) :
    a.indexInfo i = .error (.unknownIndex i) :=
  indexInfo_of_not_exists fun ⟨info, hinfo⟩ => h ⟨.index i info, hinfo, rfl⟩

/-- An index hangs alone, or is missing. -/
theorem exists_outlines_index (a : Arena) (i : Index) :
    ∃ o, a.Outlines (.index i) o ∧ o.height = 1 := by
  by_cases h : a.HasKey (.index i)
  · obtain ⟨visited, hv, hkey⟩ := h
    cases visited with
    | node id node => cases hkey
    | index j info => exact ⟨.found _ [], outlines_found.2 ⟨hkey, hv, .nil⟩, rfl⟩
  · exact ⟨.missing _, outlines_missing.2 ⟨rfl, h⟩, rfl⟩

theorem length_le_of_nodup (hnodup : above.Nodup) (h : ∀ c ∈ above, a.HasKey (.node c)) :
    above.length ≤ a.size := by
  have hpos : (above.map NodeId.pos).Nodup := hnodup.map fun ⟨p⟩ ⟨q⟩ hpq => congrArg NodeId.mk hpq
  have hsub : above.map NodeId.pos ⊆ List.range a.size := by
    intro p hp
    obtain ⟨c, hc, rfl⟩ := List.mem_map.1 hp
    obtain ⟨node, hn⟩ := hasKey_node_iff.1 (h c hc)
    exact List.mem_range.2 (pos_lt_of_get hn)
  simpa using (hpos.subperm hsub).length_le

/-- What lies below the nodes `above`, all different, has an outline so high that these leave room
for it. -/
theorem exists_outlines_below :
    ∀ (depth : Nat) {id : NodeId} {above : List NodeId}, above.Nodup →
      (∀ c ∈ above, a.HasKey (.node c) ∧ a.Below c id) → (∀ c, a.Reaches id c → ¬ a.Below c c) →
      above.length + depth = a.size + 1 → ∃ o, a.Outlines (.node id) o ∧ o.height ≤ depth
  | 0, _, above, hnodup, habove, _, hlength => by
    have := length_le_of_nodup hnodup fun c hc => (habove c hc).1
    omega
  | depth + 1, id, above, hnodup, habove, hacyclic, hlength => by
    by_cases hid : a.HasKey (.node id)
    · obtain ⟨node, hn⟩ := hasKey_node_iff.1 hid
      have hnodup' : (id :: above).Nodup :=
        List.nodup_cons.2 ⟨fun hmem => hacyclic id .refl (habove id hmem).2, hnodup⟩
      have hthere : ∀ c ∈ id :: above, a.HasKey (.node c) :=
        List.forall_mem_cons.2 ⟨hid, fun c hc => (habove c hc).1⟩
      have hroom : 1 ≤ depth := by
        have := length_le_of_nodup hnodup' hthere
        simp only [List.length_cons] at this
        omega
      have hpart : ∀ key ∈ node.parts, ∃ o, a.Outlines key o ∧ o.height ≤ depth := by
        intro key hkey
        cases key with
        | index i =>
          obtain ⟨o, ho, hheight⟩ := exists_outlines_index a i
          exact ⟨o, ho, hheight.trans_le hroom⟩
        | node c =>
          have hstep : a.Child id c := ⟨node, hn, by simpa [Node.parts] using hkey⟩
          refine exists_outlines_below depth hnodup' (fun d hd => ⟨hthere d hd, ?_⟩)
            (fun d hd => hacyclic d (.head hstep hd)) (by simp only [List.length_cons]; omega)
          rcases List.mem_cons.1 hd with rfl | hd
          · exact .single hstep
          · exact (habove d hd).2.tail hstep
      obtain ⟨parts, hparts⟩ := exists_forall₂ hpart
      refine ⟨.found (.node id node) parts,
        outlines_found.2 ⟨rfl, hn, hparts.imp fun _ _ h => h.1⟩, ?_⟩
      refine Nat.succ_le_succ (Outline.heightAll_le_iff.2 fun o ho => ?_)
      obtain ⟨key, -, -, hheight⟩ := exists_of_mem_right hparts ho
      exact hheight
    · exact ⟨.missing _, outlines_missing.2 ⟨rfl, hid⟩, Nat.le_add_left 1 depth⟩

/-- Where nothing lies below itself there is an outline, whether or not handles name something. -/
theorem exists_outlines (hacyclic : ∀ c, a.Reaches id c → ¬ a.Below c c) :
    ∃ o, a.Outlines (.node id) o ∧ o.height ≤ a.size + 1 :=
  exists_outlines_below (a.size + 1) (List.nodup_nil (α := NodeId)) (by simp) hacyclic (by simp)

end Arena

end TensorRecipe
