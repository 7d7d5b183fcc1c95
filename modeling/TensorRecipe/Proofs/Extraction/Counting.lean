import TensorRecipe.Extraction.Plan
import TensorRecipe.Proofs.Tree.Indices

/-!
# Counts of references

A `Tally` whose numbers ascend and whose counts are positive adds up as one expects
(`count_merge`), and its entries are its counts (`mem_iff`).  `Tree.occurrences` is what
`Plan.countWithin` counts (`countWithin_eq`).
-/

namespace TensorRecipe

namespace Extraction

namespace Tally

/-- The numbers ascend, and all counts are positive. -/
def Ordered (uses : Tally) : Prop := uses.Pairwise (·.1 < ·.1) ∧ ∀ e ∈ uses, 0 < e.2

theorem ordered_nil : Ordered [] := ⟨.nil, by simp⟩

theorem ordered_singleton (t : Nat) : Ordered [(t, 1)] := ⟨by simp, by simp⟩

theorem Ordered.tail {e : Nat × Nat} {uses : Tally} (h : Ordered (e :: uses)) : Ordered uses :=
  ⟨(List.pairwise_cons.1 h.1).2, fun d hd => h.2 d (List.mem_cons_of_mem e hd)⟩

theorem count_eq_zero {uses : Tally} {t : Nat} (h : ∀ e ∈ uses, e.1 ≠ t) : uses.count t = 0 := by
  have hnone : uses.find? (·.1 = t) = none := by simpa using h
  simp [count, hnone]

theorem Ordered.count_head {t n k : Nat} {uses : Tally} (h : Ordered ((t, n) :: uses))
    (hk : k ≤ t) : uses.count k = 0 :=
  count_eq_zero fun e he heq => by
    have hlt : t < e.1 := (List.pairwise_cons.1 h.1).1 e he
    omega

theorem mem_iff {uses : Tally} (h : uses.Ordered) {t n : Nat} :
    (t, n) ∈ uses ↔ uses.count t = n ∧ 0 < n := by
  induction uses with
  | nil => simp +contextual [count]
  | cons e uses ih =>
    obtain ⟨u, m⟩ := e
    rw [List.mem_cons, count_cons, ih h.tail]
    by_cases htu : u = t
    · subst htu
      have h0 : count uses u = 0 := h.count_head le_rfl
      have hm : 0 < m := h.2 (u, m) (by simp)
      simp only [h0, if_true, Prod.mk.injEq, true_and]
      omega
    · simp [htu, Ne.symm htu]

theorem mem_add {e : Nat × Nat} {t n : Nat} :
    ∀ {uses : Tally}, e ∈ add t n uses → e.1 = t ∨ e ∈ uses
  | [], h => .inl (by simp_all [add])
  | (u, m) :: uses, h => by
    unfold add at h
    split at h
    · next htu =>
      rcases List.mem_cons.1 h with rfl | h
      · exact .inl htu
      · exact .inr (List.mem_cons_of_mem _ h)
    · split at h
      · rcases List.mem_cons.1 h with rfl | h
        · exact .inl rfl
        · exact .inr h
      · rcases List.mem_cons.1 h with rfl | h
        · exact .inr (by simp)
        · exact (mem_add h).imp_right (List.mem_cons_of_mem _)

theorem ordered_add {t n : Nat} (hn : 0 < n) :
    ∀ {uses : Tally}, uses.Ordered → (uses.add t n).Ordered
  | [], _ => ⟨by simp [add], by simp [add, hn]⟩
  | (u, m) :: uses, h => by
    have hm : 0 < m := h.2 (u, m) (by simp)
    have hhead := (List.pairwise_cons.1 h.1).1
    unfold add
    split
    · refine ⟨List.pairwise_cons.2 ⟨hhead, h.tail.1⟩, fun e he => ?_⟩
      rcases List.mem_cons.1 he with rfl | he
      · exact Nat.add_pos_left hm n
      · exact h.tail.2 e he
    · split
      · next hlt =>
        refine ⟨List.pairwise_cons.2 ⟨fun e he => ?_, h.1⟩, fun e he => ?_⟩
        · rcases List.mem_cons.1 he with rfl | he
          · exact hlt
          · exact Nat.lt_trans hlt (hhead e he)
        · rcases List.mem_cons.1 he with rfl | he
          · exact hn
          · exact h.2 e he
      · next hne hlt =>
        have ih := ordered_add (t := t) hn h.tail
        refine ⟨List.pairwise_cons.2 ⟨fun e he => ?_, ih.1⟩, fun e he => ?_⟩
        · rcases mem_add he with heq | he
          · show u < e.1
            omega
          · exact hhead e he
        · rcases List.mem_cons.1 he with rfl | he
          · exact hm
          · exact ih.2 e he

theorem count_add {t n k : Nat} :
    ∀ {uses : Tally}, uses.Ordered →
      (uses.add t n).count k = uses.count k + if k = t then n else 0
  | [], _ => by
    simp only [add, count_cons]
    simp [count, eq_comm]
  | (u, m) :: uses, h => by
    unfold add
    split
    · next htu =>
      subst htu
      simp only [count_cons]
      by_cases hk : u = k
      · subst hk
        simp
      · simp [hk, Ne.symm hk]
    · next hne =>
      split
      · next hlt =>
        rw [count_cons (t := t)]
        by_cases hk : t = k
        · subst hk
          have h0 : count ((u, m) :: uses) t = 0 := by
            rw [count_cons, if_neg hne]
            exact h.count_head hlt.le
          simp [h0]
        · simp [hk, Ne.symm hk]
      · rw [count_cons, count_cons, count_add h.tail]
        by_cases hk : u = k
        · subst hk
          simp [hne]
        · simp [hk]

theorem ordered_merge {more : Tally} (h : more.Ordered) :
    ∀ {uses : Tally}, uses.Ordered → (uses.merge more).Ordered := by
  induction more with
  | nil => exact fun huses => huses
  | cons e more ih => exact fun huses => ih h.tail (ordered_add (h.2 e (by simp)) huses)

theorem count_merge {more : Tally} (h : more.Ordered) {k : Nat} :
    ∀ {uses : Tally}, uses.Ordered → (uses.merge more).count k = uses.count k + more.count k := by
  induction more with
  | nil => exact fun _ => rfl
  | cons e more ih =>
    intro uses huses
    obtain ⟨t, n⟩ := e
    have hn : 0 < n := h.2 (t, n) (by simp)
    show ((uses.add t n).merge more).count k = _
    rw [ih h.tail (ordered_add hn huses), count_add huses, count_cons]
    by_cases hk : t = k
    · subst hk
      simp [h.count_head le_rfl]
    · simp [hk, Ne.symm hk]

theorem count_foldl_merge {k : Nat} :
    ∀ {tallies : List Tally} {uses : Tally}, uses.Ordered → (∀ t ∈ tallies, t.Ordered) →
      (tallies.foldl merge uses).Ordered ∧
        (tallies.foldl merge uses).count k = uses.count k + (tallies.map (·.count k)).sum
  | [], uses, h, _ => ⟨h, by simp⟩
  | more :: tallies, uses, h, hall => by
    have hmore := hall more (by simp)
    obtain ⟨ho, hc⟩ := count_foldl_merge (k := k) (ordered_merge hmore h) fun t ht =>
      hall t (List.mem_cons_of_mem _ ht)
    refine ⟨ho, ?_⟩
    rw [List.foldl_cons, hc, count_merge hmore h, List.map_cons, List.sum_cons, Nat.add_assoc]

end Tally

end Extraction

namespace Tree

mutual

/-- How many variables of a tree have the name. -/
def occurrences (x : String) : Tree → Nat
  | node shape children => (if shape = .var x then 1 else 0) + occurrencesAll x children

/-- How many variables of several trees have the name. -/
def occurrencesAll (x : String) : List Tree → Nat
  | [] => 0
  | t :: ts => occurrences x t + occurrencesAll x ts

end

theorem occurrencesAll_eq (x : String) (ts : List Tree) :
    occurrencesAll x ts = (ts.map (occurrences x)).sum := by
  induction ts with
  | nil => rfl
  | cons t ts ih => rw [occurrencesAll, ih, List.map_cons, List.sum_cons]

theorem occurrences_le_of_mem (x : String) {t : Tree} {shape : Shape} {children : List Tree}
    (h : t ∈ children) : t.occurrences x ≤ (node shape children).occurrences x := by
  rw [occurrences, occurrencesAll_eq]
  exact (List.single_le_sum (by simp) _ (List.mem_map_of_mem h)).trans (Nat.le_add_left _ _)

end Tree

namespace Extraction

namespace Plan

/-- Only variables refer to temporaries. -/
theorem exists_var_of_refersTo? {temporaries : List Temporary} {node : Node} {k : Nat}
    (h : refersTo? temporaries node = some k) : ∃ x, node = .var x := by
  cases node with
  | var x => exact ⟨x, rfl⟩
  | _ => cases h

theorem refersTo?_var {temporaries : List Temporary}
    (h : (temporaries.map Temporary.name).Nodup) {x : String} {k : Nat} :
    refersTo? temporaries (.var x) = some k ↔ (temporaries.map Temporary.name)[k]? = some x := by
  rw [refersTo?, List.findIdx?_eq_some_iff_getElem]
  constructor
  · rintro ⟨hlt, hx, -⟩
    rw [List.getElem?_map, List.getElem?_eq_getElem hlt]
    simpa using hx
  · intro hk
    obtain ⟨t, ht, rfl⟩ : ∃ t, temporaries[k]? = some t ∧ t.name = x := by
      simpa [List.getElem?_map, Option.map_eq_some_iff] using hk
    obtain ⟨hlt, rfl⟩ := List.getElem?_eq_some_iff.1 ht
    refine ⟨hlt, by simp, fun j hj => ?_⟩
    have hne := (List.pairwise_iff_getElem.1 h) j k (by simp; omega) (by simpa using hlt) hj
    simpa using hne

theorem refersTo?_eq_none {temporaries : List Temporary} {node : Node}
    (h : ∀ x, node = .var x → x ∉ temporaries.map Temporary.name) :
    refersTo? temporaries node = none := by
  cases node with
  | var x =>
    rw [refersTo?, List.findIdx?_eq_none_iff]
    intro t ht
    have : t.name ≠ x := fun heq => h x rfl (heq ▸ List.mem_map_of_mem ht)
    simpa using this
  | _ => rfl

/-- The tally has as many references to every temporary as there are occurrences of its name. -/
structure Tallies (temporaries : List Temporary) (uses : Tally) (occurrences : String → Nat) :
    Prop where
  ordered : uses.Ordered
  count : ∀ {k x}, (temporaries.map Temporary.name)[k]? = some x → uses.count k = occurrences x

/-- A node that refers to a temporary is counted once, for that one. -/
theorem tallies_reference {temporaries : List Temporary}
    (hnodup : (temporaries.map Temporary.name).Nodup) {x : String} {k : Nat}
    (h : refersTo? temporaries (.var x) = some k) :
    Tallies temporaries [(k, 1)] (Tree.occurrences · (.node (.var x) [])) := by
  refine ⟨Tally.ordered_singleton k, fun {j y} hj => ?_⟩
  rw [refersTo?_var hnodup] at h
  have hiff : k = j ↔ x = y := by
    constructor
    · rintro rfl
      simpa [h] using hj
    · rintro rfl
      have hk' := (List.getElem?_eq_some_iff.1 h)
      have hj' := (List.getElem?_eq_some_iff.1 hj)
      exact (hnodup.getElem_inj_iff).1 (hk'.2.trans hj'.2.symm)
  rw [Tally.count_cons]
  simp only [Tree.occurrences, Tree.occurrencesAll, Shape.var.injEq, hiff, Tally.count,
    List.find?_nil, Option.map_none, Option.getD_none, Nat.add_zero]

/-- What is counted in several trees adds up to what there is in all of them. -/
theorem tallies_foldl {temporaries : List Temporary} {count : NodeId → Except Fault Tally}
    {ids : List NodeId} {ts : List Tree} (h : List.Forall₂ (fun c t => ∃ uses, count c = .ok uses ∧
      Tallies temporaries uses (Tree.occurrences · t)) ids ts) :
    ∃ tallies, ids.mapM count = .ok tallies ∧
      Tallies temporaries (tallies.foldl Tally.merge []) (Tree.occurrencesAll · ts) := by
  obtain ⟨tallies, hok, hordered, hcount⟩ : ∃ tallies : List Tally, ids.mapM count = .ok tallies ∧
      (∀ t ∈ tallies, t.Ordered) ∧ ∀ k x, (temporaries.map Temporary.name)[k]? = some x →
        (tallies.map (·.count k)).sum = Tree.occurrencesAll x ts := by
    induction h with
    | nil => exact ⟨[], rfl, by simp, fun _ _ _ => rfl⟩
    | cons hid _ ih =>
      obtain ⟨uses, huses, htallies⟩ := hid
      obtain ⟨tallies, hok, hordered, hcount⟩ := ih
      refine ⟨uses :: tallies, ?_, by simpa using ⟨htallies.ordered, hordered⟩, fun k x hk => ?_⟩
      · rw [List.mapM_cons, huses, hok]
        rfl
      · rw [List.map_cons, List.sum_cons, htallies.count hk, hcount k x hk, Tree.occurrencesAll]
  refine ⟨tallies, hok, (Tally.count_foldl_merge (k := 0) Tally.ordered_nil hordered).1,
    fun {k x} hk => ?_⟩
  rw [(Tally.count_foldl_merge Tally.ordered_nil hordered).2, hcount k x hk]
  exact Nat.zero_add _

theorem countWithin_eq {temporaries : List Temporary}
    (hnodup : (temporaries.map Temporary.name).Nodup) {a : Arena} (t : Tree) :
    ∀ {id : NodeId} {depth : Nat}, a.Unfolds id t → t.height ≤ depth →
      ∃ uses, countWithin temporaries a depth id = .ok uses ∧
        Tallies temporaries uses (Tree.occurrences · t) := by
  induction t using Tree.induct with
  | node shape children ih =>
    intro id depth h hdepth
    obtain ⟨depth, rfl, hheight⟩ := Tree.height_le_iff.1 hdepth
    obtain ⟨n, hn, rfl, hc⟩ := h.get_of_child fun c _ t ht hct => ih t ht hct (hheight t ht)
    cases href : refersTo? temporaries n with
    | some k =>
      obtain ⟨x, rfl⟩ := exists_var_of_refersTo? href
      obtain rfl : children = [] := by cases hc; rfl
      refine ⟨[(k, 1)], ?_, tallies_reference hnodup href⟩
      simp [countWithin, hn, href, bind, Except.bind, pure, Except.pure]
    | none =>
      obtain ⟨tallies, htallies, hsum⟩ := tallies_foldl hc
      refine ⟨tallies.foldl Tally.merge [], ?_, hsum.ordered, fun {k x} hk => ?_⟩
      · simp [countWithin, hn, href, htallies, bind, Except.bind, pure, Except.pure]
      · have hne : n.shape ≠ .var x := by
          intro hx
          obtain rfl := Node.eq_var hx
          rw [(refersTo?_var hnodup).2 hk] at href
          cases href
        rw [hsum.count hk, Tree.occurrences, if_neg hne, Nat.zero_add]

end Plan

end Extraction

end TensorRecipe
