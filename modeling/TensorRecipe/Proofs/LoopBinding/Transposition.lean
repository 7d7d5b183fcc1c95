import TensorRecipe.LoopBinding
import TensorRecipe.Proofs.Tree.Indices
import Mathlib

/-!
# When there is a transposition

`transposition declared loops` exists just when the loops are a rearrangement of the declared
indices (`transposition_isOk_iff`).  The proof follows what is left of the declared indices while
the loops claim their positions, `unclaimed`.
-/

namespace TensorRecipe

/-- The positions are those of the loops among the declared indices, and each occurs once. -/
structure IsTranspose (positions : List Nat) (declared loops : List Index) : Prop where
  perm : positions.Perm (List.range declared.length)
  get : positions.map (declared[·]?) = loops.map some

instance (positions : List Nat) (declared loops : List Index) :
    Decidable (IsTranspose positions declared loops) :=
  decidable_of_iff (positions.Perm (List.range declared.length) ∧
    positions.map (declared[·]?) = loops.map some) ⟨fun h => ⟨h.1, h.2⟩, fun h => ⟨h.1, h.2⟩⟩

theorem IsTranspose.map {positions : List Nat} {declared loops : List Index}
    (h : IsTranspose positions declared loops) (φ : Index → Index) :
    IsTranspose positions (declared.map φ) (loops.map φ) := by
  refine ⟨by simpa using h.perm, ?_⟩
  calc positions.map ((declared.map φ)[·]?) = (positions.map (declared[·]?)).map (Option.map φ) := by
        simp
    _ = (loops.map φ).map some := by rw [h.get]; simp

/-! ### What is left -/

/-- The declared indices at positions not claimed yet. -/
def unclaimed (declared : List Index) (claimed : List Nat) : List Index :=
  ((List.range declared.length).filter (· ∉ claimed)).filterMap (declared[·]?)

theorem unclaimed_nil (declared : List Index) : unclaimed declared [] = declared := by
  have hget : ∀ p ∈ List.range declared.length,
      declared[p]? = some (declared.getD p ⟨0⟩) := by
    intro p hp
    simp [List.mem_range.1 hp]
  have hmap : (List.range declared.length).filterMap (declared[·]?) =
      (List.range declared.length).map (declared.getD · ⟨0⟩) := by
    rw [List.filterMap_congr hget]
    exact congrFun List.filterMap_eq_map' _
  have hlist : (List.range declared.length).map (declared.getD · ⟨0⟩) = declared := by
    refine List.ext_getElem (by simp) fun k hk hk' => ?_
    simp [hk']
  simpa [unclaimed] using hmap.trans hlist

theorem mem_unclaimed {declared : List Index} {claimed : List Nat} {i : Index} :
    i ∈ unclaimed declared claimed ↔ ∃ p, declared[p]? = some i ∧ p ∉ claimed := by
  simp only [unclaimed, List.mem_filterMap, List.mem_filter, List.mem_range, decide_eq_true_eq]
  constructor
  · rintro ⟨p, ⟨-, hp⟩, hi⟩
    exact ⟨p, hi, hp⟩
  · rintro ⟨p, hi, hp⟩
    exact ⟨p, ⟨(List.getElem?_eq_some_iff.1 hi).1, hp⟩, hi⟩

theorem claim?_eq_some {declared : List Index} {claimed : List Nat} {i : Index} {p : Nat}
    (h : claim? declared claimed i = some p) : declared[p]? = some i ∧ p ∉ claimed := by
  simpa using List.find?_some h

theorem claim?_eq_none {declared : List Index} {claimed : List Nat} {i : Index}
    (h : claim? declared claimed i = none) : i ∉ unclaimed declared claimed := by
  rw [mem_unclaimed]
  rintro ⟨p, hi, hp⟩
  have hlt : p < declared.length := (List.getElem?_eq_some_iff.1 hi).1
  have := List.find?_eq_none.1 h p (List.mem_range.2 hlt)
  simp [hi, hp] at this

theorem unclaimed_cons {declared : List Index} {claimed : List Nat} {i : Index} {p : Nat}
    (hi : declared[p]? = some i) (hp : p ∉ claimed) :
    (unclaimed declared claimed).Perm (i :: unclaimed declared (p :: claimed)) := by
  have hlt : p < declared.length := (List.getElem?_eq_some_iff.1 hi).1
  have hmem : p ∈ (List.range declared.length).filter (· ∉ claimed) := by simp [hlt, hp]
  have hnodup : ((List.range declared.length).filter (· ∉ claimed)).Nodup :=
    List.nodup_range.filter _
  have herase : (List.range declared.length).filter (· ∉ p :: claimed) =
      ((List.range declared.length).filter (· ∉ claimed)).erase p := by
    rw [hnodup.erase_eq_filter, List.filter_filter]
    congr 1
    funext q
    by_cases hq : q = p <;> simp [hq]
  have hperm := (List.perm_cons_erase hmem).filterMap (declared[·]?)
  rwa [List.filterMap_cons, hi, ← herase] at hperm

/-- What the loops claim may be read in any order. -/
theorem unclaimed_congr {declared : List Index} {claimed claimed' : List Nat}
    (h : ∀ p, p ∈ claimed ↔ p ∈ claimed') :
    unclaimed declared claimed = unclaimed declared claimed' := by
  simp only [unclaimed, h]

/-! ### Claims one after another -/

variable {declared loops : List Index} {claimed positions : List Nat} {i : Index} {m : Mismatch}

theorem claimAll_cons_eq_ok : claimAll declared claimed (i :: loops) = .ok positions ↔
    ∃ p ps, positions = p :: ps ∧ claim? declared claimed i = some p ∧
      claimAll declared (p :: claimed) loops = .ok ps := by
  rw [claimAll]
  cases claim? declared claimed i with
  | none => simp
  | some p =>
    constructor
    · intro h
      obtain ⟨ps, hps, h⟩ := exists_of_bind_eq_ok h
      cases h
      exact ⟨p, ps, rfl, rfl, hps⟩
    · rintro ⟨q, ps, rfl, hpq, hps⟩
      obtain rfl : p = q := Option.some.inj hpq
      simp only [hps]
      rfl

/-- The loop to blame is the first without a position, or comes later. -/
theorem claimAll_cons_eq_error : claimAll declared claimed (i :: loops) = .error m ↔
    (claim? declared claimed i = none ∧ m = .undeclared i) ∨
      ∃ p, claim? declared claimed i = some p ∧
        claimAll declared (p :: claimed) loops = .error m := by
  rw [claimAll]
  cases claim? declared claimed i with
  | none => simp [eq_comm]
  | some p => cases hrest : claimAll declared (p :: claimed) loops <;>
      simp [hrest, bind, Except.bind, pure, Except.pure]

theorem transposition_eq_ok : transposition declared loops = .ok positions ↔
    claimAll declared [] loops = .ok positions ∧ ∀ p < declared.length, p ∈ positions := by
  rw [transposition]
  cases claimAll declared [] loops with
  | error m => simp [bind, Except.bind]
  | ok ps =>
    simp only [bind, Except.bind, Except.ok.injEq]
    cases hfind : (List.range declared.length).find? (· ∉ ps) with
    | none =>
      have hall : ∀ p < declared.length, p ∈ ps := by simpa using hfind
      exact ⟨fun h => ⟨by cases h; rfl, by cases h; exact hall⟩, fun h => h.1 ▸ rfl⟩
    | some p =>
      have hlt : p < declared.length := List.mem_range.1 (List.mem_of_find?_eq_some hfind)
      have hps : p ∉ ps := by simpa using List.find?_some hfind
      simp only [List.getElem?_eq_getElem hlt, reduceCtorEq, false_iff]
      rintro ⟨rfl, hall⟩
      exact hps (hall p hlt)

/-- There is none if a loop finds no position, or else if a position is left over, and then the
first that is. -/
theorem transposition_eq_error : transposition declared loops = .error m ↔
    claimAll declared [] loops = .error m ∨
      ∃ ps p j, claimAll declared [] loops = .ok ps ∧ declared[p]? = some j ∧ p ∉ ps ∧
        (∀ q < p, q ∈ ps) ∧ m = .unlooped j := by
  rw [transposition]
  cases claimAll declared [] loops with
  | error m' => simp [bind, Except.bind]
  | ok ps =>
    simp only [bind, Except.bind, reduceCtorEq, false_or, Except.ok.injEq]
    constructor
    · intro h
      split at h
      · next p hfind =>
        have hlt : p < declared.length := List.mem_range.1 (List.mem_of_find?_eq_some hfind)
        obtain ⟨hp, -, hfirst⟩ := List.find?_range_eq_some.1 hfind
        rw [List.getElem?_eq_getElem hlt] at h
        exact ⟨ps, p, _, rfl, List.getElem?_eq_getElem hlt, by simpa using hp, by simpa using hfirst,
          (Except.error.inj h).symm⟩
      · cases h
    · rintro ⟨_, p, j, rfl, hj, hp, hfirst, rfl⟩
      have hlt : p < declared.length := (List.getElem?_eq_some_iff.1 hj).1
      have hfind : (List.range declared.length).find? (· ∉ ps) = some p :=
        List.find?_range_eq_some.2 ⟨by simpa using hp, List.mem_range.2 hlt, by simpa using hfirst⟩
      simp only [hfind, hj]

/-- Loops that all get a position get the positions of equal indices, and leave the others. -/
theorem claimAll_eq_ok :
    ∀ {loops : List Index} {claimed ps : List Nat}, claimAll declared claimed loops = .ok ps →
      (unclaimed declared claimed).Perm (loops ++ unclaimed declared (ps ++ claimed))
  | [], claimed, ps, h => by
    obtain rfl : [] = ps := by simpa [claimAll] using h
    exact List.Perm.refl _
  | i :: loops, claimed, _, h => by
    obtain ⟨p, ps, rfl, hp, hps⟩ := claimAll_cons_eq_ok.1 h
    obtain ⟨hi, hpc⟩ := claim?_eq_some hp
    have hset : unclaimed declared (ps ++ p :: claimed) = unclaimed declared (p :: ps ++ claimed) :=
      unclaimed_congr fun _ => List.perm_middle.mem_iff
    calc (unclaimed declared claimed).Perm (i :: unclaimed declared (p :: claimed)) :=
          unclaimed_cons hi hpc
      _ |>.Perm (i :: (loops ++ unclaimed declared (ps ++ p :: claimed))) :=
          (claimAll_eq_ok hps).cons i
      _ |>.Perm (i :: loops ++ unclaimed declared (p :: ps ++ claimed)) := by rw [hset]; rfl

/-- Loops that do not all get a position are not among what is left. -/
theorem claimAll_eq_error :
    ∀ {loops : List Index} {claimed : List Nat}, claimAll declared claimed loops = .error m →
      ∀ rest, ¬ (unclaimed declared claimed).Perm (loops ++ rest)
  | [], _, h => by simp [claimAll] at h
  | i :: loops, claimed, h => by
    intro rest hperm
    obtain ⟨hp, -⟩ | ⟨p, hp, hrest⟩ := claimAll_cons_eq_error.1 h
    · exact claim?_eq_none hp (hperm.mem_iff.2 (by simp))
    · obtain ⟨hi, hpc⟩ := claim?_eq_some hp
      exact claimAll_eq_error hrest rest ((unclaimed_cons hi hpc).symm.trans hperm).cons_inv

/-- There is a transposition just when the loops are a rearrangement of the declared indices. -/
theorem transposition_isOk_iff :
    (∃ ps, transposition declared loops = .ok ps) ↔ loops.Perm declared := by
  constructor
  · rintro ⟨ps, h⟩
    obtain ⟨hclaim, hall⟩ := transposition_eq_ok.1 h
    have hnone : unclaimed declared ps = [] := by
      refine List.eq_nil_iff_forall_not_mem.2 fun i hi => ?_
      obtain ⟨p, hp, hps⟩ := mem_unclaimed.1 hi
      exact hps (hall p (List.getElem?_eq_some_iff.1 hp).1)
    have hperm := claimAll_eq_ok hclaim
    rw [unclaimed_nil, List.append_nil, hnone, List.append_nil] at hperm
    exact hperm.symm
  · intro hperm
    cases h : transposition declared loops with
    | ok ps => exact ⟨ps, rfl⟩
    | error m =>
      obtain hclaim | ⟨ps, p, j, hclaim, hj, hp, -, -⟩ := transposition_eq_error.1 h
      · refine absurd ?_ (claimAll_eq_error hclaim [])
        rw [unclaimed_nil, List.append_nil]
        exact hperm.symm
      · -- what is left over makes the declared indices more than the loops
        have hleft := claimAll_eq_ok hclaim
        rw [unclaimed_nil, List.append_nil] at hleft
        have hlength := (hperm.trans hleft).length_eq
        have hpos := List.length_pos_of_mem (mem_unclaimed.2 ⟨p, hj, hp⟩)
        rw [List.length_append] at hlength
        omega

theorem mem_of_claimAll_eq_error :
    ∀ {loops : List Index} {claimed : List Nat}, claimAll declared claimed loops = .error m →
      m.index ∈ loops
  | [], _, h => by simp [claimAll] at h
  | i :: loops, claimed, h => by
    obtain ⟨-, rfl⟩ | ⟨p, -, hrest⟩ := claimAll_cons_eq_error.1 h
    · exact List.mem_cons_self
    · exact List.mem_cons_of_mem i (mem_of_claimAll_eq_error hrest)

theorem mem_of_transposition_eq_error (h : transposition declared loops = .error m) :
    m.index ∈ loops ∨ m.index ∈ declared := by
  obtain hclaim | ⟨ps, p, j, -, hj, -, -, rfl⟩ := transposition_eq_error.1 h
  · exact .inl (mem_of_claimAll_eq_error hclaim)
  · exact .inr (List.mem_of_getElem? hj)

end TensorRecipe
