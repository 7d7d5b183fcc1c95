import TensorRecipe.Proofs.LoopBinding.Compositional

/-!
# How loops claim declared positions

The loops of a recipe claim their positions one after another, each the least that is left for it.
What they claim so is the one transpose under which equal loops keep their order
(`transposition_eq_ok_iff`).  Where there is no transpose, the index to blame is the first that
occurs too often: among the loops, or else among the declared indices
(`blames_of_transposition_eq_error`).

Main statement: what `LoopBinding.transpose` gives, marks and throws
(`LoopBinding.stable_or_blames_transpose`).
-/

namespace TensorRecipe

variable {declared loops : List Index} {claimed positions : List Nat}

/-! ### Stable transposes -/

/-- A transpose under which equal loops have their positions in order. -/
structure IsStableTranspose (positions : List Nat) (declared loops : List Index) : Prop extends
    IsTranspose positions declared loops where
  stable : positions.Pairwise fun p q => declared[p]? = declared[q]? → p < q

/-- What loops claim where some positions are claimed already: positions that are left, in order
where the loops are equal, and with none before them left over. -/
structure Claimed (declared : List Index) (claimed : List Nat) (loops : List Index)
    (positions : List Nat) : Prop where
  get : positions.map (declared[·]?) = loops.map some
  fresh : ∀ p ∈ positions, p ∉ claimed
  stable : positions.Pairwise fun p q => declared[p]? = declared[q]? → p < q
  least : ∀ p ∈ positions, ∀ q, declared[q]? = declared[p]? → q ∉ claimed → q ∉ positions → p < q

theorem claim?_eq_some_iff {i : Index} {p : Nat} : claim? declared claimed i = some p ↔
    declared[p]? = some i ∧ p ∉ claimed ∧ ∀ q < p, declared[q]? = some i → q ∈ claimed := by
  rw [claim?, List.find?_range_eq_some]
  constructor
  · rintro ⟨hp, -, hleast⟩
    obtain ⟨hi, hp⟩ : declared[p]? = some i ∧ p ∉ claimed := by simpa using hp
    refine ⟨hi, hp, fun q hq hqi => ?_⟩
    simpa [hqi] using hleast q hq
  · rintro ⟨hi, hp, hleast⟩
    refine ⟨by simp [hi, hp], List.mem_range.2 (List.getElem?_eq_some_iff.1 hi).1, fun q hq => ?_⟩
    by_cases hqi : declared[q]? = some i
    · simp [hleast q hq hqi]
    · simp [hqi]

theorem Claimed.nodup (h : Claimed declared claimed loops positions) : positions.Nodup :=
  h.stable.imp fun hlt heq => (hlt (by rw [heq])).ne heq

theorem Claimed.lt_length (h : Claimed declared claimed loops positions) {p : Nat}
    (hp : p ∈ positions) : p < declared.length := by
  have hmem : declared[p]? ∈ loops.map some := h.get ▸ List.mem_map_of_mem hp
  obtain ⟨i, -, hi⟩ := List.mem_map.1 hmem
  exact (List.getElem?_eq_some_iff.1 hi.symm).1

theorem claimed_nil : Claimed declared claimed [] positions ↔ positions = [] := by
  constructor
  · intro h
    simpa using h.get
  · rintro rfl
    exact ⟨rfl, by simp, .nil, by simp⟩

/-- The first loop claims the least position that is left for it, the others what is left then. -/
theorem claimed_cons {i : Index} {p : Nat} :
    Claimed declared claimed (i :: loops) (p :: positions) ↔
      claim? declared claimed i = some p ∧ Claimed declared (p :: claimed) loops positions := by
  rw [claim?_eq_some_iff]
  constructor
  · intro h
    obtain ⟨hi, hget⟩ : declared[p]? = some i ∧ positions.map (declared[·]?) = loops.map some := by
      simpa using h.get
    have hstable := List.pairwise_cons.1 h.stable
    refine ⟨⟨hi, h.fresh p (by simp), fun q hq hqi => ?_⟩, hget, fun q hq => ?_, hstable.2,
      fun q hq r hr hrc hrp => ?_⟩
    · by_contra hqc
      have hsame : declared[p]? = declared[q]? := hi.trans hqi.symm
      by_cases hmem : q ∈ positions
      · exact absurd (hstable.1 q hmem hsame) (by omega)
      · exact absurd (h.least p (by simp) q hsame.symm hqc (by simp [hmem, hq.ne])) (by omega)
    · have hne : q ≠ p := fun heq => (List.nodup_cons.1 h.nodup).1 (heq ▸ hq)
      simp [hne, h.fresh q (by simp [hq])]
    · rw [List.mem_cons, not_or] at hrc
      exact h.least q (by simp [hq]) r hr hrc.2 (by simp [hrc.1, hrp])
  · rintro ⟨⟨hi, hp, hleast⟩, h⟩
    refine ⟨by simp [hi, h.get], ?_, ?_, ?_⟩
    · simp only [List.forall_mem_cons]
      exact ⟨hp, fun q hq hqc => h.fresh q hq (by simp [hqc])⟩
    · refine List.pairwise_cons.2 ⟨fun q hq hsame => ?_, h.stable⟩
      have hq' := h.fresh q hq
      rw [List.mem_cons, not_or] at hq'
      by_contra hlt
      exact hq'.2 (hleast q (by omega) (hsame ▸ hi))
    · intro q hq r hr hrc hrp
      rw [List.mem_cons, not_or] at hrp
      rcases List.mem_cons.1 hq with rfl | hq
      · by_contra hlt
        exact hrc (hleast r (by omega) (hr.trans hi))
      · exact h.least q hq r hr (by simp [hrc, hrp.1]) hrp.2

theorem claimAll_eq_ok_iff : ∀ {loops : List Index} {claimed positions : List Nat},
    claimAll declared claimed loops = .ok positions ↔ Claimed declared claimed loops positions
  | [], claimed, positions => by
    rw [claimed_nil, claimAll]
    simp [eq_comm]
  | i :: loops, claimed, [] => by
    rw [claimAll_cons_eq_ok]
    refine ⟨?_, fun h => by simpa using h.get⟩
    rintro ⟨_, _, h, -⟩
    cases h
  | i :: loops, claimed, p :: positions => by
    rw [claimAll_cons_eq_ok, claimed_cons, ← claimAll_eq_ok_iff]
    simp

/-- Loops that leave no position over have claimed the stable transpose. -/
theorem isStableTranspose_iff : IsStableTranspose positions declared loops ↔
    Claimed declared [] loops positions ∧ ∀ p < declared.length, p ∈ positions := by
  constructor
  · intro h
    have hall : ∀ p < declared.length, p ∈ positions := fun p hp =>
      h.perm.mem_iff.2 (List.mem_range.2 hp)
    refine ⟨⟨h.get, by simp, h.stable, fun p hp q hq _ hqp => absurd (hall q ?_) hqp⟩, hall⟩
    have hplt : p < declared.length := List.mem_range.1 (h.perm.subset hp)
    rw [List.getElem?_eq_getElem hplt] at hq
    exact (List.getElem?_eq_some_iff.1 hq).1
  · rintro ⟨h, hall⟩
    refine ⟨⟨(List.perm_ext_iff_of_nodup h.nodup List.nodup_range).2 fun p => ?_, h.get⟩, h.stable⟩
    exact ⟨fun hp => List.mem_range.2 (h.lt_length hp), fun hp => hall p (List.mem_range.1 hp)⟩

theorem transposition_eq_ok_iff :
    transposition declared loops = .ok positions ↔
      IsStableTranspose positions declared loops := by
  rw [transposition_eq_ok, claimAll_eq_ok_iff, isStableTranspose_iff]

/-! ### The index to blame -/

/-- At a position stands an index which so far occurs more often than in the other list. -/
def Exceeds (is others : List Index) (k : Nat) (i : Index) : Prop :=
  is[k]? = some i ∧ others.count i < (is.take (k + 1)).count i

/-- The index at the first position where one exceeds. -/
def FirstExcess (is others : List Index) (i : Index) : Prop :=
  ∃ k, Exceeds is others k i ∧ ∀ l < k, ∀ j, ¬ Exceeds is others l j

/-- The index that does not fit is the first of the loops that exceeds the declared indices, or,
where none does, the first of these that exceeds the loops. -/
def Mismatch.Blames (declared loops : List Index) : Mismatch → Prop
  | .undeclared i => FirstExcess loops declared i
  | .unlooped i => (∀ k j, ¬ Exceeds loops declared k j) ∧ FirstExcess declared loops i

theorem FirstExcess.unique {is others : List Index} {i j : Index} (hi : FirstExcess is others i)
    (hj : FirstExcess is others j) : i = j := by
  obtain ⟨k, hk, hfirst⟩ := hi
  obtain ⟨l, hl, hfirst'⟩ := hj
  obtain rfl : k = l := by
    rcases Nat.lt_trichotomy k l with hlt | heq | hlt
    · exact absurd hk (hfirst' k hlt i)
    · exact heq
    · exact absurd hl (hfirst l hlt j)
  exact Option.some.inj (hk.1.symm.trans hl.1)

theorem not_exceeds_of_subperm {is others : List Index} (h : is.Subperm others) (k : Nat) (i : Index) :
    ¬ Exceeds is others k i := by
  rintro ⟨-, hlt⟩
  have htake : (is.take (k + 1)).count i ≤ is.count i := (List.take_sublist _ _).count_le i
  have hcount : is.count i ≤ others.count i := h.count_le i
  omega

theorem exceeds_cons_succ {is others rest : List Index} {i j : Index} {k : Nat}
    (h : others.Perm (i :: rest)) :
    Exceeds (i :: is) others (k + 1) j ↔ Exceeds is rest k j := by
  have hcount : others.count j = (i :: rest).count j := h.count_eq j
  simp only [Exceeds, List.getElem?_cons_succ, List.take_succ_cons, List.count_cons] at hcount ⊢
  refine and_congr_right fun _ => ?_
  omega

theorem not_exceeds_cons_zero {is others : List Index} {i j : Index} (h : i ∈ others) :
    ¬ Exceeds (i :: is) others 0 j := by
  rintro ⟨hj, hlt⟩
  obtain rfl : i = j := by simpa using hj
  have hpos : 0 < others.count i := List.count_pos_iff.2 h
  simp at hlt
  omega

theorem FirstExcess.cons {is others rest : List Index} {i j : Index} (hi : others.Perm (i :: rest))
    (h : FirstExcess is rest j) : FirstExcess (i :: is) others j := by
  obtain ⟨k, hk, hfirst⟩ := h
  refine ⟨k + 1, (exceeds_cons_succ hi).2 hk, fun l hl j' hj' => ?_⟩
  cases l with
  | zero => exact not_exceeds_cons_zero (hi.mem_iff.2 (by simp)) hj'
  | succ l => exact hfirst l (by omega) j' ((exceeds_cons_succ hi).1 hj')

theorem firstExcess_of_claimAll_eq_error {m : Mismatch} :
    ∀ {loops : List Index} {claimed : List Nat}, claimAll declared claimed loops = .error m →
      ∃ i, m = .undeclared i ∧ FirstExcess loops (unclaimed declared claimed) i
  | [], _, h => by simp [claimAll] at h
  | i :: loops, claimed, h => by
    obtain ⟨hp, rfl⟩ | ⟨p, hp, hrest⟩ := claimAll_cons_eq_error.1 h
    · refine ⟨i, rfl, 0, ⟨rfl, ?_⟩, fun l hl => absurd hl l.not_lt_zero⟩
      simp [List.count_eq_zero_of_not_mem (claim?_eq_none hp)]
    · obtain ⟨hi, hpc⟩ := claim?_eq_some hp
      obtain ⟨j, hm, hj⟩ := firstExcess_of_claimAll_eq_error hrest
      exact ⟨j, hm, hj.cons (unclaimed_cons hi hpc)⟩

theorem count_eq_length_filter {is : List Index} {ps : List Nat}
    (h : ps.map (declared[·]?) = is.map some) (i : Index) :
    is.count i = (ps.filter fun p => declared[p]? = some i).length := by
  calc is.count i = (is.map some).count (some i) :=
        (List.count_map_of_injective is some (Option.some_injective _) i).symm
    _ = (ps.filter fun p => declared[p]? = some i).length := by
        rw [← h, List.count, List.countP_map, List.countP_eq_length_filter]
        exact congrArg List.length (List.filter_congr fun p _ => beq_eq_decide _ _)

theorem range_map_getElem? {n : Nat} (h : n ≤ declared.length) :
    (List.range n).map (declared[·]?) = (declared.take n).map some := by
  refine List.ext_getElem (by simp [h]) fun k hk _ => ?_
  have hlt : k < n := by simpa using hk
  simp [hlt.trans_le h]

/-- The first position that no loop claims is the first that exceeds the loops. -/
theorem Claimed.firstExcess (h : Claimed declared [] loops positions) {q : Nat}
    (hq : q < declared.length) (hqp : q ∉ positions) (hfirst : ∀ l < q, l ∈ positions) :
    FirstExcess declared loops declared[q] := by
  have hloops := count_eq_length_filter h.get
  have hupto : ∀ {n}, n ≤ declared.length → ∀ i, (declared.take n).count i =
      ((List.range n).filter fun p => declared[p]? = some i).length := fun hn =>
    count_eq_length_filter (range_map_getElem? hn)
  refine ⟨q, ⟨List.getElem?_eq_getElem hq, ?_⟩, ?_⟩
  · -- all that is claimed of the index there lies before
    have hbefore : (positions.filter fun p => declared[p]? = some declared[q]).Subperm
        ((List.range q).filter fun p => declared[p]? = some declared[q]) := by
      refine (h.nodup.filter _).subperm fun p hp => ?_
      obtain ⟨hp, hpi⟩ := List.mem_filter.1 hp
      have hpi : declared[p]? = some declared[q] := by simpa using hpi
      have hlt := h.least p hp q ((List.getElem?_eq_getElem hq).trans hpi.symm) (by simp) hqp
      exact List.mem_filter.2 ⟨List.mem_range.2 hlt, by simpa using hpi⟩
    have hle := hbefore.length_le
    rw [← hloops, ← hupto hq.le] at hle
    rw [List.take_succ_eq_append_getElem hq, List.count_append]
    simpa using Nat.lt_succ_of_le hle
  · -- all that stands before is claimed
    rintro l hl i ⟨-, hlt⟩
    have hall : ((List.range (l + 1)).filter fun p => declared[p]? = some i).Subperm
        (positions.filter fun p => declared[p]? = some i) := by
      refine (List.nodup_range.filter _).subperm fun p hp => ?_
      obtain ⟨hp, hpi⟩ := List.mem_filter.1 hp
      exact List.mem_filter.2 ⟨hfirst p (by have := List.mem_range.1 hp; omega), hpi⟩
    have hle := hall.length_le
    rw [← hloops, ← hupto (by omega)] at hle
    omega

/-- Where there is no transpose, the index to blame is the first that occurs too often. -/
theorem blames_of_transposition_eq_error {m : Mismatch}
    (h : transposition declared loops = .error m) : m.Blames declared loops := by
  obtain hclaim | ⟨ps, q, j, hclaim, hj, hq, hfirst, rfl⟩ := transposition_eq_error.1 h
  · obtain ⟨i, rfl, hi⟩ := firstExcess_of_claimAll_eq_error hclaim
    rwa [unclaimed_nil] at hi
  · obtain ⟨hlt, rfl⟩ := List.getElem?_eq_some_iff.1 hj
    have hperm := claimAll_eq_ok hclaim
    rw [unclaimed_nil] at hperm
    refine ⟨not_exceeds_of_subperm ?_, (claimAll_eq_ok_iff.1 hclaim).firstExcess hlt hq hfirst⟩
    exact ((List.sublist_append_left _ _).subperm).trans hperm.symm.subperm

/-! ### The pass -/

namespace LoopBinding

open PassM

/-- A refusal marks the index that does not fit, and nothing else, and throws the fault on it. -/
theorem refuse_eq {mismatch : Mismatch} {w : Workspace Marks}
    (hm : w.arena.Resolves mismatch.index) (hd : ∀ i ∈ declared, w.arena.Resolves i) :
    ∃ index texts, names [mismatch.index] w.arena = .ok [index] ∧
      names declared w.arena = .ok texts ∧
      refuse mismatch declared w = .error (mismatch.fault index texts)
        { w with
          events := .unresolvable index texts :: w.events
          memory := w.memory.mark (.index mismatch.index) } := by
  obtain ⟨info, hinfo⟩ := hm.exists_indexInfo
  obtain ⟨texts, htexts⟩ := exists_names hd
  have hname : names [mismatch.index] w.arena = .ok [info.name] := by
    rw [names, List.mapM_cons, hinfo]
    rfl
  refine ⟨info.name, texts, hname, htexts, ?_⟩
  refine (bind_of_ok rfl).trans ?_
  refine (ask_bind_of_ok hinfo).trans ?_
  exact ask_bind_of_ok htexts

theorem transpose_eq {w : Workspace Marks} {factors looped : List Index}
    (hd : w.arena.flatten declared = .ok factors) (hl : w.arena.flatten loops = .ok looped) :
    transpose declared loops w = match transposition factors looped with
      | .ok positions => .ok positions w
      | .error mismatch => refuse mismatch factors w := by
  rw [transpose, ask_bind_of_ok hd, ask_bind_of_ok hl]
  cases transposition factors looped <;> rfl

/-- The pass finds a transpose just when the flattened loops are a rearrangement of the flattened
declared indices.  It is the one under which equal loops keep their order.  Else it marks just the
index to blame, and throws the fault that names it. -/
theorem stable_or_blames_transpose {w : Workspace Marks} {factors looped : List Index}
    (hd : w.arena.flatten declared = .ok factors) (hl : w.arena.flatten loops = .ok looped) :
    ((∃ positions w', transpose declared loops w = .ok positions w') ↔ factors.Perm looped) ∧
    (∀ positions w', transpose declared loops w = .ok positions w' → w' = w ∧
      ∀ ps, IsStableTranspose ps factors looped ↔ ps = positions) ∧
    (¬ factors.Perm looped → ∃ (mismatch : Mismatch) (index : String) (texts : List String), ∃ w',
      transpose declared loops w = .error (mismatch.fault index texts) w' ∧
        Unresolvable (mismatch.fault index texts) ∧ mismatch.Blames factors looped ∧
        names [mismatch.index] w.arena = .ok [index] ∧ names factors w.arena = .ok texts ∧
        ∀ key, w'.memory.isMarked key ↔ key = .index mismatch.index ∨ w.memory.isMarked key) := by
  rw [transpose_eq hd hl, List.perm_comm, ← transposition_isOk_iff]
  cases h : transposition factors looped with
  | ok positions =>
    refine ⟨⟨fun _ => ⟨_, rfl⟩, fun _ => ⟨_, _, rfl⟩⟩, ?_, fun hno => absurd ⟨_, rfl⟩ hno⟩
    rintro ps w' hok
    cases hok
    refine ⟨rfl, fun ps => ?_⟩
    rw [← transposition_eq_ok_iff, h, Except.ok.injEq, eq_comm]
  | error mismatch =>
    obtain ⟨hres, rfl⟩ := Arena.of_flatten_eq_ok hd
    obtain ⟨hres', rfl⟩ := Arena.of_flatten_eq_ok hl
    have hresolves : w.arena.Resolves mismatch.index :=
      (mem_of_transposition_eq_error h).elim (.of_mem_flatMap hres') (.of_mem_flatMap hres)
    obtain ⟨index, texts, hindex, htexts, hrefuse⟩ := refuse_eq hresolves fun i hi =>
      Arena.Resolves.of_mem_flatMap hres hi
    simp only [hrefuse]
    refine ⟨by simp, by simp, fun _ => ⟨mismatch, index, texts, _, rfl, unresolvable_fault _ _ _,
      blames_of_transposition_eq_error h, hindex, htexts, fun key => Marks.isMarked_mark⟩⟩

/-- An index declared twice claims its first position first; one that is not declared is marked. -/
theorem stable_or_blames_transpose_repeated :
    let w : Workspace Marks := ⟨⟨#[], #[⟨"i", 2, .domain, []⟩, ⟨"j", 3, .domain, []⟩]⟩, [], .empty⟩
    (∃ w', transpose [⟨0⟩, ⟨1⟩, ⟨0⟩] [⟨0⟩, ⟨0⟩, ⟨1⟩] w = .ok [0, 2, 1] w') ∧
      ∃ w', transpose [⟨0⟩] [⟨0⟩, ⟨1⟩] w = .error (.undeclared "j" ["i"]) w' ∧
        ∀ key, w'.memory.isMarked key ↔ key = .index ⟨1⟩ := by
  intro w
  have hflat : w.arena.flatten [⟨0⟩, ⟨1⟩, ⟨0⟩] = .ok [⟨0⟩, ⟨1⟩, ⟨0⟩] := rfl
  have hflat' : w.arena.flatten [⟨0⟩, ⟨0⟩, ⟨1⟩] = .ok [⟨0⟩, ⟨0⟩, ⟨1⟩] := rfl
  have hone : w.arena.flatten [⟨0⟩] = .ok [⟨0⟩] := rfl
  have htwo : w.arena.flatten [⟨0⟩, ⟨1⟩] = .ok [⟨0⟩, ⟨1⟩] := rfl
  constructor
  · obtain ⟨hok, hstable, -⟩ := stable_or_blames_transpose hflat hflat'
    obtain ⟨ps, w', hrun⟩ := hok.2 (by decide)
    obtain rfl := ((hstable ps w' hrun).2 [0, 2, 1]).1 ⟨⟨by decide, by decide⟩, by decide⟩
    exact ⟨w', hrun⟩
  · obtain ⟨-, -, hblames⟩ := stable_or_blames_transpose hone htwo
    obtain ⟨mismatch, index, texts, w', hrun, -, hblame, hindex, htexts, hmarked⟩ :=
      hblames (by decide)
    -- the second loop exceeds what is declared, and nothing before it does
    have hsecond : FirstExcess [⟨0⟩, ⟨1⟩] [⟨0⟩] ⟨1⟩ := by
      refine ⟨1, ⟨rfl, by decide⟩, fun l hl j => ?_⟩
      obtain rfl : l = 0 := by omega
      exact not_exceeds_cons_zero (by simp)
    cases mismatch with
    | undeclared i =>
      obtain rfl := hblame.unique hsecond
      cases hindex
      cases htexts
      exact ⟨w', hrun, fun key => (hmarked key).trans (or_iff_left (by simp [Marks.isMarked, w, Marks.empty]))⟩
    | unlooped i =>
      obtain ⟨k, hk, -⟩ := hsecond
      exact absurd hk (hblame.1 k _)

end LoopBinding

end TensorRecipe
