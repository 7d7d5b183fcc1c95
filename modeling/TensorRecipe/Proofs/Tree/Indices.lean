import TensorRecipe.Arena.Flatten
import TensorRecipe.Proofs.Tree.Unfolding

/-!
# Factors of indices

An index resolves when it and every factor below it name entries of the index table.  Then it has
scalar factors, `a.factors i`, and `Arena.flatten` lists those of several indices one after another
(`flatten_eq`).  A tree is well formed when it unfolds and every index it mentions resolves.
-/

namespace TensorRecipe

theorem mapM_congr {m : Type → Type} [Monad m] [LawfulMonad m] {α β : Type} {f g : α → m β} :
    ∀ {xs : List α}, (∀ x ∈ xs, f x = g x) → xs.mapM f = xs.mapM g
  | [], _ => rfl
  | x :: xs, h => by
    rw [List.mapM_cons, List.mapM_cons, h x (by simp),
      mapM_congr fun y hy => h y (List.mem_cons_of_mem x hy)]

theorem mapM_eq_ok {ε α β : Type} {f : α → Except ε β} {g : α → β} :
    ∀ {xs : List α}, (∀ x ∈ xs, f x = .ok (g x)) → xs.mapM f = .ok (xs.map g)
  | [], _ => rfl
  | x :: xs, h => by
    rw [List.mapM_cons, h x (by simp), mapM_eq_ok fun y hy => h y (List.mem_cons_of_mem x hy)]
    rfl

theorem exists_of_bind_eq_ok {ε α β : Type} {r : Except ε α} {f : α → Except ε β} {y : β}
    (h : r >>= f = .ok y) : ∃ x, r = .ok x ∧ f x = .ok y := by
  cases r with
  | ok x => exact ⟨x, rfl, h⟩
  | error e => cases h

theorem error_of_bind_eq_error {ε α β : Type} {r : Except ε α} {f : α → Except ε β} {e : ε}
    (h : r >>= f = .error e) : r = .error e ∨ ∃ x, r = .ok x ∧ f x = .error e := by
  cases r with
  | ok x => exact .inr ⟨x, rfl, h⟩
  | error e' => exact .inl (congrArg Except.error (Except.error.inj h))

theorem exists_of_mapM_eq_error {ε α β : Type} {f : α → Except ε β} {e : ε} :
    ∀ {xs : List α}, xs.mapM f = .error e → ∃ x ∈ xs, f x = .error e
  | [], h => nomatch h
  | x :: xs, h => by
    rw [List.mapM_cons] at h
    obtain hx | ⟨y, -, h⟩ := error_of_bind_eq_error h
    · exact ⟨x, by simp, hx⟩
    · obtain hxs | ⟨ys, -, h⟩ := error_of_bind_eq_error h
      · obtain ⟨z, hz, hfz⟩ := exists_of_mapM_eq_error hxs
        exact ⟨z, List.mem_cons_of_mem x hz, hfz⟩
      · cases h

theorem forall₂_of_mapM_eq_ok {ε α β : Type} {f : α → Except ε β} :
    ∀ {xs : List α} {ys : List β}, xs.mapM f = .ok ys → List.Forall₂ (f · = .ok ·) xs ys
  | [], _, h => by
    cases h
    exact .nil
  | x :: xs, _, h => by
    rw [List.mapM_cons] at h
    obtain ⟨y, hy, h⟩ := exists_of_bind_eq_ok h
    obtain ⟨ys, hys, h⟩ := exists_of_bind_eq_ok h
    cases h
    exact .cons hy (forall₂_of_mapM_eq_ok hys)

theorem of_mapM_eq_ok {ε α β : Type} {f : α → Except ε β} {xs : List α} {ys : List β}
    (h : xs.mapM f = .ok ys) : ∀ x ∈ xs, ∃ y, f x = .ok y := by
  have hall := forall₂_of_mapM_eq_ok h
  clear h
  induction hall with
  | nil => simp
  | cons hx _ ih => exact List.forall_mem_cons.2 ⟨⟨_, hx⟩, ih⟩

theorem mapM_eq_ok_of_forall₂ {ε α β : Type} {f : α → Except ε β} {xs : List α} {ys : List β}
    (h : List.Forall₂ (f · = .ok ·) xs ys) : xs.mapM f = .ok ys := by
  induction h with
  | nil => rfl
  | cons hd _ ih =>
    rw [List.mapM_cons, hd, ih]
    rfl

theorem exists_mapM_eq_ok {ε α β : Type} {f : α → Except ε β} {xs : List α}
    (h : ∀ x ∈ xs, ∃ y, f x = .ok y) : ∃ ys, xs.mapM f = .ok ys := by
  obtain ⟨ys, hys⟩ := Arena.exists_forall₂ h
  exact ⟨ys, mapM_eq_ok_of_forall₂ hys⟩

namespace Arena

/-- An index and all factors below it name entries of the index table, and none is below itself. -/
inductive Resolves (a : Arena) : Index → Prop
  | intro {i : Index} {info : IndexInfo} (entry : a.indexInfo i = .ok info)
      (factors : ∀ f ∈ info.factors, a.Resolves f) : a.Resolves i

theorem indexInfo_congr {a b : Arena} (h : b.indices = a.indices) (i : Index) :
    b.indexInfo i = a.indexInfo i := by
  simp [indexInfo, h]

theorem Resolves.congr {a b : Arena} (h : b.indices = a.indices) {i : Index} (hi : a.Resolves i) :
    b.Resolves i := by
  induction hi with
  | intro entry _ ih => exact .intro (by rw [indexInfo_congr h, entry]) ih

theorem Resolves.exists_indexInfo {a : Arena} {i : Index} (h : a.Resolves i) :
    ∃ info, a.indexInfo i = .ok info := by
  cases h with
  | intro entry _ => exact ⟨_, entry⟩

theorem indexInfo_lt {a : Arena} {i : Index} {info : IndexInfo} (h : a.indexInfo i = .ok info) :
    i.pos < a.indices.size := by
  unfold indexInfo at h
  split at h
  · next hsome => exact (Array.getElem?_eq_some_iff.1 hsome).1
  · simp at h

theorem indexInfo_of_not_exists {a : Arena} {i : Index} (h : ¬ ∃ info, a.indexInfo i = .ok info) :
    a.indexInfo i = .error (.unknownIndex i) := by
  unfold indexInfo at h ⊢
  split
  · next info hsome => exact absurd ⟨info, by simp [hsome]⟩ h
  · rfl

theorem flattenWithin_congr {a b : Arena} (h : b.indices = a.indices) :
    ∀ depth, b.flattenWithin depth = a.flattenWithin depth
  | 0 => rfl
  | depth + 1 => by
    funext i
    simp only [flattenWithin, indexInfo_congr h, flattenWithin_congr h depth]

theorem flatten_congr {a b : Arena} (h : b.indices = a.indices) (is : List Index) :
    b.flatten is = a.flatten is := by
  simp only [flatten, flattenWithin_congr h, h]

/-! ### How deep factors lie -/

theorem flattenWithin_succ {a : Arena} {depth : Nat} {i : Index} {info : IndexInfo}
    (h : a.indexInfo i = .ok info) :
    a.flattenWithin (depth + 1) i =
      if info.isComposite then (info.factors.mapM (a.flattenWithin depth)).map List.flatten
      else .ok [i] := by
  by_cases hc : info.isComposite
  · simp only [flattenWithin, h, hc, if_true, bind, Except.bind]
    cases info.factors.mapM (a.flattenWithin depth) <;> rfl
  · simp only [flattenWithin, h, hc, bind, Except.bind]
    rfl

theorem flattenWithin_mono {a : Arena} {l : List Index} :
    ∀ {depth i}, a.flattenWithin depth i = .ok l → a.flattenWithin (depth + 1) i = .ok l
  | 0, _, h => by simp [flattenWithin] at h
  | depth + 1, i, h => by
    cases hi : a.indexInfo i with
    | error e => simp [flattenWithin, hi, bind, Except.bind] at h
    | ok info =>
      rw [flattenWithin_succ hi] at h ⊢
      split at h
      · next hc =>
        rw [if_pos hc]
        cases hm : info.factors.mapM (a.flattenWithin depth) with
        | error e => simp [hm, Except.map] at h
        | ok ls =>
          obtain ⟨g, hg⟩ : ∃ g : Index → List Index, ∀ f ∈ info.factors,
              a.flattenWithin depth f = .ok (g f) := by
            have := of_mapM_eq_ok hm
            choose! g hg using this
            exact ⟨g, hg⟩
          rw [mapM_eq_ok hg] at h
          rwa [mapM_eq_ok fun f hf => flattenWithin_mono (hg f hf)]
      · next hc => rw [if_neg hc]; exact h

theorem flattenWithin_le {a : Arena} {l : List Index} {i : Index} {d e : Nat} (hde : d ≤ e)
    (h : a.flattenWithin d i = .ok l) : a.flattenWithin e i = .ok l := by
  induction hde with
  | refl => exact h
  | step _ ih => exact flattenWithin_mono ih

theorem Resolves.exists_flattenWithin {a : Arena} {i : Index} (h : a.Resolves i) :
    ∃ depth l, a.flattenWithin depth i = .ok l := by
  induction h with
  | @intro i info entry _ ih =>
    choose! d l hl using ih
    obtain ⟨e, he⟩ : ∃ e, ∀ f ∈ info.factors, d f ≤ e :=
      ⟨(info.factors.map d).sum, fun f hf => List.single_le_sum (by simp) _ (List.mem_map_of_mem hf)⟩
    refine ⟨e + 1, ?_⟩
    rw [flattenWithin_succ entry,
      mapM_eq_ok fun f hf => flattenWithin_le (he f hf) (hl f hf)]
    split <;> exact ⟨_, rfl⟩

/-- The factors of an index lie at most so deep, and not less. -/
def DeepBy (a : Arena) (k : Nat) (i : Index) : Prop :=
  (∃ l, a.flattenWithin (k + 1) i = .ok l) ∧ ∀ l, a.flattenWithin k i ≠ .ok l

theorem DeepBy.unique {a : Arena} {k k' : Nat} {i : Index} (h : a.DeepBy k i)
    (h' : a.DeepBy k' i) : k = k' := by
  obtain ⟨⟨l, hl⟩, hno⟩ := h
  obtain ⟨⟨l', hl'⟩, hno'⟩ := h'
  rcases Nat.lt_trichotomy k k' with hlt | heq | hgt
  · exact absurd (flattenWithin_le hlt hl) (hno' l)
  · exact heq
  · exact absurd (flattenWithin_le hgt hl') (hno l')

theorem exists_deepBy {a : Arena} {i : Index} {depth : Nat} {l : List Index}
    (h : a.flattenWithin depth i = .ok l) : ∃ k < depth, a.DeepBy k i := by
  classical
  have hex : ∃ d, ∃ l, a.flattenWithin d i = .ok l := ⟨depth, l, h⟩
  obtain ⟨k, hk⟩ : ∃ k, Nat.find hex = k + 1 := by
    refine Nat.exists_eq_succ_of_ne_zero fun h0 => ?_
    obtain ⟨l, hl⟩ := Nat.find_spec hex
    rw [h0] at hl
    simp [flattenWithin] at hl
  refine ⟨k, ?_, ?_, ?_⟩
  · have := Nat.find_min' hex ⟨l, h⟩
    omega
  · rw [← hk]
    exact Nat.find_spec hex
  · intro l hl
    exact Nat.find_min hex (by omega : k < Nat.find hex) ⟨l, hl⟩

theorem DeepBy.attained {a : Arena} :
    ∀ {k : Nat} {i : Index}, a.DeepBy k i → ∀ j ≤ k, ∃ f, a.DeepBy j f
  | 0, i, h, j, hj => ⟨i, by rwa [Nat.le_zero.1 hj]⟩
  | k + 1, i, h, j, hj => by
    rcases Nat.lt_or_ge k j with hlt | hle
    · obtain rfl : j = k + 1 := by omega
      exact ⟨i, h⟩
    obtain ⟨⟨l, hl⟩, hno⟩ := h
    cases hi : a.indexInfo i with
    | error e => simp [flattenWithin, hi, bind, Except.bind] at hl
    | ok info =>
      rw [flattenWithin_succ hi] at hl
      split at hl
      · next hc =>
        cases hm : info.factors.mapM (a.flattenWithin (k + 1)) with
        | error e => simp [hm, Except.map] at hl
        | ok ls =>
          have hall := of_mapM_eq_ok hm
          -- some factor is not yet flat one step earlier, or the index itself would be
          obtain ⟨f, hf, hfno⟩ : ∃ f ∈ info.factors, ∀ l, a.flattenWithin k f ≠ .ok l := by
            by_contra hcon
            push Not at hcon
            obtain ⟨ys, hys⟩ := exists_mapM_eq_ok hcon
            refine hno ys.flatten ?_
            rw [flattenWithin_succ hi, if_pos hc, hys]
            rfl
          exact DeepBy.attained ⟨hall f hf, hfno⟩ j hle
      · next hc =>
        refine absurd ?_ (hno [i])
        rw [flattenWithin_succ hi, if_neg hc]

theorem DeepBy.pos_lt {a : Arena} {k : Nat} {i : Index} (h : a.DeepBy k i) :
    i.pos < a.indices.size := by
  obtain ⟨⟨l, hl⟩, -⟩ := h
  cases hi : a.indexInfo i with
  | error e => simp [flattenWithin, hi, bind, Except.bind] at hl
  | ok info => exact indexInfo_lt hi

theorem DeepBy.lt {a : Arena} {k : Nat} {i : Index} (h : a.DeepBy k i) : k < a.indices.size := by
  refine le_of_attained (R := fun k p => a.DeepBy k ⟨p⟩) (fun h => h.pos_lt) DeepBy.unique ?_
  intro j hj
  obtain ⟨f, hf⟩ := h.attained j (by omega)
  exact ⟨f.pos, hf⟩

/-! ### Factors -/

/-- The scalar factors of an index that resolves. -/
def factors (a : Arena) (i : Index) : List Index :=
  match a.flattenWithin (a.indices.size + 1) i with
  | .ok l => l
  | .error _ => []

theorem factors_congr {a b : Arena} (h : b.indices = a.indices) : b.factors = a.factors := by
  funext i
  simp only [factors, flattenWithin_congr h, h]

theorem factors_eq_of_flattenWithin {a : Arena} {i : Index} {depth : Nat} {l : List Index}
    (h : a.flattenWithin depth i = .ok l) : a.flattenWithin a.indices.size i = .ok (a.factors i) := by
  obtain ⟨k, hk, hdeep⟩ := exists_deepBy h
  obtain ⟨l', hl'⟩ := hdeep.1
  have hlt : a.flattenWithin a.indices.size i = .ok l' := flattenWithin_le hdeep.lt hl'
  have hsucc := flattenWithin_mono hlt
  simp only [factors, hsucc, hlt]

theorem Resolves.flattenWithin {a : Arena} {i : Index} (h : a.Resolves i) :
    a.flattenWithin a.indices.size i = .ok (a.factors i) := by
  obtain ⟨depth, l, hl⟩ := h.exists_flattenWithin
  exact factors_eq_of_flattenWithin hl

/-- The factors of a composite index are those of its factors; a scalar index is its own. -/
theorem Resolves.factors_eq {a : Arena} {i : Index} (h : a.Resolves i) {info : IndexInfo}
    (hi : a.indexInfo i = .ok info) :
    a.factors i = if info.isComposite then info.factors.flatMap a.factors else [i] := by
  obtain ⟨entry, hf⟩ := h
  obtain rfl : _ = info := by simpa [entry] using hi
  have h1 := flattenWithin_mono (Resolves.intro entry hf).flattenWithin
  rw [flattenWithin_succ entry, mapM_eq_ok fun f hfm => (hf f hfm).flattenWithin] at h1
  split at h1
  · next hc =>
    rw [if_pos hc, List.flatMap]
    simpa [Except.map] using h1.symm
  · next hc =>
    rw [if_neg hc]
    simpa using h1.symm

theorem flatten_eq {a : Arena} {is : List Index} (h : ∀ i ∈ is, a.Resolves i) :
    a.flatten is = .ok (is.flatMap a.factors) := by
  simp only [flatten, mapM_eq_ok fun i hi => flattenWithin_mono (h i hi).flattenWithin]
  rfl

/-- The factors of an index are scalar: each is its own only factor. -/
theorem Resolves.factors_of_mem {a : Arena} {i : Index} (h : a.Resolves i) {k : Index}
    (hk : k ∈ a.factors i) : a.Resolves k ∧ a.factors k = [k] := by
  induction h with
  | @intro i info entry hf ih =>
    have hi : a.Resolves i := .intro entry hf
    rw [hi.factors_eq entry] at hk
    split at hk
    · obtain ⟨f, hfm, hkf⟩ := List.mem_flatMap.1 hk
      exact ih f hfm hkf
    · next hc =>
      obtain rfl : k = i := by simpa using hk
      exact ⟨hi, by rw [hi.factors_eq entry, if_neg hc]⟩

theorem resolves_of_flattenWithin {a : Arena} :
    ∀ {depth : Nat} {i : Index} {l : List Index}, a.flattenWithin depth i = .ok l → a.Resolves i
  | 0, i, l, h => by simp [Arena.flattenWithin] at h
  | depth + 1, i, l, h => by
    cases hi : a.indexInfo i with
    | error e => simp [Arena.flattenWithin, hi, bind, Except.bind] at h
    | ok info =>
      refine .intro hi fun f hf => ?_
      rw [flattenWithin_succ hi] at h
      split at h
      · cases hm : info.factors.mapM (a.flattenWithin depth) with
        | error e => simp [hm, Except.map] at h
        | ok ls =>
          obtain ⟨l', hl'⟩ := of_mapM_eq_ok hm f hf
          exact resolves_of_flattenWithin hl'
      · next hc =>
        have hnil : info.factors = [] := by simpa [IndexInfo.isComposite] using hc
        simp [hnil] at hf

theorem Resolves.factors_ne_nil {a : Arena} {i : Index} (h : a.Resolves i) : a.factors i ≠ [] := by
  induction h with
  | @intro i info entry hf ih =>
    rw [(Resolves.intro entry hf).factors_eq entry]
    split
    · next hc =>
      obtain ⟨f, hfm⟩ : ∃ f, f ∈ info.factors :=
        List.exists_mem_of_ne_nil _ (by simpa [IndexInfo.isComposite] using hc)
      exact fun hnil => ih f hfm (List.flatMap_eq_nil_iff.1 hnil f hfm)
    · exact List.cons_ne_nil _ _

theorem resolves_iff_factors_ne_nil {a : Arena} {i : Index} :
    a.Resolves i ↔ a.factors i ≠ [] := by
  refine ⟨Resolves.factors_ne_nil, fun h => ?_⟩
  unfold factors at h
  split at h
  · next hl => exact resolves_of_flattenWithin hl
  · exact absurd rfl h

theorem Resolves.of_mem_flatMap {a : Arena} {is : List Index} (h : ∀ i ∈ is, a.Resolves i)
    {k : Index} (hk : k ∈ is.flatMap a.factors) : a.Resolves k := by
  obtain ⟨i, hi, hk⟩ := List.mem_flatMap.1 hk
  exact ((h i hi).factors_of_mem hk).1

theorem of_flatten_eq_ok {a : Arena} {is l : List Index} (h : a.flatten is = .ok l) :
    (∀ i ∈ is, a.Resolves i) ∧ l = is.flatMap a.factors := by
  obtain ⟨ls, hls, -⟩ := exists_of_bind_eq_ok h
  have hres : ∀ i ∈ is, a.Resolves i := by
    intro i hi
    obtain ⟨l', hl'⟩ := of_mapM_eq_ok hls i hi
    exact resolves_of_flattenWithin hl'
  rw [flatten_eq hres] at h
  exact ⟨hres, (Except.ok.inj h).symm⟩

/-- All factors are scalar, whether the index resolves or not. -/
theorem factors_scalar (a : Arena) (i : Index) : ∀ f ∈ a.factors i, a.factors f = [f] := by
  intro f hf
  have hres : a.Resolves i := resolves_iff_factors_ne_nil.2 (List.ne_nil_of_mem hf)
  exact (hres.factors_of_mem hf).2

/-- The index names an entry without factors. -/
def IsScalar (a : Arena) (i : Index) : Prop := ∃ info, a.indexInfo i = .ok info ∧ info.factors = []

theorem IsScalar.congr {a b : Arena} (h : b.indices = a.indices) {i : Index} (hi : a.IsScalar i) :
    b.IsScalar i := by
  rwa [IsScalar, indexInfo, h]

theorem IsScalar.resolves {a : Arena} {i : Index} (h : a.IsScalar i) : a.Resolves i := by
  obtain ⟨info, hinfo, hnil⟩ := h
  exact .intro hinfo (by simp [hnil])

theorem IsScalar.factors_eq {a : Arena} {i : Index} (h : a.IsScalar i) : a.factors i = [i] := by
  have hres := h.resolves
  obtain ⟨info, hinfo, hnil⟩ := h
  rw [hres.factors_eq hinfo, if_neg (by simp [IndexInfo.isComposite, hnil])]

/-! ### Well-formed trees -/

/-- The handle `root` has the unfolding `t`, and every index mentioned there resolves. -/
structure WellFormed (a : Arena) (root : NodeId) (t : Tree) : Prop where
  unfolds : a.Unfolds root t
  resolves : ∀ i ∈ t.indices, a.Resolves i

theorem WellFormed.node {a : Arena} {id : NodeId} {shape : Shape} {children : List Tree}
    (h : a.WellFormed id (.node shape children)) :
    ∃ node, a.get id = .ok node ∧ node.shape = shape ∧
      List.Forall₂ a.WellFormed node.children children := by
  refine h.unfolds.get_of_child fun c _ t ht hct => ⟨hct, fun i hi => ?_⟩
  exact h.resolves i (List.mem_append_right _ (Tree.mem_indicesAll.2 ⟨t, ht, hi⟩))

theorem WellFormed.mono {a b : Arena} (hab : a.Extends b) {root : NodeId} {t : Tree}
    (h : a.WellFormed root t) : b.WellFormed root t :=
  ⟨h.unfolds.mono hab, fun i hi => (h.resolves i hi).congr hab.indices⟩

end Arena

end TensorRecipe
