import TensorRecipe.Proofs.Extraction.Outcome
import TensorRecipe.Proofs.Pass.Steps

/-!
# Binding what is complete

Where entries have all of their uses at a node, their values are placed, which may complete further
entries, and so on; then all of them are bound in a let around the node (`gives_bindComplete`).  The
let lists them in the order of their numbers, so that each value refers to earlier names only.
-/

namespace TensorRecipe

namespace Extraction

open Draft PassM

section

variable (entries : List (Reduction × Draft)) (total : String → Nat)
  (factors : Index → List Index) (used : List String)

/-- Values have been placed, under these numbers and handles. -/
structure Added (values : List Value) (w w' : Workspace (List Nat)) (pairs : List (Nat × NodeId)) :
    Prop where
  entry : ∀ v ∈ values, entries[v.number]? = some v.entry
  placed : ∀ v ∈ values, Placed entries total factors used v.part.here v.entry.2 v.part.draft
  pairs : List.Forall₂ (fun (pair : Nat × NodeId) (v : Value) =>
    pair.1 = v.number ∧ w'.arena.Unfolds pair.2 v.part.draft.toTree) pairs values
  memory : w'.memory.Perm (values.map Value.number ++ (values.flatMap (·.part.here) ++ w.memory))
  lt : ∀ v ∈ values, ∀ k ∈ v.part.here, k < entries.length
  grows : Grows w w'
  settled : ∀ v ∈ values, Settled entries total v.part
  low : ∀ v ∈ values, Low (entries.map (·.1.name)) v.part.draft

/-- So many uses have been seen, and only those in values are still to come. -/
structure Seen (placed : List Nat) (uses : Tally) (f : String → Nat) : Prop where
  ready : Ready entries total placed fun _ => 0
  tallied : Tallied entries uses f
  le : ∀ (k : Nat) e, entries[k]? = some e →
    f e.1.name + rest entries placed e.1.name ≤ total e.1.name

/-- The steps place what they should in every part of the region, if that is not too high for the
depth allowed; no value is higher than the limit.  All that is complete in the part is bound there,
unless the part is a bare reference and no place for a let. -/
def Places (p : Plan) (limit depth : Nat) (isBody : Bool)
    (place : NodeId → PlaceM (NodeId × Tally)) : Prop :=
  ∀ {c : Draft} {id : NodeId} {w : Workspace (List Nat)}, Placeable entries total factors used c →
    w.arena.Unfolds id c.toTree → Fits entries total p w.arena →
    Ready entries total w.memory (c.count ·) →
    c.toTree.height + (entries.length - w.memory.length) * (limit + 1) ≤ depth →
    (place id).Gives w fun r w' => ∃ part, Outcome entries total factors used c w w' r part ∧
      (Settled entries total part ∨ isBody = false ∧ ∃ x, part.draft = .ref x)

end

variable {entries : List (Reduction × Draft)} {total : String → Nat} {factors : Index → List Index}
  {used : List String} {p : Plan} {limit depth : Nat} {place : NodeId → PlaceM (NodeId × Tally)}

/-- The uses of a name in values. -/
def usesIn (values : List Value) (x : String) : Nat :=
  (values.map fun v => v.part.draft.count x).sum

theorem usesIn_append (values more : List Value) (x : String) :
    usesIn (values ++ more) x = usesIn values x + usesIn more x := by
  simp [usesIn]

theorem Fits.mono {a b : Arena} (h : Fits entries total p a) (hab : a.Extends b) :
    Fits entries total p b :=
  ⟨h.temporaries.imp fun _ _ ht => ⟨ht.1, ht.2.mono hab⟩, h.totals⟩

theorem Fits.temporary {a : Arena} (h : Fits entries total p a) {k : Nat} {e : Reduction × Draft}
    (he : entries[k]? = some e) :
    ∃ t, p.temporaries[k]? = some t ∧ t.name = e.1.name ∧ a.Unfolds t.value e.2.toTree := by
  obtain ⟨hlt, rfl⟩ := List.getElem?_eq_some_iff.1 he
  have hlt' : k < p.temporaries.length := by rwa [h.temporaries.length_eq]
  exact ⟨_, List.getElem?_eq_getElem hlt', (List.forall₂_iff_get.1 h.temporaries).2 k hlt' hlt⟩

namespace Added

variable {w w' w'' : Workspace (List Nat)}

theorem nil (w : Workspace (List Nat)) : Added entries total factors used [] w w [] :=
  ⟨by simp, by simp, .nil, by simp, by simp, .refl w, by simp, by simp⟩

theorem length_le {values : List Value} {pairs : List (Nat × NodeId)}
    (h : Added entries total factors used values w w' pairs) :
    w.memory.length + values.length ≤ w'.memory.length := by
  have hlength := h.memory.length_eq
  simp only [List.length_append, List.length_map] at hlength
  omega

theorem append {values more : List Value} {pairs pairs' : List (Nat × NodeId)}
    (h : Added entries total factors used values w w' pairs)
    (h' : Added entries total factors used more w' w'' pairs') :
    Added entries total factors used (values ++ more) w w'' (pairs ++ pairs') := by
  refine ⟨?_, ?_, ?_, ?_, ?_, h.grows.trans h'.grows, ?_, ?_⟩
  · exact fun v hv => (List.mem_append.1 hv).elim (h.entry v) (h'.entry v)
  · exact fun v hv => (List.mem_append.1 hv).elim (h.placed v) (h'.placed v)
  · exact List.rel_append (h.pairs.imp fun _ _ hp => ⟨hp.1, hp.2.mono h'.grows.arena⟩) h'.pairs
  · rw [List.perm_iff_count]
    intro k
    have hk := h.memory.count_eq k
    have hk' := h'.memory.count_eq k
    simp only [List.map_append, List.flatMap_append, List.count_append] at hk hk' ⊢
    omega
  · exact fun v hv => (List.mem_append.1 hv).elim (h.lt v) (h'.lt v)
  · exact fun v hv => (List.mem_append.1 hv).elim (h.settled v) (h'.settled v)
  · exact fun v hv => (List.mem_append.1 hv).elim (h.low v) (h'.low v)

end Added

/-! ### Values -/

theorem rest_eq_add {placed : List Nat} {t : Nat} {e : Reduction × Draft}
    (he : entries[t]? = some e) (ht : t ∉ placed) (x : String) :
    rest entries placed x = e.2.count x + rest entries (t :: placed) x := by
  rw [rest_cons ht (List.getElem?_eq_some_iff.1 he).1]
  simp [readsIn, he]

/-- A complete entry has no uses to come, nor has one that has a place already. -/
theorem Seen.ready_cons {placed : List Nat} {uses : Tally} {f : String → Nat}
    (h : Seen entries total placed uses f) {t : Nat} {e : Reduction × Draft}
    (he : entries[t]? = some e) (ht : t ∉ placed) (hfull : total e.1.name ≤ f e.1.name) :
    Ready entries total (t :: placed) (e.2.count ·) := by
  refine ⟨List.nodup_cons.2 ⟨ht, h.ready.nodup⟩, fun k hk => ?_, fun k d hd => ?_⟩
  · rcases List.mem_cons.1 hk with rfl | hk
    · exact (List.getElem?_eq_some_iff.1 he).1
    · exact h.ready.lt k hk
  · rw [← rest_eq_add he ht]
    have hle := h.le k d hd
    split
    · next hk =>
      rcases List.mem_cons.1 hk with rfl | hk
      · obtain rfl : e = d := by simpa [he] using hd
        omega
      · have := h.ready.eq_zero hd hk
        omega
    · omega

theorem le_of_succ_mul_le {n m limit depth : Nat} (hlt : m + 1 ≤ n)
    (h : (n - m) * (limit + 1) ≤ depth + 1) : limit + (n - (m + 1)) * (limit + 1) ≤ depth := by
  obtain ⟨d, rfl⟩ := Nat.exists_eq_add_of_le hlt
  rw [show m + 1 + d - m = d + 1 by omega, Nat.succ_mul] at h
  rw [show m + 1 + d - (m + 1) = d by omega]
  omega

section

variable {t : Nat} {e : Reduction × Draft} {uses : Tally} {f : String → Nat}
  {w w' : Workspace (List Nat)} {r : NodeId × Tally} {part : Part}

/-- The uses in the value of a complete entry have been seen once it is placed. -/
theorem Seen.cons (h : Seen entries total w.memory uses f) (he : entries[t]? = some e)
    (ht : t ∉ w.memory) (hfull : total e.1.name ≤ f e.1.name)
    (hout : Outcome entries total factors used e.2 { w with memory := t :: w.memory } w' r part) :
    Seen entries total w'.memory (uses.merge r.2) fun x => f x + part.draft.count x := by
  refine ⟨?_, h.tallied.merge hout.tallied, fun k d hd => ?_⟩
  · exact hout.ready ((h.ready_cons he ht hfull).mono fun _ => le_rfl)
  · have hle := h.le k d hd
    have hcons := hout.conserved d.1.name
    rw [← rest_eq_add he ht] at hcons
    omega

/-- An entry of which uses have been seen before does not get a place on the way. -/
theorem Seen.notMem_cons (hs : Stocked entries total factors used)
    (h : Seen entries total w.memory uses f) (he : entries[t]? = some e) (ht : t ∉ w.memory)
    (hout : Outcome entries total factors used e.2 { w with memory := t :: w.memory } w' r part)
    {s : Nat} {d : Reduction × Draft} (hd : entries[s]? = some d) (hsw : s ∉ w.memory) (hst : s ≠ t)
    (hfull : total d.1.name ≤ f d.1.name) : s ∉ w'.memory := by
  intro hmem
  rcases List.mem_append.1 (hout.memory.subset hmem) with hmem | hmem
  · have hle := hout.placed.full s hmem d hd
    have hpos := hs.needed d (List.mem_of_getElem? hd)
    have hsum := h.le s d hd
    have hcons := hout.conserved d.1.name
    rw [← rest_eq_add he ht] at hcons
    omega
  · rcases List.mem_cons.1 hmem with rfl | hmem
    · exact hst rfl
    · exact hsw hmem

theorem Outcome.added (he : entries[t]? = some e)
    (hout : Outcome entries total factors used e.2 { w with memory := t :: w.memory } w' r part)
    (hsettled : Settled entries total part) :
    Added entries total factors used [⟨t, e, part⟩] w w' [(t, r.1)] := by
  refine ⟨by simpa using he, by simpa using hout.placed, .cons ⟨rfl, hout.unfolds⟩ .nil, ?_,
    by simpa using hout.lt, ⟨hout.grows.arena, hout.grows.extracted⟩, by simpa using hsettled,
    by simpa using hout.low⟩
  exact hout.memory.trans (by simp)

end

theorem Added.log {values : List Value} {pairs : List (Nat × NodeId)}
    {w w' w'' : Workspace (List Nat)} (h : Added entries total factors used values w w' pairs)
    {events : List Event} (hw : w'' = { w' with events })
    (hextracted : extractions events = extractions w'.events) :
    Added entries total factors used values w w'' pairs := by
  subst hw
  exact ⟨h.entry, h.placed, h.pairs, h.memory, h.lt,
    ⟨h.grows.arena, hextracted.trans h.grows.extracted⟩, h.settled, h.low⟩

/-- Entries that have all of their uses are placed, each of them once. -/
theorem gives_placeValues (hs : Stocked entries total factors used)
    (hlimit : ∀ e ∈ entries, e.2.toTree.height ≤ limit)
    (hplace : Places entries total factors used p limit depth false place) (around : NodeId) :
    ∀ {ts : List Nat} {uses : Tally} {f : String → Nat} {w : Workspace (List Nat)},
      Fits entries total p w.arena → Seen entries total w.memory uses f →
      (entries.length - w.memory.length) * (limit + 1) ≤ depth + 1 → ts.Nodup →
      (∀ t ∈ ts, t ∉ w.memory ∧ ∃ e, entries[t]? = some e ∧ total e.1.name ≤ f e.1.name) →
      (p.placeValues place around ts uses).Gives w fun r w' => ∃ values,
        Added entries total factors used values w w' r.1 ∧ values.map Value.number = ts ∧
          Seen entries total w'.memory r.2 fun x => f x + usesIn values x
  | [], uses, f, w, _, hseen, _, _, _ => by
    refine gives_pure ⟨[], .nil w, rfl, hseen.ready, ?_, hseen.le⟩
    exact hseen.tallied.congr fun x => by simp [usesIn]
  | t :: ts, uses, f, w, hfit, hseen, hdepth, hnodup, hts => by
    obtain ⟨ht, e, he, hfull⟩ := hts t (by simp)
    obtain ⟨temporary, htemp, hname, hvalue⟩ := hfit.temporary he
    have hready := hseen.ready_cons he ht hfull
    have hbudget : e.2.toTree.height +
        (entries.length - (t :: w.memory).length) * (limit + 1) ≤ depth := by
      have hheight := hlimit e (List.mem_of_getElem? he)
      exact le_trans (Nat.add_le_add_right hheight _) (le_of_succ_mul_le hready.length_le hdepth)
    unfold Plan.placeValues
    refine gives_remember.bind fun _ w₁ hw₁ => ?_
    subst hw₁
    rw [htemp]
    have hgives := hplace (w := { w with memory := t :: w.memory })
      (hs.placeable e (List.mem_of_getElem? he)) hvalue hfit hready hbudget
    refine hgives.bind ?_
    rintro ⟨value, more⟩ w₂ ⟨part, hout, hplaced⟩
    have hsettled : Settled entries total part := by
      refine hplaced.resolve_right fun ⟨_, x, hx⟩ => ?_
      refine hs.ne_ref e (List.mem_of_getElem? he) x ?_
      rw [← hout.placed.core, hx]
      rfl
    refine gives_log.bind fun _ w₃ hw₃ => ?_
    have harena : w₃.arena = w₂.arena := by rw [hw₃]
    have hmemory : w₃.memory = w₂.memory := by rw [hw₃]
    have hlater : ∀ s ∈ ts, s ∉ w₃.memory ∧
        ∃ d, entries[s]? = some d ∧ total d.1.name ≤ f d.1.name + part.draft.count d.1.name := by
      intro s hsm
      obtain ⟨hsw, d, hd, hfd⟩ := hts s (List.mem_cons_of_mem t hsm)
      have hst : s ≠ t := fun heq => (List.nodup_cons.1 hnodup).1 (heq ▸ hsm)
      rw [hmemory]
      exact ⟨hseen.notMem_cons hs he ht hout hd hsw hst hfd, d, hd, by omega⟩
    have hdepth' : (entries.length - w₃.memory.length) * (limit + 1) ≤ depth + 1 := by
      refine le_trans (Nat.mul_le_mul_right _ ?_) hdepth
      have hlen := hout.memory.length_eq
      rw [List.length_append, List.length_cons] at hlen
      rw [hmemory]
      omega
    have hfit' : Fits entries total p w₃.arena := by
      rw [harena]
      exact hfit.mono hout.grows.arena
    refine (gives_placeValues hs hlimit hplace around hfit'
      (hmemory ▸ hseen.cons he ht hfull hout) hdepth' (List.nodup_cons.1 hnodup).2 hlater).bind ?_
    rintro ⟨pairs, uses'⟩ w₄ ⟨values, hadd, hnumber, hseen'⟩
    have hone := (hout.added he hsettled).log hw₃ (by rfl)
    refine gives_pure ⟨⟨t, e, part⟩ :: values, hone.append hadd, by simp [hnumber], ?_⟩
    refine ⟨hseen'.ready, hseen'.tallied.congr fun x => ?_, fun k d hd => ?_⟩
    · simp [usesIn, Nat.add_assoc]
    · have := hseen'.le k d hd
      simpa [usesIn, Nat.add_assoc] using this

/-! ### Rounds -/

theorem mem_complete {uses : Tally} {placed : List Nat} {t : Nat} :
    t ∈ p.complete uses placed ↔ t ∉ placed ∧ (t, Tally.count p.totals t) ∈ uses := by
  simp only [Plan.complete, List.mem_map, List.mem_filter, Bool.and_eq_true, decide_eq_true_eq]
  constructor
  · rintro ⟨⟨k, n⟩, ⟨hmem, hk, hn⟩, rfl⟩
    exact ⟨hk, hn ▸ hmem⟩
  · rintro ⟨hk, hmem⟩
    exact ⟨_, ⟨hmem, hk, rfl⟩, rfl⟩

theorem nodup_complete {uses : Tally} (h : uses.Ordered) (placed : List Nat) :
    (p.complete uses placed).Nodup := by
  unfold Plan.complete
  refine List.pairwise_map.2 ((h.1.filter _).imp fun hlt heq => ?_)
  omega

/-- An entry is complete when it has no place and all of its uses have been seen. -/
theorem Seen.mem_complete_iff (hs : Stocked entries total factors used) {a : Arena}
    (hfit : Fits entries total p a) {placed : List Nat} {uses : Tally} {f : String → Nat}
    (h : Seen entries total placed uses f) {k : Nat} {e : Reduction × Draft}
    (he : entries[k]? = some e) :
    k ∈ p.complete uses placed ↔ k ∉ placed ∧ total e.1.name ≤ f e.1.name := by
  have hle := h.le k e he
  have hpos := hs.needed e (List.mem_of_getElem? he)
  rw [mem_complete, Tally.mem_iff h.tallied.ordered, h.tallied.count k e he, hfit.totals k e he]
  refine and_congr_right fun _ => ?_
  omega

theorem Seen.of_mem_complete (hs : Stocked entries total factors used) {a : Arena}
    (hfit : Fits entries total p a) {placed : List Nat} {uses : Tally} {f : String → Nat}
    (h : Seen entries total placed uses f) : ∀ t ∈ p.complete uses placed, t ∉ placed ∧
      ∃ e, entries[t]? = some e ∧ total e.1.name ≤ f e.1.name := by
  intro t ht
  have hlt := h.tallied.lt _ (mem_complete.1 ht).2
  have he : entries[t]? = some entries[t] := List.getElem?_eq_getElem hlt
  exact ⟨(mem_complete.1 ht).1, _, he, ((h.mem_complete_iff hs hfit he).1 ht).2⟩

/-- Round after round, all entries are placed that have all of their uses. -/
theorem gives_placeComplete (hs : Stocked entries total factors used)
    (hlimit : ∀ e ∈ entries, e.2.toTree.height ≤ limit)
    (hplace : Places entries total factors used p limit depth false place) (around : NodeId) :
    ∀ {rounds : Nat} {uses : Tally} {f : String → Nat} {w : Workspace (List Nat)},
      Fits entries total p w.arena → Seen entries total w.memory uses f →
      (entries.length - w.memory.length) * (limit + 1) ≤ depth + 1 →
      entries.length < rounds + w.memory.length →
      (p.placeComplete place around rounds uses).Gives w fun r w' => ∃ values,
        Added entries total factors used values w w' r.1 ∧
          Seen entries total w'.memory r.2 (fun x => f x + usesIn values x) ∧
          (∀ v ∈ values, total v.entry.1.name ≤ f v.entry.1.name + usesIn values v.entry.1.name) ∧
          ∀ (k : Nat) e, entries[k]? = some e →
            total e.1.name ≤ f e.1.name + usesIn values e.1.name → k ∈ w'.memory
  | 0, uses, f, w, _, hseen, _, hrounds => by
    have := hseen.ready.length_le
    omega
  | rounds + 1, uses, f, w, hfit, hseen, hdepth, hrounds => by
    unfold Plan.placeComplete
    refine gives_getMemory.bind ?_
    rintro _ w₀ ⟨rfl, hw⟩
    obtain rfl : w = w₀ := hw.symm
    have hcomplete := fun k e he => hseen.mem_complete_iff (k := k) (e := e) hs hfit he
    split
    · next hnil =>
      refine gives_pure ⟨[], .nil w, ⟨hseen.ready, ?_, hseen.le⟩, by simp, fun k e he hle => ?_⟩
      · exact hseen.tallied.congr fun x => by simp [usesIn]
      · by_contra hk
        have := (hcomplete k e he).2 ⟨hk, by simpa [usesIn] using hle⟩
        simp [hnil] at this
    · next hne =>
      have hts := hseen.of_mem_complete hs hfit
      refine (gives_placeValues hs hlimit hplace around hfit hseen hdepth
        (nodup_complete hseen.tallied.ordered _) hts).bind ?_
      rintro ⟨pairs, uses₁⟩ w₁ ⟨values, hadd, hnumber, hseen₁⟩
      have hlength : w.memory.length < w₁.memory.length := by
        have hpos := List.length_pos_iff.2 hne
        rw [← hnumber, List.length_map] at hpos
        exact (Nat.lt_add_of_pos_right hpos).trans_le hadd.length_le
      have hdepth₁ : (entries.length - w₁.memory.length) * (limit + 1) ≤ depth + 1 :=
        le_trans (Nat.mul_le_mul_right _ (by omega)) hdepth
      refine (gives_placeComplete hs hlimit hplace around (hfit.mono hadd.grows.arena) hseen₁
        hdepth₁ (by omega)).bind ?_
      rintro ⟨pairs', uses₂⟩ w₂ ⟨more, hadd', hseen₂, hfull, hsettled⟩
      have hsum : ∀ x, f x + usesIn values x + usesIn more x = f x + usesIn (values ++ more) x :=
        fun x => by rw [usesIn_append, Nat.add_assoc]
      refine gives_pure ⟨values ++ more, hadd.append hadd', ⟨hseen₂.ready, ?_, ?_⟩, ?_, ?_⟩
      · exact hseen₂.tallied.congr hsum
      · exact fun k e he => hsum e.1.name ▸ hseen₂.le k e he
      · intro v hv
        rw [← hsum]
        rcases List.mem_append.1 hv with hv | hv
        · obtain ⟨-, e, he, hle⟩ := hts v.number (hnumber ▸ List.mem_map_of_mem hv)
          obtain rfl : v.entry = e := by simpa [hadd.entry v hv] using he
          omega
        · exact hfull v hv
      · exact fun k e he hle => hsettled k e he (by rwa [hsum])

/-! ### Lets -/

/-- The values whose numbers are among so many from a first one on, in the order of the numbers. -/
def sortedFrom (values : List Value) (first count : Nat) : List Value :=
  (List.range' first count).filterMap fun t => values.find? (·.number = t)

theorem sorted_sortedFrom (values : List Value) (first count : Nat) :
    (sortedFrom values first count).Pairwise (·.number < ·.number) := by
  have hnumber : ∀ t v, values.find? (·.number = t) = some v → v.number = t := fun t v hv => by
    simpa using List.find?_some hv
  have hrange : (List.range' first count).Pairwise (· < ·) := List.pairwise_lt_range'
  refine List.pairwise_filterMap.2 (hrange.imp fun hlt v hv w hw => ?_)
  rwa [hnumber _ v hv, hnumber _ w hw]

theorem sortedFrom_perm {values : List Value} {count : Nat}
    (hnodup : (values.map Value.number).Nodup) (hlt : ∀ v ∈ values, v.number < count) :
    (sortedFrom values 0 count).Perm values := by
  have hsorted : (sortedFrom values 0 count).Nodup :=
    (sorted_sortedFrom values 0 count).imp fun hlt heq => by rw [heq] at hlt; omega
  refine (List.perm_ext_iff_of_nodup hsorted (List.Nodup.of_map _ hnodup)).2 fun v => ?_
  rw [sortedFrom, List.mem_filterMap]
  constructor
  · rintro ⟨t, -, hv⟩
    exact List.mem_of_find?_eq_some hv
  · intro hv
    refine ⟨v.number, by simpa using hlt v hv, ?_⟩
    cases hfind : values.find? (·.number = v.number) with
    | none => simpa using List.find?_eq_none.1 hfind v hv
    | some w =>
      have hw : w.number = v.number := by simpa using List.find?_some hfind
      rw [List.inj_on_of_nodup_map hnodup (List.mem_of_find?_eq_some hfind) hv hw]

theorem find?_related {a : Arena} {pairs : List (Nat × NodeId)} {values : List Value}
    (h : List.Forall₂ (fun (pair : Nat × NodeId) (v : Value) =>
      pair.1 = v.number ∧ a.Unfolds pair.2 v.part.draft.toTree) pairs values) (t : Nat) :
    (pairs.find? (·.1 = t) = none ∧ values.find? (·.number = t) = none) ∨
      ∃ pair v, pairs.find? (·.1 = t) = some pair ∧ values.find? (·.number = t) = some v ∧
        a.Unfolds pair.2 v.part.draft.toTree := by
  induction h with
  | nil => exact .inl ⟨rfl, rfl⟩
  | @cons pair v _ _ hd _ ih =>
    by_cases ht : v.number = t
    · exact .inr ⟨pair, v, by simp [hd.1, ht], by simp [ht], hd.2⟩
    · simpa [hd.1, ht] using ih

theorem bindings_letOf {a : Arena} {pairs : List (Nat × NodeId)} {values : List Value}
    (h : List.Forall₂ (fun (pair : Nat × NodeId) (v : Value) =>
      pair.1 = v.number ∧ a.Unfolds pair.2 v.part.draft.toTree) pairs values) :
    ∀ (temporaries : List Temporary) (first : Nat),
      (∀ (k : Nat) t, temporaries[k]? = some t → ∀ v ∈ values, v.number = first + k →
        t.name = v.entry.1.name) →
      ∃ bindings, bindings = ((temporaries.zipIdx first).filterMap fun (temporary, t) =>
          (pairs.find? (·.1 = t)).map fun (_, value) => Binding.mk temporary.name value) ∧
        bindings.map Binding.name =
          (sortedFrom values first temporaries.length).map (·.entry.1.name) ∧
        List.Forall₂ a.Unfolds (bindings.map Binding.value)
          ((sortedFrom values first temporaries.length).map (·.part.draft.toTree))
  | [], first, _ => ⟨[], rfl, rfl, .nil⟩
  | t :: temporaries, first, hname => by
    obtain ⟨bindings, heq, hnames, hvalues⟩ :=
      bindings_letOf h temporaries (first + 1) fun k s hk v hv hv' =>
        hname (k + 1) s hk v hv (by omega)
    have hrange : sortedFrom values first (temporaries.length + 1) =
        (values.find? (·.number = first)).toList ++
          sortedFrom values (first + 1) temporaries.length := by
      rw [sortedFrom, List.range'_succ, List.filterMap_cons]
      cases values.find? (·.number = first) <;> rfl
    rw [List.zipIdx_cons, List.filterMap_cons, ← heq, List.length_cons, hrange]
    rcases find?_related h first with ⟨hp, hv⟩ | ⟨pair, v, hp, hv, hun⟩
    · simp only [hp, hv]
      exact ⟨_, rfl, by simpa using hnames, by simpa using hvalues⟩
    · have hv' : v.number = first := by simpa using List.find?_some hv
      simp only [hp, hv]
      refine ⟨_, rfl, ?_, .cons hun hvalues⟩
      have := hname 0 t rfl v (List.mem_of_find?_eq_some hv) hv'
      simp [hnames, this]

theorem unfolds_letOf {a : Arena} (hfit : Fits entries total p a)
    {pairs : List (Nat × NodeId)} {values : List Value}
    (h : List.Forall₂ (fun (pair : Nat × NodeId) (v : Value) =>
      pair.1 = v.number ∧ a.Unfolds pair.2 v.part.draft.toTree) pairs values)
    (hentry : ∀ v ∈ values, entries[v.number]? = some v.entry) {id : NodeId} {t : Tree}
    (hid : a.Unfolds id t) :
    (p.letOf pairs id).shape =
        .letIn ((sortedFrom values 0 entries.length).map (·.entry.1.name)) ∧
      List.Forall₂ a.Unfolds (p.letOf pairs id).children
        ((sortedFrom values 0 entries.length).map (·.part.draft.toTree) ++ [t]) := by
  obtain ⟨bindings, heq, hnames, hvalues⟩ := bindings_letOf h p.temporaries 0 (by
    intro k t ht v hv hk
    obtain ⟨t', ht', hname, -⟩ := hfit.temporary (hentry v hv)
    obtain rfl : t = t' := by simpa [hk, ht] using ht'
    exact hname)
  rw [hfit.temporaries.length_eq] at hnames hvalues
  rw [Plan.letOf, ← heq, Node.shape, Node.children, hnames]
  exact ⟨rfl, List.rel_append hvalues (.cons hid .nil)⟩

theorem usesIn_perm {values values' : List Value} (h : values.Perm values') (x : String) :
    usesIn values x = usesIn values' x := (h.map _).sum_eq

theorem Lets.count_draft (values : List Value) (body : Part) (x : String) :
    (Lets.draft values body).count x = usesIn values x + body.draft.count x := by
  rw [Lets.draft, count_temps, List.map_map]
  rfl

/-- An entry that has a place elsewhere has no uses in a part; so all is bound in a part that has
all of its uses there, once all such entries have places. -/
theorem Outcome.settled (hs : Stocked entries total factors used) {c : Draft}
    {w w' : Workspace (List Nat)} {r : NodeId × Tally} {part : Part}
    (h : Outcome entries total factors used c w w' r part)
    (hready : Ready entries total w.memory (c.count ·))
    (hall : ∀ (k : Nat) e, entries[k]? = some e → total e.1.name ≤ part.draft.count e.1.name →
      k ∈ w'.memory) : Settled entries total part := by
  intro k e he hle
  refine (List.mem_append.1 (h.memory.subset (hall k e he hle))).resolve_right fun hk => ?_
  have hzero := hready.eq_zero he hk
  have hcons := h.conserved e.1.name
  have hpos := hs.needed e (List.mem_of_getElem? he)
  omega

section

variable {c : Draft} {id : NodeId} {uses uses' : Tally} {body : Part}
  {w w₁ w₂ : Workspace (List Nat)} {values sorted : List Value} {pairs : List (Nat × NodeId)}

theorem Added.memory_perm (h : Added entries total factors used values w₁ w₂ pairs)
    (hbody : Outcome entries total factors used c w w₁ (id, uses) body) :
    w₂.memory.Perm (values.map Value.number ++
      (values.flatMap (·.part.here) ++ (body.here ++ w.memory))) :=
  h.memory.trans ((hbody.memory.append_left _).append_left _)

/-- Values that have been placed can be bound around the part that has their uses. -/
theorem Added.lets (h : Added entries total factors used values w₁ w₂ pairs)
    (hbody : Outcome entries total factors used c w w₁ (id, uses) body)
    (hseen : Seen entries total w₂.memory uses' fun x => body.draft.count x + usesIn values x)
    (hfull : ∀ v ∈ values, total v.entry.1.name ≤
      body.draft.count v.entry.1.name + usesIn values v.entry.1.name)
    (hperm : sorted.Perm values) (hsorted : sorted.Pairwise (·.number < ·.number)) :
    Lets entries total factors used sorted body := by
  have huses : ∀ x, body.draft.count x + usesIn values x = (Lets.draft sorted body).count x :=
    fun x => by rw [Lets.count_draft, usesIn_perm hperm, Nat.add_comm]
  have hnodup := (h.memory_perm hbody).nodup_iff.1 hseen.ready.nodup
  refine ⟨fun v hv => h.entry v (hperm.subset hv), fun v hv => h.placed v (hperm.subset hv),
    hsorted, fun e he => ?_, fun v hv => ?_, fun v hv => ?_⟩
  · obtain ⟨k, hk⟩ := List.mem_iff_getElem?.1 he
    have hle := hseen.le k e hk
    rw [huses, Lets.count_draft] at hle
    exact (Nat.le_add_right _ _).trans hle
  · have hle := hfull v (hperm.subset hv)
    rwa [huses, Lets.count_draft] at hle
  · have hv' := List.mem_map_of_mem (f := Value.number) (hperm.subset hv)
    have hdisjoint := List.disjoint_of_nodup_append hnodup hv'
    refine ⟨fun hmem => hdisjoint ?_, fun u hu hmem => hdisjoint ?_⟩
    · exact List.mem_append_right _ (List.mem_append_left _ hmem)
    · exact List.mem_append_left _ (List.mem_flatMap.2 ⟨u, hperm.subset hu, hmem⟩)

/-- The values of a let are named in the order of the entries. -/
theorem Lets.sublist_names (h : Lets entries total factors used sorted body) :
    ((sorted.map (·.entry.1)).map Reduction.name).Sublist (entries.map (·.1.name)) := by
  have hnames : (sorted.map (·.entry.1)).map Reduction.name =
      (sorted.map Value.number).filterMap ((entries.map (·.1.name))[·]?) := by
    rw [List.map_map, List.filterMap_map, ← List.filterMap_eq_map]
    refine List.filterMap_congr fun v hv => ?_
    simp [h.entry v hv]
  have hnumbers : (sorted.map Value.number).Sublist (List.range (entries.map (·.1.name)).length) := by
    refine List.sublist_of_subperm_of_pairwise (r := (· < ·)) ?_ (List.pairwise_map.2 h.sorted)
      List.pairwise_lt_range
    refine List.Nodup.subperm ?_ fun k hk => ?_
    · exact List.pairwise_map.2 (h.sorted.imp fun hlt heq => by omega)
    · obtain ⟨v, hv, rfl⟩ := List.mem_map.1 hk
      simpa using (List.getElem?_eq_some_iff.1 (h.entry v hv)).1
  have hsub := hnumbers.filterMap ((entries.map (·.1.name))[·]?)
  rwa [filterMap_getElem?_range, ← hnames] at hsub

/-- The let around a bare part is low: what is complete in a value or right below the body would have
been bound there. -/
theorem Added.low_draft (h : Added entries total factors used values w₁ w₂ pairs)
    (hbody : Outcome entries total factors used c w w₁ (id, uses) body)
    (hbare : Bare entries total body) (hperm : sorted.Perm values)
    (hlets : Lets entries total factors used sorted body) :
    Low (entries.map (·.1.name)) (Lets.draft sorted body) := by
  have hcount : ∀ v ∈ sorted, total v.entry.1.name ≤ (Lets.draft sorted body).count v.entry.1.name :=
    fun v hv => (hlets.full v hv).trans (Lets.count_draft sorted body _).ge
  refine .temps hlets.sublist_names ⟨fun x hx d hd => ?_, fun shape children hnode x hx d hd => ?_,
    hbare.ne_temps⟩ (fun d hd => ?_) hbody.low
  · obtain ⟨v, hv, rfl⟩ := List.mem_map.1 hx
    obtain ⟨u, hu, rfl⟩ := List.mem_map.1 hd
    refine lt_of_lt_of_le (Nat.lt_of_not_le fun hle => ?_) (hcount v hv)
    have hmem := h.settled u (hperm.subset hu) v.number v.entry (hlets.entry v hv) hle
    exact (hlets.apart v hv).2 u hu hmem
  · obtain ⟨v, hv, rfl⟩ := List.mem_map.1 hx
    have hout := hbare.child shape children hnode v.number v.entry (hlets.entry v hv)
      (hlets.apart v hv).1 d hd
    exact hout.imp_left fun hlt => hlt.trans_le (hcount v hv)
  · obtain ⟨u, hu, rfl⟩ := List.mem_map.1 hd
    exact h.low u (hperm.subset hu)

/-- The let around the part is what has become of it. -/
theorem Added.outcome (hs : Stocked entries total factors used)
    (hc : Placeable entries total factors used c)
    (h : Added entries total factors used values w₁ w₂ pairs)
    (hbody : Outcome entries total factors used c w w₁ (id, uses) body)
    (hseen : Seen entries total w₂.memory uses' fun x => body.draft.count x + usesIn values x)
    (hperm : sorted.Perm values) (hlets : Lets entries total factors used sorted body)
    (hlow : Low (entries.map (·.1.name)) (Lets.draft sorted body)) {new : NodeId} {a : Arena} (hext : w₂.arena.Extends a)
    (hnew : a.Unfolds new (Lets.draft sorted body).toTree) :
    Outcome entries total factors used c w { w₂ with arena := a } (new, uses')
      ⟨Lets.here sorted body, Lets.draft sorted body⟩ := by
  refine ⟨.temps hs hc hbody.placed hlets, hnew, hseen.tallied.congr fun x => ?_, ?_,
    hseen.ready.nodup, ?_, ?_, hlow⟩
  · rw [Lets.count_draft, usesIn_perm hperm, Nat.add_comm]
  · refine (h.memory_perm hbody).trans ?_
    rw [Lets.here, List.append_assoc, List.append_assoc]
    exact (hperm.map _).symm.append ((hperm.flatMap_right _).symm.append_right _)
  · intro k hk
    rcases List.mem_append.1 hk with hk | hk
    · obtain ⟨v, hv, rfl⟩ := List.mem_map.1 hk
      exact (List.getElem?_eq_some_iff.1 (h.entry v (hperm.subset hv))).1
    · rcases List.mem_append.1 hk with hk | hk
      · obtain ⟨v, hv, hk⟩ := List.mem_flatMap.1 hk
        exact h.lt v (hperm.subset hv) k hk
      · exact hbody.lt k hk
  · have hgrows := hbody.grows.trans h.grows
    exact ⟨hgrows.arena.trans hext, hgrows.extracted⟩

theorem Added.outcome_nil (h : Added entries total factors used [] w₁ w₂ [])
    (hbody : Outcome entries total factors used c w w₁ (id, uses) body)
    (hseen : Seen entries total w₂.memory uses' fun x => body.draft.count x + usesIn [] x) :
    Outcome entries total factors used c w w₂ (id, uses') body := by
  refine ⟨hbody.placed, hbody.unfolds.mono h.grows.arena,
    hseen.tallied.congr fun x => by simp [usesIn], ?_, hseen.ready.nodup, hbody.lt,
    hbody.grows.trans h.grows, hbody.low⟩
  exact (by simpa using h.memory : w₂.memory.Perm w₁.memory).trans hbody.memory

end

/-- The entries that are complete at a node, or become so, are bound around it. -/
theorem gives_bindComplete (hs : Stocked entries total factors used)
    (hlimit : ∀ e ∈ entries, e.2.toTree.height ≤ limit)
    (hplace : Places entries total factors used p limit depth false place) {c : Draft} {id : NodeId}
    {uses : Tally} {body : Part} {w w₁ : Workspace (List Nat)}
    (hc : Placeable entries total factors used c) (hfit : Fits entries total p w₁.arena)
    (hready : Ready entries total w.memory (c.count ·))
    (hbody : Outcome entries total factors used c w w₁ (id, uses) body)
    (hbare : Bare entries total body)
    (hdepth : (entries.length - w.memory.length) * (limit + 1) ≤ depth + 1) :
    (p.bindComplete place id uses).Gives w₁ fun r w' =>
      ∃ part, Outcome entries total factors used c w w' r part ∧ Settled entries total part := by
  have hseen : Seen entries total w₁.memory uses (body.draft.count ·) := by
    refine ⟨hbody.ready (hready.mono fun _ => le_rfl), hbody.tallied, fun k e he => ?_⟩
    rw [hbody.conserved]
    exact hready.le_total he
  have hlength : w.memory.length ≤ w₁.memory.length := by
    have hlen := hbody.memory.length_eq
    rw [List.length_append] at hlen
    omega
  unfold Plan.bindComplete
  refine (gives_placeComplete hs hlimit hplace id hfit hseen
    (le_trans (Nat.mul_le_mul_right _ (by omega)) hdepth)
    (by rw [hfit.temporaries.length_eq]; omega)).bind ?_
  rintro ⟨pairs, uses'⟩ w₂ ⟨values, hadd, hseen', hfull, hall⟩
  dsimp only
  unfold addUnless
  split
  · next hnil =>
    obtain rfl : pairs = [] := List.isEmpty_iff.1 hnil
    obtain rfl : values = [] := List.length_eq_zero_iff.1 hadd.pairs.length_eq.symm
    rw [pure_bind]
    have hout := hadd.outcome_nil hbody hseen'
    refine gives_pure ⟨body, hout, hout.settled hs hready fun k e he hle => ?_⟩
    exact hall k e he (hle.trans (Nat.le_add_right _ _))
  · have hperm : (sortedFrom values 0 entries.length).Perm values := by
      refine sortedFrom_perm ?_ fun v hv => (List.getElem?_eq_some_iff.1 (hadd.entry v hv)).1
      exact ((hadd.memory_perm hbody).nodup_iff.1 hseen'.ready.nodup).of_append_left
    have hlets := hadd.lets hbody hseen' hfull hperm (sorted_sortedFrom values 0 entries.length)
    obtain ⟨hshape, hchildren⟩ := unfolds_letOf (hfit.mono hadd.grows.arena) hadd.pairs hadd.entry
      (hbody.unfolds.mono hadd.grows.arena)
    refine gives_addNode.bind ?_
    rintro new w₃ ⟨rfl, rfl⟩
    have hnew : (w₂.arena.addNode (p.letOf pairs id)).Unfolds w₂.arena.nextId
        (Lets.draft (sortedFrom values 0 entries.length) body).toTree := by
      have hlet := Arena.unfolds_addNode hchildren
      rw [hshape] at hlet
      rw [Lets.draft, toTree, toTrees_eq, List.map_map, List.map_map]
      exact hlet
    have hlow := hadd.low_draft hbody hbare hperm hlets
    have hout := hadd.outcome hs hc hbody hseen' hperm hlets hlow (.addNode w₂.arena _) hnew
    refine gives_pure ⟨_, hout, hout.settled hs hready fun k e he hle => hall k e he ?_⟩
    rwa [Lets.count_draft, usesIn_perm hperm, Nat.add_comm] at hle

end Extraction

end TensorRecipe
