import TensorRecipe.Proofs.Extraction.Naming

/-!
# Names minted call after call

A namer is called again and again, to reserve a name or to mint one, in any order.
`Namer.SearchEnds` is the search for a free number as it goes on, one number after the other, with
no bound on it: where it ends is the least number from the first on whose name is free
(`SearchEnds.isLeast`).  Calls keep the account of what is taken (`mem_reserved_after`): the names
reserved, and the names minted.  They also keep that a namer is `Gapless`, all numbers below its
counter being taken; so the counter cannot run ahead of the number of calls, and the searches of all
calls together try no more numbers than that.

Main statement: what every call for a name mints, whatever was called before it
(`Namer.minted_isLeast`).
-/

namespace TensorRecipe

namespace Extraction

/-- A call on a namer. -/
inductive NamerCall where
  | reserve (name : String)
  | fresh

namespace NamerCall

/-- The names that calls reserve. -/
def reserved (calls : List NamerCall) : List String :=
  calls.filterMap fun
    | reserve name => some name
    | fresh => none

end NamerCall

namespace Namer

/-- The name that a call mints, if it asks for one, and the namer after it. -/
def serve (namer : Namer) : NamerCall → Option String × Namer
  | .reserve name => (none, namer.reserve name)
  | .fresh => (some namer.fresh.1, namer.fresh.2)

/-- The namer after calls. -/
def after (namer : Namer) (calls : List NamerCall) : Namer :=
  calls.foldl (fun namer call => (namer.serve call).2) namer

/-- The names that calls mint, in order. -/
def minted (namer : Namer) : List NamerCall → List String
  | [] => []
  | call :: calls => (namer.serve call).1.toList ++ (namer.serve call).2.minted calls

variable {namer : Namer} {calls : List NamerCall} {name : String} {m n : Nat}

/-! ### The search -/

/-- The search for a free number begins at one number and ends at another. -/
inductive SearchEnds (namer : Namer) : Nat → Nat → Prop where
  | free {n : Nat} (free : nameOf namer.stem n ∉ namer.reserved) : namer.SearchEnds n n
  | taken {n m : Nat} (taken : nameOf namer.stem n ∈ namer.reserved)
    (rest : namer.SearchEnds (n + 1) m) : namer.SearchEnds n m

theorem SearchEnds.isLeast (h : namer.SearchEnds n m) :
    IsLeast {k | n ≤ k ∧ nameOf namer.stem k ∉ namer.reserved} m := by
  induction h with
  | free free => exact ⟨⟨le_rfl, free⟩, fun k hk => hk.1⟩
  | taken taken _ ih =>
    obtain ⟨⟨hle, hfree⟩, hleast⟩ := ih
    refine ⟨⟨by omega, hfree⟩, fun k ⟨hk, hkfree⟩ => ?_⟩
    rcases hk.eq_or_lt with rfl | hlt
    · exact absurd taken hkfree
    · exact hleast ⟨hlt, hkfree⟩

/-- A number of tries that leads to a free number is enough. -/
theorem searchEnds_firstFree : ∀ {tries n : Nat},
    nameOf namer.stem (namer.firstFree tries n) ∉ namer.reserved →
      namer.SearchEnds n (namer.firstFree tries n)
  | 0, _, h => .free h
  | tries + 1, n, h => by
    unfold firstFree at h ⊢
    split at h
    · next hn =>
      rw [if_pos hn]
      exact .taken hn (searchEnds_firstFree h)
    · next hn =>
      rw [if_neg hn]
      exact .free h

/-- To mint a name is to search from the counter on: the search ends, the name is that of the number
where it does, and the counter moves past it. -/
theorem exists_searchEnds_fresh (namer : Namer) : ∃ n, namer.SearchEnds namer.next n ∧
    namer.fresh.1 = nameOf namer.stem n ∧ namer.fresh.2.next = n + 1 :=
  ⟨_, searchEnds_firstFree namer.fresh_notMem, rfl, rfl⟩

/-! ### What calls keep -/

theorem stem_serve (namer : Namer) (call : NamerCall) : (namer.serve call).2.stem = namer.stem := by
  cases call with
  | reserve name =>
    simp only [serve, reserve]
    split <;> rfl
  | fresh => rfl

theorem stem_after (namer : Namer) (calls : List NamerCall) :
    (namer.after calls).stem = namer.stem := by
  induction calls generalizing namer with
  | nil => rfl
  | cons call calls ih => exact (ih _).trans (namer.stem_serve call)

theorem minted_append (namer : Namer) (calls more : List NamerCall) :
    namer.minted (calls ++ more) = namer.minted calls ++ (namer.after calls).minted more := by
  induction calls generalizing namer with
  | nil => rfl
  | cons call calls ih =>
    simp only [List.cons_append, minted, ih, List.append_assoc]
    rfl

/-- Taken are the names that were taken, that calls reserve and that calls mint. -/
theorem mem_reserved_after : name ∈ (namer.after calls).reserved ↔
    name ∈ namer.reserved ∨ name ∈ NamerCall.reserved calls ∨ name ∈ namer.minted calls := by
  induction calls generalizing namer with
  | nil => simp [after, NamerCall.reserved, minted]
  | cons call calls ih =>
    refine ih.trans ?_
    cases call with
    | reserve x => simp [serve, mem_reserve, NamerCall.reserved, minted, or_left_comm, or_assoc]
    | fresh => simp [serve, reserved_fresh, NamerCall.reserved, minted, or_left_comm, or_assoc]

theorem length_reserved_after_le (namer : Namer) (calls : List NamerCall) :
    (namer.after calls).reserved.length ≤ namer.reserved.length + calls.length := by
  induction calls generalizing namer with
  | nil => rfl
  | cons call calls ih =>
    have hstep : (namer.serve call).2.reserved.length ≤ namer.reserved.length + 1 := by
      cases call with
      | reserve name =>
        simp only [serve, reserve]
        split <;> simp
      | fresh => simp [serve, reserved_fresh]
    have hrest := ih (namer.serve call).2
    simp only [after, List.foldl_cons, List.length_cons] at hrest ⊢
    omega

/-- The names of all numbers below the counter are taken. -/
def Gapless (namer : Namer) : Prop := ∀ k < namer.next, nameOf namer.stem k ∈ namer.reserved

theorem gapless_ofStem (stem : String) : (ofStem stem).Gapless := nofun

theorem Gapless.mem_of_lt (h : namer.Gapless) (hends : namer.SearchEnds namer.next n) {k : Nat}
    (hk : k < n) : nameOf namer.stem k ∈ namer.reserved := by
  by_contra hfree
  rcases Nat.lt_or_ge k namer.next with hlt | hle
  · exact hfree (h k hlt)
  · exact absurd (hends.isLeast.2 ⟨hle, hfree⟩) (by omega)

/-- A gapless namer searches no further than to the number of names that are taken. -/
theorem Gapless.le_length (h : namer.Gapless) (hends : namer.SearchEnds namer.next n) :
    n ≤ namer.reserved.length := by
  have hall : ∀ k < n, nameOf namer.stem (0 + k) ∈ namer.reserved := fun k hk =>
    (Nat.zero_add k).symm ▸ h.mem_of_lt hends hk
  exact le_length_of_names hall

theorem Gapless.serve (h : namer.Gapless) (call : NamerCall) : (namer.serve call).2.Gapless := by
  cases call with
  | reserve name =>
    have hnext : (namer.reserve name).next = namer.next := by
      unfold reserve
      split <;> rfl
    intro k hk
    rw [stem_serve]
    exact mem_reserve.2 (.inr (h k (hnext ▸ hk)))
  | fresh =>
    obtain ⟨n, hends, hname, hnext⟩ := namer.exists_searchEnds_fresh
    intro k hk
    rw [stem_serve]
    rcases (Nat.le_of_lt_succ (hnext ▸ hk : k < n + 1)).eq_or_lt with rfl | hlt
    · exact hname ▸ List.mem_cons_self
    · exact List.mem_cons_of_mem _ (h.mem_of_lt hends hlt)

theorem Gapless.after (h : namer.Gapless) (calls : List NamerCall) :
    (namer.after calls).Gapless := by
  induction calls generalizing namer with
  | nil => exact h
  | cons call calls ih => exact ih (h.serve call)

/-! ### Every call for a name -/

/-- Whatever a namer was called for since it was made, the search for a further name ends, and at
the least number not below the counter whose name was neither reserved nor minted by then; that name
is minted, and the counter moves past the number.  The number is at most the number of the calls
before. -/
theorem minted_isLeast (stem : String) (before rest : List NamerCall) :
    let namer := (ofStem stem).after before
    ∃ n, namer.SearchEnds namer.next n ∧
      IsLeast {k | namer.next ≤ k ∧ nameOf stem k ∉ NamerCall.reserved before ∧
        nameOf stem k ∉ (ofStem stem).minted before} n ∧
      (ofStem stem).minted (before ++ .fresh :: rest) =
        (ofStem stem).minted before ++ (stem ++ "_" ++ toString n) :: namer.fresh.2.minted rest ∧
      namer.fresh.2.next = n + 1 ∧ n ≤ before.length := by
  intro namer
  have hstem : namer.stem = stem := stem_after _ before
  have htaken : ∀ x, x ∈ namer.reserved ↔
      x ∈ NamerCall.reserved before ∨ x ∈ (ofStem stem).minted before := fun x => by
    simp [namer, mem_reserved_after, ofStem]
  obtain ⟨n, hends, hname, hnext⟩ := namer.exists_searchEnds_fresh
  refine ⟨n, hends, ?_, ?_, hnext, ?_⟩
  · have hleast := hends.isLeast
    simpa only [hstem, htaken, not_or] using hleast
  · rw [minted_append]
    simp only [minted, serve, Option.toList_some, List.singleton_append, namer, hname, hstem]
    rfl
  · have hgapless : namer.Gapless := (gapless_ofStem stem).after before
    calc n ≤ namer.reserved.length := hgapless.le_length hends
      _ ≤ (ofStem stem).reserved.length + before.length := length_reserved_after_le _ before
      _ = before.length := by simp [ofStem]

/-- A reserved name in the way is passed over, and the name reserved after it was minted is not
minted again. -/
example : (ofStem "t").minted [.reserve "t_1", .fresh, .reserve "t_0", .fresh] = ["t_0", "t_2"] := by
  decide

end Namer

end Extraction

end TensorRecipe
