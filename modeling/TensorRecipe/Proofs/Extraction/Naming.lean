import TensorRecipe.Extraction.Namer
import Mathlib

/-!
# Fresh names

A name that a `Namer` mints is not among those that are taken (`fresh_notMem`): different numbers
have different names, so among one number more than there are names taken, one has a name that is
free.
-/

namespace TensorRecipe

namespace Extraction

namespace Namer

theorem nameOf_injective (stem : String) : Function.Injective (nameOf stem) := by
  intro m n h
  unfold nameOf at h
  exact Nat.repr_injective ((String.append_right_inj _).1 h)

/-- Where the search ends at a name that is taken, all names it has tried are. -/
theorem mem_of_firstFree_mem {namer : Namer} :
    ∀ {tries n : Nat}, nameOf namer.stem (namer.firstFree tries n) ∈ namer.reserved →
      ∀ k ≤ tries, nameOf namer.stem (n + k) ∈ namer.reserved
  | 0, n, h, k, hk => by
    obtain rfl : k = 0 := by omega
    exact h
  | tries + 1, n, h, k, hk => by
    unfold firstFree at h
    split at h
    · next hn =>
      rcases Nat.eq_zero_or_pos k with rfl | hpos
      · exact hn
      · have := mem_of_firstFree_mem h (k - 1) (by omega)
        rwa [show n + 1 + (k - 1) = n + k by omega] at this
    · next hn => exact absurd h hn

/-- Where the names of numbers in succession are all in a list, they are no more than it has
entries. -/
theorem le_length_of_names {stem : String} {names : List String} {first count : Nat}
    (h : ∀ k < count, nameOf stem (first + k) ∈ names) : count ≤ names.length := by
  let tried := (List.range count).map fun k => nameOf stem (first + k)
  have hnodup : tried.Nodup := by
    refine List.nodup_range.map fun j k hjk => ?_
    have := nameOf_injective stem hjk
    omega
  have hsub : tried ⊆ names := by
    intro x hx
    obtain ⟨k, hk, rfl⟩ := List.mem_map.1 hx
    exact h k (List.mem_range.1 hk)
  have hle := (hnodup.subperm hsub).length_le
  rwa [List.length_map, List.length_range] at hle

theorem fresh_notMem (namer : Namer) : namer.fresh.1 ∉ namer.reserved := by
  intro h
  have hall := mem_of_firstFree_mem (n := namer.next) h
  have hle : namer.reserved.length + 1 ≤ namer.reserved.length :=
    le_length_of_names fun k hk => hall k (by omega)
  omega

theorem reserved_fresh (namer : Namer) :
    namer.fresh.2.reserved = namer.fresh.1 :: namer.reserved := rfl

theorem mem_reserve {namer : Namer} {x y : String} :
    y ∈ (namer.reserve x).reserved ↔ y = x ∨ y ∈ namer.reserved := by
  unfold reserve
  split
  · next h =>
    constructor
    · exact .inr
    · rintro (rfl | hy)
      · exact h
      · exact hy
  · simp

end Namer

end Extraction

end TensorRecipe
