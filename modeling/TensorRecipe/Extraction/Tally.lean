/-!
# Counts of uses

How often each temporary is referred to, as pairs of its number and a positive count, in ascending
order of the numbers.
-/

namespace TensorRecipe

namespace Extraction

/-- Counts by the numbers of temporaries. -/
abbrev Tally : Type := List (Nat × Nat)

namespace Tally

/-- Count so many more uses of a temporary. -/
def add (temporary count : Nat) : Tally → Tally
  | [] => [(temporary, count)]
  | (t, n) :: uses =>
    if t = temporary then (t, n + count) :: uses
    else if temporary < t then (temporary, count) :: (t, n) :: uses
    else (t, n) :: add temporary count uses

/-- All uses of two counts. -/
def merge (uses more : Tally) : Tally := more.foldl (fun uses (t, n) => add t n uses) uses

/-- How often a temporary is used. -/
def count (uses : Tally) (temporary : Nat) : Nat :=
  ((uses.find? (·.1 = temporary)).map (·.2)).getD 0

theorem count_cons (t n temporary : Nat) (uses : Tally) :
    count ((t, n) :: uses) temporary = if t = temporary then n else count uses temporary := by
  unfold count
  by_cases h : t = temporary <;> simp [h]

end Tally

end Extraction

end TensorRecipe
