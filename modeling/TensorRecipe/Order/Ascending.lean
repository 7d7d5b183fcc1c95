/-!
# Ascending lists

A finite set is listed in ascending order without repetition.  `Ascending.insert` adds a member and
`Ascending.ofList` collects the members of any list; `mem_insert` and `mem_ofList` say that no
member is lost or gained.
-/

namespace TensorRecipe

namespace Ascending

variable {α : Type} [LT α] [DecidableLT α] [DecidableEq α]

/-- The list with `x` at its place, unless it is there already. -/
def insert (x : α) : List α → List α
  | [] => [x]
  | y :: ys => if x = y then y :: ys else if x < y then x :: y :: ys else y :: insert x ys

/-- The members of a list in ascending order, each once. -/
def ofList (xs : List α) : List α := xs.foldl (fun ascending x => insert x ascending) []

theorem mem_insert {x z : α} {ys : List α} :
    z ∈ insert x ys ↔ z = x ∨ z ∈ ys := by
  induction ys with
  | nil => simp [insert]
  | cons y ys ih =>
    unfold insert
    split
    · next h => subst h; simp
    · split
      · simp
      · simp only [List.mem_cons, ih]
        constructor
        · rintro (h | h | h) <;> simp [h]
        · rintro (h | h | h) <;> simp [h]

theorem mem_foldl_insert {z : α} (xs : List α) :
    ∀ ys : List α, z ∈ xs.foldl (fun ascending x => insert x ascending) ys ↔ z ∈ xs ∨ z ∈ ys := by
  induction xs with
  | nil => simp
  | cons x xs ih =>
    intro ys
    simp only [List.foldl_cons, ih, mem_insert, List.mem_cons]
    constructor
    · rintro (h | h | h) <;> simp [h]
    · rintro ((h | h) | h) <;> simp [h]

theorem mem_ofList {z : α} {xs : List α} : z ∈ ofList xs ↔ z ∈ xs := by
  simp [ofList, mem_foldl_insert]

end Ascending

end TensorRecipe
