import TensorRecipe.Arena.Basic

/-!
# Flattening composite indices

`Arena.flatten` replaces every composite index of a list by its factors, down to scalar indices, in
order.
-/

namespace TensorRecipe

namespace Arena

/-- The scalar factors of one index, looking at most so many factors deep. -/
def flattenWithin (a : Arena) : Nat → Index → Except Fault (List Index)
  | 0, _ => .error .cyclic
  | depth + 1, i => do
    let info ← a.indexInfo i
    if info.isComposite then
      let factors ← info.factors.mapM (flattenWithin a depth)
      return factors.flatten
    else
      return [i]

/-- The scalar factors of the indices.  A chain of factors longer than the index table meets some
index twice, so the depth allowed here stops nothing but a cycle. -/
def flatten (a : Arena) (indices : List Index) : Except Fault (List Index) := do
  let factors ← indices.mapM (a.flattenWithin (a.indices.size + 1))
  return factors.flatten

end Arena

end TensorRecipe
