/-!
# Names of temporaries

A `Namer` mints names that differ from one another and from every name that is taken: a stem, an
underscore and a number.
-/

namespace TensorRecipe

namespace Extraction

/-- The state of naming. -/
structure Namer where
  stem : String
  /-- The least number not yet tried. -/
  next : Nat
  /-- The names that are taken. -/
  reserved : List String
deriving DecidableEq

namespace Namer

/-- A namer with nothing taken. -/
def ofStem (stem : String) : Namer := ⟨stem, 0, []⟩

/-- The name of a number. -/
def nameOf (stem : String) (n : Nat) : String := stem ++ "_" ++ toString n

/-- Take a name. -/
def reserve (namer : Namer) (name : String) : Namer :=
  if name ∈ namer.reserved then namer else { namer with reserved := name :: namer.reserved }

/-- The first number from `n` on whose name is free, if it is among the first `tries`. -/
def firstFree (namer : Namer) : Nat → Nat → Nat
  | 0, n => n
  | tries + 1, n =>
    if nameOf namer.stem n ∈ namer.reserved then firstFree namer tries (n + 1) else n

/-- Mint a name.  Among one number more than there are names taken, one has a name that is free. -/
def fresh (namer : Namer) : String × Namer :=
  let n := namer.firstFree namer.reserved.length namer.next
  let name := nameOf namer.stem n
  (name, { namer with next := n + 1, reserved := name :: namer.reserved })

end Namer

end Extraction

end TensorRecipe
