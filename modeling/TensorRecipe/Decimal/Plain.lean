import TensorRecipe.Decimal.Shortest

/-!
# Plain decimal text

How a constant is shown to a reader: the shortest digits, always positional, with no point where
nothing follows it.
-/

namespace TensorRecipe

namespace Binary64

/-- The plain text of a magnitude that is not zero. -/
def plainMagnitude (x : Binary64) : String :=
  let (whole, places) := (Decimal.shortest .up x).positional
  let point := if places.isEmpty then [] else '.' :: places.map Digit.char
  String.ofList (whole.map Digit.char ++ point)

/-- The plain text of a number. -/
def plain (x : Binary64) : String :=
  if x.isNaN then "NaN"
  else
    let sign := if x.isNegative then "-" else ""
    sign ++ (if !x.isFinite then "inf" else if x.isZero then "0" else x.plainMagnitude)

end Binary64

end TensorRecipe
