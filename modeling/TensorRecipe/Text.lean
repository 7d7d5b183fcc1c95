/-!
# Lists as text
-/

namespace TensorRecipe

/-- The texts one after another, with a separator between neighbours. -/
def joinWith (separator : String) : List String → String
  | [] => ""
  | [text] => text
  | text :: texts => text ++ separator ++ joinWith separator texts

/-- Numbers in brackets. -/
def bracketed (ns : List Nat) : String := "[" ++ joinWith ", " (ns.map fun n => toString n) ++ "]"

end TensorRecipe
