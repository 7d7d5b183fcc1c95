import TensorRecipe.Pass.Rule

/-!
# Renaming variables

The simplest rules: one that changes nothing, and one that renames every variable it meets, from
left to right, by a step that passes a value on.
-/

namespace TensorRecipe

namespace Rule

/-- Change nothing. -/
def identity : Rule Unit Unit := rebuild

/-- Put a fresh variable in the place of each, named by a step on the value passed on. -/
def renameVariables {τ : Type} (step : String → τ → String × τ) : Rule Unit τ
  | _, _, .var name, passed => do
    let (name, passed) := step name passed
    let id ← PassM.addNode (.var name)
    return (id, passed)
  | visit, id, node, passed => rebuild visit id node passed

/-- Number the variables from left to right. -/
def numberVariables : Rule Unit Nat :=
  renameVariables fun _ n => ("v" ++ toString n, n + 1)

end Rule

end TensorRecipe
