import TensorRecipe.Node
import TensorRecipe.Text

/-!
# Faults and their reports

A `Fault` is a cause for which an operation stops.  A `Report` is what is said about one: the stage
it belongs to, a code and a text.  `Fault.report` words every cause.
-/

namespace TensorRecipe

/-- The causes for which an operation stops. -/
inductive Fault where
  /-- A node handle that names no node. -/
  | unknownNode (id : NodeId)
  /-- An index handle that names no index. -/
  | unknownIndex (i : Index)
  /-- A node was given another number of children than it has. -/
  | arity (node : String) (expected got : Nat)
  /-- A loop runs over an index that the recipe does not declare. -/
  | undeclared (index : String) (declared : List String)
  /-- A recipe declares an index over which nothing loops. -/
  | unlooped (index : String) (declared : List String)
  /-- A text is not a set of extraction options. -/
  | malformedOptions
  /-- A node or an index lies below itself. -/
  | cyclic
deriving DecidableEq

/-- The stage of the work a report belongs to: looking into trees and transforming them, binding
loops, or extracting reductions. -/
inductive Stage where
  | transform
  | binding
  | extraction
deriving DecidableEq

namespace Stage

/-- The heading of a report. -/
def heading : Stage → String
  | transform => "RewriteError"
  | binding => "BindingError"
  | extraction => "ExtractionError"

end Stage

/-- The classes of faults. -/
inductive Code where
  | noError
  | unknownNode
  | unknownIndex
  | mismatchedArity
  | unresolvableIndex
  | generic
deriving DecidableEq

namespace Code

/-- The text of a code. -/
def text : Code → String
  | noError => "no_error"
  | unknownNode => "unknown_node"
  | unknownIndex => "unknown_index"
  | mismatchedArity => "mismatched_arity"
  | unresolvableIndex => "unresolvable_index"
  | generic => "generic"

end Code

/-- What is said about a fault. -/
structure Report where
  stage : Stage
  code : Code
  details : Option String
deriving DecidableEq

namespace Report

/-- The heading, then in braces the code and the details there are. -/
def message (r : Report) : String :=
  r.stage.heading ++ "\x7b" ++ r.code.text ++
    (match r.details with
      | some text => ": " ++ text
      | none => "") ++ "\x7d"

end Report

namespace Fault

/-- What is wrong with an index that no transpose can place. -/
def unresolvable (index reason : String) (declared : List String) : Report :=
  { stage := .binding
    code := .unresolvableIndex
    details := some ("index '" ++ index ++ "' " ++ reason ++
      " (declared: " ++ joinWith ", " declared ++ ")") }

/-- The report on a fault. -/
def report : Fault → Report
  | unknownNode id => ⟨.transform, .unknownNode, some id.label⟩
  | unknownIndex i => ⟨.transform, .unknownIndex, some i.label⟩
  | arity node expected got =>
    ⟨.transform, .mismatchedArity,
      some (node ++ " expects " ++ toString expected ++ " children, got " ++ toString got)⟩
  | undeclared index declared => unresolvable index "is not declared" declared
  | unlooped index declared => unresolvable index "is never looped over" declared
  | malformedOptions => ⟨.extraction, .generic, none⟩
  | cyclic => ⟨.transform, .generic, none⟩

end Fault

end TensorRecipe
