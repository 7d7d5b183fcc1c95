import TensorRecipe.Node
import TensorRecipe.Text

/-!
# Events

Passes keep a log of what they decide.  An `Event` is one entry, with a severity and a line of text.
-/

namespace TensorRecipe

/-- How much an event matters, from the most to the least. -/
inductive Severity where
  | warn
  | info
  | debug
  | trace
deriving DecidableEq

namespace Severity

/-- The rank of a severity; a log of a level holds the events that do not rank above it. -/
def rank : Severity → Nat
  | warn => 0
  | info => 1
  | debug => 2
  | trace => 3

/-- The text of a severity. -/
def text : Severity → String
  | warn => "WARN"
  | info => "INFO"
  | debug => "DEBUG"
  | trace => "TRACE"

end Severity

/-- What passes report as they go. -/
inductive Event where
  /-- The binding of loops begins. -/
  | binding (recipe : NodeId)
  /-- The extraction of reductions begins. -/
  | extracting (recipe : NodeId)
  /-- A recipe's indices have their loops. -/
  | bound (recipe : NodeId) (free : Nat) (transpose : List Nat)
  /-- An index has no place in a transpose. -/
  | unresolvable (index : String) (declared : List String)
  /-- A reduction has become a temporary. -/
  | extracted (temporary : String) (sum : NodeId) (scope : Nat)
  /-- A temporary is bound around a node. -/
  | placed (temporary : String) (around : NodeId)
  /-- Nothing refers to a temporary. -/
  | unreferenced (temporary : String)
deriving DecidableEq

namespace Event

/-- The severity of an event. -/
def severity : Event → Severity
  | binding _ => .info
  | extracting _ => .info
  | bound _ _ _ => .debug
  | unresolvable _ _ => .debug
  | extracted _ _ _ => .debug
  | placed _ _ => .trace
  | unreferenced _ => .warn

/-- What an event says. -/
def message : Event → String
  | binding recipe => "span bind recipe=" ++ recipe.label
  | extracting recipe => "span extract recipe=" ++ recipe.label
  | bound recipe free transpose =>
    "bound recipe indices recipe=" ++ recipe.label ++ " free=" ++ toString free ++
      " transpose=" ++ bracketed transpose
  | unresolvable index declared =>
    "unresolvable index index=" ++ index ++ " declared=" ++ joinWith ", " declared
  | extracted temporary sum scope =>
    "extracted reduction temporary=" ++ temporary ++ " sum=" ++ sum.label ++
      " scope=" ++ toString scope
  | placed temporary around =>
    "placed temporary temporary=" ++ temporary ++ " at=" ++ around.label
  | unreferenced temporary => "temporary is never referenced temporary=" ++ temporary

/-- The line of an event in a log. -/
def line (e : Event) : String := e.severity.text ++ " " ++ e.message

end Event

end TensorRecipe
