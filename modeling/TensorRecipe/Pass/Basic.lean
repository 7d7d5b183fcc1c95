import TensorRecipe.Arena.Visitor
import TensorRecipe.Event
import TensorRecipe.Node.Children

/-!
# Passes

A pass works on an arena, to which it may append nodes, and keeps a log.  `PassM ω` is the type of
its steps, where `ω` is what the pass itself remembers.  A step that stops at a fault leaves the
arena, the log and the memory as they are by then.

The steps below are all there are: what a pass does to the arena it does through `addNode`.
-/

namespace TensorRecipe

/-- What a pass works on. -/
structure Workspace (ω : Type) where
  arena : Arena
  /-- The log, the newest event first. -/
  events : List Event
  /-- What the pass remembers. -/
  memory : ω

/-- The steps of a pass with a memory of type `ω`. -/
abbrev PassM (ω : Type) : Type → Type := EStateM Fault (Workspace ω)

namespace PassM

variable {ω ω' α : Type}

/-- Look something up in the arena. -/
def ask (look : Arena → Except Fault α) : PassM ω α := fun w =>
  match look w.arena with
  | .ok x => .ok x w
  | .error fault => .error fault w

/-- Append a node; the answer is its handle. -/
def addNode (node : Node) : PassM ω NodeId := fun ⟨arena, events, memory⟩ =>
  let id := arena.nextId
  .ok id ⟨arena.addNode node, events, memory⟩

/-- Append a node, unless nothing changed; the answer is its handle, or else the handle given. -/
def addUnless (unchanged : Prop) [Decidable unchanged] (id : NodeId) (node : Node) :
    PassM ω NodeId :=
  if unchanged then pure id else addNode node

/-- Append a node with other children, unless they are those it has; the answer is its handle, or
else the handle given. -/
def setChildren (id : NodeId) (node : Node) (children : List NodeId) : PassM ω NodeId :=
  if children = node.children then pure id
  else do
    let new ← ask fun _ => node.setChildren children
    addNode new

/-- Add an event to the log. -/
def log (event : Event) : PassM ω Unit := fun w => .ok () { w with events := event :: w.events }

/-- Add an event to the log on a condition. -/
def logIf (condition : Prop) [Decidable condition] (event : Event) : PassM ω Unit :=
  if condition then log event else pure ()

/-- What the pass remembers. -/
def getMemory : PassM ω ω := fun w => .ok w.memory w

/-- Change what the pass remembers. -/
def remember (change : ω → ω) : PassM ω Unit := fun w =>
  .ok () { w with memory := change w.memory }

/-- Walk a tree with a visitor whose memory is that of the pass. -/
def walk (visitor : Arena → Visitor ω) (root : NodeId) : PassM ω Unit :=
  fun ⟨arena, events, memory⟩ =>
    match (visitor arena).walk arena root memory with
    | .ok _ memory => .ok () ⟨arena, events, memory⟩
    | .error fault memory => .error fault ⟨arena, events, memory⟩

/-- Run the steps of another pass, which begins with a memory of its own; the answer holds what that
pass then remembers. -/
def within (memory' : ω') (steps : PassM ω' α) : PassM ω (α × ω') :=
  fun ⟨arena, events, memory⟩ =>
    match steps ⟨arena, events, memory'⟩ with
    | .ok x ⟨arena, events, memory'⟩ => .ok (x, memory') ⟨arena, events, memory⟩
    | .error fault ⟨arena, events, _⟩ => .error fault ⟨arena, events, memory⟩

/-- Run the steps of another pass, which begins with a memory of its own; what that pass remembers
in the end, with an answer or at a fault, is put into the memory here. -/
def aside (memory' : ω') (put : ω → ω' → ω) (steps : PassM ω' α) : PassM ω α :=
  fun ⟨arena, events, memory⟩ =>
    match steps ⟨arena, events, memory'⟩ with
    | .ok x ⟨arena, events, memory'⟩ => .ok x ⟨arena, events, put memory memory'⟩
    | .error fault ⟨arena, events, memory'⟩ => .error fault ⟨arena, events, put memory memory'⟩

/-- Run the steps of a pass on an arena, with an empty log. -/
def start (steps : PassM ω α) (arena : Arena) (memory : ω) :
    EStateM.Result Fault (Workspace ω) α := steps ⟨arena, [], memory⟩

end PassM

end TensorRecipe
