import TensorRecipe.Extraction.Reductions
import TensorRecipe.LoopBinding

/-!
# Scheduling

To schedule a recipe is to bind its indices to loops, and then to extract its reductions.
-/

namespace TensorRecipe

/-- Schedule the tree at a node: the root of the scheduled tree, and what binding marked. -/
def schedule (options : Extraction.Options) (root : NodeId) : PassM Unit (NodeId × Marks) := do
  PassM.log (.binding root)
  let (bound, marks) ← PassM.within Marks.empty (LoopBinding.bindFresh root)
  PassM.log (.extracting bound)
  let (id, _) ← PassM.within (Extraction.Memory.ofOptions options) (Extraction.extract bound)
  return (id, marks)

end TensorRecipe
