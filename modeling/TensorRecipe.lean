import TensorRecipe.Render
import TensorRecipe.Arena.Json
import TensorRecipe.Graph.Dot
import TensorRecipe.Proofs.Substitution.Transpose
import TensorRecipe.Proofs.LoopBinding.Rebinding
import TensorRecipe.Proofs.Extraction.Reextraction
import TensorRecipe.Proofs.Extraction.Confinement
import TensorRecipe.Proofs.Json.Wordings
import TensorRecipe.Proofs.Frame
import TensorRecipe.Proofs.Sharing
import TensorRecipe.Proofs.Extraction.Calls
import TensorRecipe.Proofs.Extraction.Dangling
import TensorRecipe.Proofs.Extraction.Learning
import TensorRecipe.Proofs.Extraction.OneName
import TensorRecipe.Proofs.LoopBinding.Claiming
import TensorRecipe.Proofs.LoopBinding.Enclosing
import TensorRecipe.Proofs.Substitution.FreeIndices
import TensorRecipe.Proofs.Substitution.Renaming
import TensorRecipe.Proofs.Tree.Paths
import TensorRecipe.Proofs.LoopBinding.Marking
import TensorRecipe.Proofs.Graph.Interruption
import TensorRecipe.Proofs.Extraction.Traces
import TensorRecipe.Proofs.Arena.Building
import TensorRecipe.Proofs.Pass.Variables
import TensorRecipe.Proofs.Tree.Brackets
import TensorRecipe.Proofs.Rendering.Ambiguity
import TensorRecipe.Proofs.Extraction.ExactCounts
import TensorRecipe.Proofs.Tree.Children
import TensorRecipe.Proofs.Extraction.Minting
