import TensorRecipe.LoopBinding
import TensorRecipe.Proofs.Tree.Basic

/-!
# Loop nests of trees

What binding does to a tree, said node by node and without any state: `Tree.loops` lists the loops
a tree shows to what lies around it, `Tree.Bindable` says that every recipe in it finds its declared
indices among its loops, and `Tree.withLoops` is the tree with the missing loops put in.  Each is
given the indices `above` that loops around the tree bind, and the last two how an index falls into
factors.
-/

namespace TensorRecipe

/-- The declared indices that are bound neither around a recipe nor in its body. -/
def IndexDeclaration.missing (g : IndexDeclaration) (above below : List Index) : List Index :=
  g.toList.filter fun i => i ∉ above ∧ i ∉ below

/-- The positions that a transpose records; none where there is no transpose. -/
def positions (declared loops : List Index) : List Nat :=
  match transposition declared loops with
  | .ok ps => ps
  | .error _ => []

namespace Tree

mutual

/-- The loops of a tree, the outermost first.  A recipe adds the loops its body lacks; the values
of a let have loops of their own, which do not count. -/
def loops (above : List Index) : Tree → List Index
  | node (.recipe g _) children =>
    g.missing above (loopsAll above children) ++ loopsAll above children
  | node (.forAll is) children => is.reverse ++ loopsAll (is ++ above) children
  | node (.indexSum is) children => loopsAll (is ++ above) children
  | node (.letIn _) children => loopsLast above children
  | node _ children => loopsAll above children

/-- The loops of several trees, those of the last first. -/
def loopsAll (above : List Index) : List Tree → List Index
  | [] => []
  | t :: ts => loopsAll above ts ++ loops above t

/-- The loops of the last tree. -/
def loopsLast (above : List Index) : List Tree → List Index
  | [] => []
  | [t] => loops above t
  | _ :: ts => loopsLast above ts

end

section

variable (factors : Index → List Index)

mutual

/-- Every recipe's loops are a rearrangement of what it declares and nothing around it binds, both
down to scalar factors. -/
def Bindable (above : List Index) : Tree → Prop
  | node (.recipe g _) children =>
    BindableAll above children ∧
      ((g.missing above (loopsAll above children) ++ loopsAll above children).flatMap
        factors).Perm ((g.toList.filter (· ∉ above)).flatMap factors)
  | node shape children => BindableAll (shape.scope ++ above) children

/-- All of the trees are bindable. -/
def BindableAll (above : List Index) : List Tree → Prop
  | [] => True
  | t :: ts => Bindable above t ∧ BindableAll above ts

end

/-- The trees below a loop over the indices, if there are any. -/
def wrap (is : List Index) (children : List Tree) : List Tree :=
  if is.isEmpty then children else [node (.forAll is) children]

mutual

/-- The tree in which every recipe has the loops it lacks around its body, and its transpose. -/
def withLoops (above : List Index) : Tree → Tree
  | node (.recipe g _) children =>
    let missing := g.missing above (loopsAll above children)
    node
      (.recipe g (some (positions ((g.toList.filter (· ∉ above)).flatMap factors)
        ((missing ++ loopsAll above children).flatMap factors))))
      (wrap missing (withLoopsAll above children))
  | node shape children => node shape (withLoopsAll (shape.scope ++ above) children)

/-- The trees with the missing loops put in. -/
def withLoopsAll (above : List Index) : List Tree → List Tree
  | [] => []
  | t :: ts => withLoops above t :: withLoopsAll above ts

end

end

end Tree

end TensorRecipe
