import TensorRecipe.Proofs.Rendering.Marks
import TensorRecipe.Proofs.Tree.Indices
import TensorRecipe.Proofs.Rendering.Readings

/-!
# The text of a term

A `Term` is a tree of variables, sums, products, applications and lets.  Its reading puts those of
its parts one behind another: an application goes to whatever stands last in the text of its head,
and no parentheses are written but those around a sum in a product.

Main statement: a handle that unfolds to a term has the text of its reading (`Term.Proper.gives`).
-/

namespace TensorRecipe

namespace Rendering

/-! ### Terms -/

/-- The node operator that is written as an infix. -/
def Infix.operator : Infix → Operator
  | plus => .sum
  | times => .product

/-- A tree of variables, sums, products, applications and lets. -/
inductive Term where
  | var (x : Name)
  | operator (op : Infix) (operands : List Term)
  | apply (how : Application) (head : Term) (args : List Term)
  | letIn (bindings : List (Name × Term)) (body : Term)

namespace Term

mutual

/-- The tree of a term. -/
def toTree : Term → Tree
  | var x => .node (.var x.text) []
  | operator op ts => .node (.operator op.operator) (toTrees ts)
  | apply how head args => .node (.apply how) (head.toTree :: toTrees args)
  | letIn bs body => .node (.letIn (bs.map fun b => b.1.text)) (valueTrees bs ++ [body.toTree])

/-- The trees of several terms. -/
def toTrees : List Term → List Tree
  | [] => []
  | t :: ts => t.toTree :: toTrees ts

/-- The trees of the values that bindings have. -/
def valueTrees : List (Name × Term) → List Tree
  | [] => []
  | (_, t) :: bs => t.toTree :: valueTrees bs

end

@[simp]
theorem toTrees_eq_map (ts : List Term) : toTrees ts = ts.map toTree := by
  induction ts with
  | nil => rfl
  | cons t ts ih => rw [toTrees, ih, List.map_cons]

@[simp]
theorem valueTrees_eq_map (bs : List (Name × Term)) :
    valueTrees bs = bs.map fun b => b.2.toTree := by
  induction bs with
  | nil => rfl
  | cons b bs ih => rw [valueTrees, ih, List.map_cons]

/-- Operators have two operands or more, and lets bind something. -/
inductive Proper : Term → Prop where
  | var (x : Name) : Proper (var x)
  | operator {op : Infix} {ts : List Term} (hlen : 2 ≤ ts.length) (hts : ∀ t ∈ ts, Proper t) :
    Proper (operator op ts)
  | apply {how : Application} {head : Term} {args : List Term} (hhead : Proper head)
    (hargs : ∀ t ∈ args, Proper t) : Proper (apply how head args)
  | letIn {bs : List (Name × Term)} {body : Term} (hne : bs ≠ []) (hbs : ∀ b ∈ bs, Proper b.2)
    (hbody : Proper body) : Proper (letIn bs body)

/-- Whether a term is a sum. -/
def isSum : Term → Bool
  | operator .plus _ => true
  | _ => false

end Term

/-! ### The reading of a term -/

instance : Inhabited Reading :=
  ⟨.name (.ofAlphanum "x" (by decide) (by simp) (by decide) (by decide)) .stop⟩

/-- Readings with an operator between neighbours. -/
def Reading.join (op : Infix) : List Reading → Reading
  | [] => default
  | [r] => r
  | r :: rs => r.append (.operand op (join op rs))

/-- The reading of an operand: a sum in a product stands in parentheses. -/
def asOperand (op : Infix) (isSum : Bool) (r : Reading) : Reading :=
  if op = .times && isSum then .group r .stop else r

namespace Term

mutual

/-- What the text of a term says when it is read from left to right. -/
def reading : Term → Reading
  | var x => .name x .stop
  | operator op ts => .join op (operandReadings op ts)
  | apply how head args => head.reading.append (.apply how (readings args) .stop)
  | letIn bs body => .letIn (valueReadings bs) body.reading

/-- The readings of the operands of an operator. -/
def operandReadings (op : Infix) : List Term → List Reading
  | [] => []
  | t :: ts => asOperand op t.isSum t.reading :: operandReadings op ts

/-- The readings of several terms. -/
def readings : List Term → List Reading
  | [] => []
  | t :: ts => t.reading :: readings ts

/-- The readings of bindings. -/
def valueReadings : List (Name × Term) → List (Name × Reading)
  | [] => []
  | (x, t) :: bs => (x, t.reading) :: valueReadings bs

end

@[simp]
theorem operandReadings_eq_map (op : Infix) (ts : List Term) :
    operandReadings op ts = ts.map fun t => asOperand op t.isSum t.reading := by
  induction ts with
  | nil => rfl
  | cons t ts ih => rw [operandReadings, ih, List.map_cons]

@[simp]
theorem readings_eq_map (ts : List Term) : readings ts = ts.map reading := by
  induction ts with
  | nil => rfl
  | cons t ts ih => rw [readings, ih, List.map_cons]

@[simp]
theorem valueReadings_eq_map (bs : List (Name × Term)) :
    valueReadings bs = bs.map fun b => (b.1, b.2.reading) := by
  induction bs with
  | nil => rfl
  | cons b bs ih => rw [valueReadings, ih, List.map_cons]

end Term

/-! ### Texts of readings -/

/-- `text` is the text of `r`. -/
def Spells (text : String) (r : Reading) : Prop := ∀ u, text.toList ++ u = r.write u

namespace Spells

variable {text other : String} {r : Reading} {texts : List String} {rs : List Reading}

theorem eq (h : Spells text r) (h' : Spells other r) : text = other :=
  String.toList_inj.1 (by simpa using (h []).trans (h' []).symm)

theorem group (h : Spells text r) : Spells ("(" ++ text ++ ")") (.group r .stop) := by
  intro u
  simp only [String.toList_append, List.append_assoc, Reading.write, Rest.write]
  rw [← h]
  rfl

theorem asOperand (op : Infix) (isSum : Bool) (h : Spells text r) :
    Spells (if op = .times && isSum then "(" ++ text ++ ")" else text)
      (asOperand op isSum r) := by
  unfold Rendering.asOperand
  split
  · exact h.group
  · exact h

theorem join {op : Infix} {separator : String}
    (hsep : separator.toList = [' ', op.sign, ' ']) (hne : rs ≠ [])
    (h : List.Forall₂ Spells texts rs) : Spells (joinWith separator texts) (.join op rs) := by
  induction h with
  | nil => exact absurd rfl hne
  | @cons text r texts rs hd htl ih =>
    intro u
    cases htl with
    | nil => exact hd u
    | cons =>
      simp only [joinWith, String.toList_append, List.append_assoc, hsep, Reading.join,
        Reading.write_append, Rest.write]
      rw [ih (by simp) u, List.cons_append, List.cons_append, List.cons_append, List.nil_append, hd]

theorem args {close : Char} (h : List.Forall₂ Spells texts rs) (u : List Char) :
    (joinWith ", " texts).toList ++ close :: u = writeArgs close rs u := by
  induction h with
  | nil => rfl
  | @cons text r texts rs hd htl ih =>
    cases htl with
    | nil => exact hd (close :: u)
    | cons =>
      simp only [joinWith, String.toList_append, List.append_assoc, writeArgs]
      rw [ih, ← hd]
      rfl

theorem bindings {bs : List (Name × Reading)} (hne : bs ≠ [])
    (h : List.Forall₂ (fun text b => ∃ value, text = b.1.text ++ " = " ++ value ∧
      Spells value b.2) texts bs) (u : List Char) :
    (joinWith ", " texts).toList ++ (" in ".toList ++ u) = writeBindings bs u := by
  induction h with
  | nil => exact absurd rfl hne
  | @cons text b texts bs hd htl ih =>
    obtain ⟨x, r⟩ := b
    obtain ⟨value, rfl, hvalue⟩ := hd
    cases htl with
    | nil =>
      simp only [joinWith, String.toList_append, List.append_assoc, writeBindings]
      rw [← hvalue]
      rfl
    | cons =>
      simp only [joinWith, String.toList_append, List.append_assoc, writeBindings]
      rw [ih (by simp), ← hvalue]
      rfl

theorem apply {how : Application} {start finish : String}
    (hstart : start.toList = [opening how]) (hfinish : finish.toList = [closing how])
    (hhead : Spells text r) (hargs : List.Forall₂ Spells texts rs) :
    Spells (text ++ start ++ joinWith ", " texts ++ finish) (r.append (.apply how rs .stop)) := by
  intro u
  simp only [String.toList_append, List.append_assoc, hstart, hfinish, Reading.write_append,
    Rest.write]
  rw [← args hargs, ← hhead]
  rfl

theorem letIn {bs : List (Name × Reading)} (hne : bs ≠ [])
    (h : List.Forall₂ (fun text b => ∃ value, text = b.1.text ++ " = " ++ value ∧
      Spells value b.2) texts bs) (hbody : Spells text r) :
    Spells ("let " ++ joinWith ", " texts ++ " in " ++ text) (.letIn bs r) := by
  intro u
  simp only [String.toList_append, List.append_assoc, Reading.write]
  rw [bindings hne h, hbody]
  rfl

end Spells

/-! ### Rendered terms -/

/-- `f` gives the text of a reading. -/
def Gives {α : Type} (f : α → Except Fault String) (x : α) (r : Reading) : Prop :=
  ∃ text, f x = .ok text ∧ Spells text r

/-- Steps that succeed on the members of a list, each with what `S` asks for. -/
theorem exists_mapM_of_forall₂ {α β γ : Type} {f : α → Except Fault γ} {S : γ → β → Prop}
    {xs : List α} {ys : List β} (h : List.Forall₂ (fun x y => ∃ z, f x = .ok z ∧ S z y) xs ys) :
    ∃ zs, xs.mapM f = .ok zs ∧ List.Forall₂ S zs ys := by
  induction h with
  | nil => exact ⟨[], rfl, .nil⟩
  | cons hd _ ih =>
    obtain ⟨z, hz, hs⟩ := hd
    obtain ⟨zs, hzs, hall⟩ := ih
    exact ⟨z :: zs, by rw [List.mapM_cons, hz, hzs]; rfl, .cons hs hall⟩

section Rendered

variable {a : Arena} {m : Marks} {id : NodeId} {f : NodeId → Except Fault String}

/-- A handle is rendered as its node is, with one step less to go for the children. -/
theorem gives_renderWithin {shape : Shape} {ts : List Tree} {depth : Nat} {r : Reading}
    (hu : a.Unfolds id (.node shape ts)) (hdepth : (Tree.node shape ts).height ≤ depth)
    (h : ∀ node d, node.shape = shape → List.Forall₂ a.Unfolds node.children ts →
      (∀ t ∈ ts, t.height ≤ d) → Gives (a.renderNode m (a.renderWithin m d)) node r) :
    Gives (a.renderWithin m depth) id r := by
  obtain ⟨node, hget, hshape, hchildren⟩ := hu.get
  obtain ⟨d, rfl, hd⟩ := Tree.height_le_iff.1 hdepth
  obtain ⟨text, htext, hspells⟩ := h node d hshape hchildren hd
  exact ⟨text, by rw [Arena.renderWithin, hget, ← htext]; rfl, hspells⟩

theorem gives_operator {op : Infix} {ids : List NodeId} {rs : List Reading} (hne : rs ≠ [])
    (h : List.Forall₂ (Gives (a.renderOperand f op.operator)) ids rs) :
    Gives (a.renderNode m f) (.operator op.operator ids) (.join op rs) := by
  obtain ⟨texts, htexts, hspells⟩ := exists_mapM_of_forall₂ h
  cases op with
  | plus =>
    refine ⟨joinWith " + " texts, ?_, .join rfl hne hspells⟩
    rw [Arena.renderNode, htexts]
    rfl
  | times =>
    refine ⟨joinWith " * " texts, ?_, .join rfl hne hspells⟩
    rw [Arena.renderNode, htexts]
    rfl

theorem gives_apply {how : Application} {head : NodeId} {args : List NodeId} {r : Reading}
    {rs : List Reading} (hhead : Gives f head r) (hargs : List.Forall₂ (Gives f) args rs) :
    Gives (a.renderNode m f) (.apply how head args) (r.append (.apply how rs .stop)) := by
  obtain ⟨text, htext, hspells⟩ := hhead
  obtain ⟨texts, htexts, hall⟩ := exists_mapM_of_forall₂ hargs
  cases how with
  | subscript =>
    refine ⟨text ++ "[" ++ joinWith ", " texts ++ "]", ?_, hspells.apply rfl rfl hall⟩
    rw [Arena.renderNode, htext, Arena.renderList, htexts]
    rfl
  | call =>
    refine ⟨text ++ "(" ++ joinWith ", " texts ++ ")", ?_, hspells.apply rfl rfl hall⟩
    rw [Arena.renderNode, htext, Arena.renderList, htexts]
    rfl

theorem gives_letIn {cs : List Binding} {body : NodeId} {bs : List (Name × Reading)} {r : Reading}
    (hne : bs ≠ [])
    (hbs : List.Forall₂ (fun c b => c.name = b.1.text ∧ Gives f c.value b.2) cs bs)
    (hbody : Gives f body r) :
    Gives (a.renderNode m f) (.letIn cs body) (.letIn bs r) := by
  obtain ⟨text, htext, hspells⟩ := hbody
  have hbinding := hbs.imp fun c b ⟨hname, value, hvalue, hs⟩ =>
    show ∃ text, Arena.renderBinding f c = Except.ok text ∧
      ∃ value, text = b.1.text ++ " = " ++ value ∧ Spells value b.2 from
    ⟨b.1.text ++ " = " ++ value, by rw [Arena.renderBinding, hvalue, hname]; rfl, value, rfl, hs⟩
  obtain ⟨texts, htexts, hall⟩ := exists_mapM_of_forall₂ hbinding
  refine ⟨"let " ++ joinWith ", " texts ++ " in " ++ text, ?_, .letIn hne hall hspells⟩
  rw [Arena.renderNode, htexts, htext]
  rfl

theorem Term.isSum_eq {t : Term} (h : a.Unfolds id t.toTree) :
    ∃ node, a.get id = .ok node ∧ node.isSum = t.isSum := by
  have hsum : t.isSum = true ↔ ∃ children, t.toTree = .node (.operator .sum) children := by
    cases t with
    | operator op ts => cases op <;> simp [isSum, toTree, Infix.operator]
    | _ => simp [isSum, toTree]
  generalize ht : t.toTree = tree at h
  obtain ⟨shape, children⟩ := tree
  obtain ⟨node, hget, rfl, -⟩ := h.get
  refine ⟨node, hget, Bool.eq_iff_iff.2 ?_⟩
  rw [Node.isSum_iff, hsum, ht]
  simp

/-- An operand, with its parentheses. -/
theorem Term.gives_operand {t : Term} (op : Infix) (h : a.Unfolds id t.toTree)
    (hf : Gives f id t.reading) :
    Gives (a.renderOperand f op.operator) id (asOperand op t.isSum t.reading) := by
  obtain ⟨text, htext, hspells⟩ := hf
  obtain ⟨node, hget, hsum⟩ := t.isSum_eq h
  refine ⟨_, ?_, hspells.asOperand op t.isSum⟩
  rw [Arena.renderOperand, htext, hget, ← hsum]
  cases op <;> rfl

/-- A handle that unfolds to a term is rendered as the reading of the term. -/
theorem Term.Proper.gives {t : Term} (h : t.Proper) : ∀ {depth : Nat} {id : NodeId},
    a.Unfolds id t.toTree → t.toTree.height ≤ depth →
      Gives (a.renderWithin m depth) id t.reading := by
  induction h with
  | var x =>
    intro depth id hu hdepth
    refine gives_renderWithin hu hdepth fun node d hshape _ _ => ?_
    cases node <;> cases hshape
    exact ⟨x.text, rfl, fun u => rfl⟩
  | @operator op ts hlen hts ih =>
    intro depth id hu hdepth
    refine gives_renderWithin hu hdepth fun node d hshape hc hd => ?_
    cases node <;> cases hshape
    rw [toTrees_eq_map, List.forall_mem_map] at hd
    rw [toTrees_eq_map, List.forall₂_map_right_iff] at hc
    have hoperands := Arena.forall₂_imp_of_mem hc fun p _ t ht hp =>
      t.gives_operand op hp (ih t ht hp (hd t ht))
    rw [Term.reading, operandReadings_eq_map]
    refine gives_operator ?_ (List.forall₂_map_right_iff.2 hoperands)
    rw [ne_eq, List.map_eq_nil_iff]
    rintro rfl
    simp at hlen
  | @apply how head args hhead hargs ihhead ihargs =>
    intro depth id hu hdepth
    refine gives_renderWithin hu hdepth fun node d hshape hc hd => ?_
    cases node <;> cases hshape
    rw [toTrees_eq_map, List.forall_mem_cons, List.forall_mem_map] at hd
    obtain _ | ⟨hc, hcs⟩ := hc
    rw [toTrees_eq_map, List.forall₂_map_right_iff] at hcs
    have hall := Arena.forall₂_imp_of_mem hcs fun p _ t ht hp => ihargs t ht hp (hd.2 t ht)
    rw [Term.reading, readings_eq_map]
    exact gives_apply (ihhead hc hd.1) (List.forall₂_map_right_iff.2 hall)
  | @letIn bs body hne hbs hbody ihbs ihbody =>
    intro depth id hu hdepth
    refine gives_renderWithin hu hdepth fun node d hshape hc hd => ?_
    cases node <;> try cases hshape
    next cs body' =>
    rw [valueTrees_eq_map, List.forall_mem_append, List.forall_mem_map,
      List.forall_mem_singleton] at hd
    rw [valueTrees_eq_map] at hc
    obtain ⟨hvalues, hc⟩ := forall₂_append_singleton hc
    rw [List.forall₂_map_left_iff, List.forall₂_map_right_iff] at hvalues
    have hall := Arena.forall₂_imp_of_mem
      (forall₂_and (forall₂_of_map_eq (Shape.letIn.inj hshape)) hvalues) fun c _ b hb hcb =>
        And.intro hcb.1 (ihbs b hb hcb.2 (hd.1 b hb))
    rw [Term.reading, valueReadings_eq_map]
    refine gives_letIn ?_ (List.forall₂_map_right_iff.2 hall) (ihbody hc hd.2)
    rwa [ne_eq, List.map_eq_nil_iff]

end Rendered

end Rendering

end TensorRecipe
