import TensorRecipe.Arena.Json
import TensorRecipe.Proofs.Json.Decoding
import TensorRecipe.Proofs.Tree.Basic

/-!
# Arenas survive JSON

An arena is read from its JSON text unchanged if its numbers are those that machine words hold
(`Arena.InRange`), its constants are finite, and each of them is read as it is written
(`Binary64.ReadsBack`).  If some constant is not finite there is a text all the same, but no arena
is read from it; and no text at all gives such a constant (`Arena.read?_write_of_readsBack`).
-/

namespace TensorRecipe

/-! ### Handles -/

namespace Index

theorem ofJson?_toJson {i : Index} (h : i.pos < handleBound) : ofJson? i.toJson = some i := by
  rw [ofJson?, toJson, Json.asNat?_nat h]
  rfl

theorem listOfJson?_listToJson {is : List Index} (h : ∀ i ∈ is, i.pos < handleBound) :
    listOfJson? (listToJson is) = some is :=
  Json.asList?_map fun i hi => ofJson?_toJson (h i hi)

theorem writable_listToJson (is : List Index) : (listToJson is).Writable := by
  refine Json.writable_arr fun j hj => ?_
  obtain ⟨i, -, rfl⟩ := List.mem_map.1 hj
  exact Json.writable_nat _

end Index

namespace NodeId

theorem ofJson?_toJson {id : NodeId} (h : id.pos < handleBound) : ofJson? id.toJson = some id := by
  rw [ofJson?, toJson, Json.asNat?_nat h]
  rfl

theorem listOfJson?_listToJson {ids : List NodeId} (h : ∀ id ∈ ids, id.pos < handleBound) :
    listOfJson? (listToJson ids) = some ids :=
  Json.asList?_map fun id hid => ofJson?_toJson (h id hid)

theorem writable_listToJson (ids : List NodeId) : (listToJson ids).Writable := by
  refine Json.writable_arr fun j hj => ?_
  obtain ⟨id, -, rfl⟩ := List.mem_map.1 hj
  exact Json.writable_nat _

end NodeId

/-! ### The index table -/

theorem IndexRole.ofJson?_toJson (role : IndexRole) : IndexRole.ofJson? role.toJson = some role := by
  cases role <;> rfl

namespace IndexInfo

/-- Extent and factors are numbers that a text may give. -/
structure InRange (info : IndexInfo) : Prop where
  extent : info.extent < sizeBound
  factors : ∀ i ∈ info.factors, i.pos < handleBound

theorem ofJson?_toJson {info : IndexInfo} (h : info.InRange) : ofJson? info.toJson = some info := by
  simp [ofJson?, toJson, Json.record?_object, Json.asText?_text, Json.asNat?_nat h.extent,
    IndexRole.ofJson?_toJson, Index.listOfJson?_listToJson h.factors]

theorem writable_toJson (info : IndexInfo) : info.toJson.Writable := by
  refine Json.writable_object ?_
  simp [IndexRole.toJson, Json.writable_text, Json.writable_nat, Index.writable_listToJson]

end IndexInfo

/-! ### Recipes and bindings -/

theorem IndexDeclaration.ofJson?_toJson {g : IndexDeclaration}
    (h : ∀ i ∈ g.toList, i.pos < handleBound) : IndexDeclaration.ofJson? g.toJson = some g := by
  have hdomain : ∀ i ∈ g.domain, i.pos < handleBound := fun i hi => h i (by simp [toList, hi])
  have hbasis : ∀ i ∈ g.basis, i.pos < handleBound := fun i hi => h i (by simp [toList, hi])
  have hpoint : ∀ i ∈ g.point, i.pos < handleBound := fun i hi => h i (by simp [toList, hi])
  simp [ofJson?, toJson, Json.record?_object, Index.listOfJson?_listToJson hdomain,
    Index.listOfJson?_listToJson hbasis, Index.listOfJson?_listToJson hpoint]

namespace Recipe

theorem transposeOfJson?_transposeToJson {transpose : Option (List Nat)}
    (h : ∀ positions, transpose = some positions → ∀ k ∈ positions, k < sizeBound) :
    transposeOfJson? (transposeToJson transpose) = some transpose := by
  cases transpose with
  | none => rfl
  | some positions =>
    have hlist : (Json.arr (positions.map Json.nat)).asList? (·.asNat? sizeBound) = some positions :=
      Json.asList?_map fun k hk => Json.asNat?_nat (h positions rfl k hk)
    show ((Json.arr (positions.map Json.nat)).asList? (·.asNat? sizeBound)).map some = _
    rw [hlist]
    rfl

theorem ofJson?_toJson {r : Recipe} (hindices : ∀ i ∈ r.indices.toList, i.pos < handleBound)
    (hbody : r.body.pos < handleBound)
    (htranspose : ∀ positions, r.transpose = some positions → ∀ k ∈ positions, k < sizeBound) :
    ofJson? r.toJson = some r := by
  simp [ofJson?, toJson, Json.record?_object, IndexDeclaration.ofJson?_toJson hindices,
    NodeId.ofJson?_toJson hbody, transposeOfJson?_transposeToJson htranspose]

theorem writable_toJson (r : Recipe) : r.toJson.Writable := by
  refine Json.writable_object ?_
  have htranspose : (transposeToJson r.transpose).Writable := by
    unfold transposeToJson
    split
    · refine Json.writable_arr fun j hj => ?_
      obtain ⟨k, -, rfl⟩ := List.mem_map.1 hj
      exact Json.writable_nat k
    · exact Json.writable_null
  have hindices : r.indices.toJson.Writable := by
    refine Json.writable_object ?_
    simp [Index.writable_listToJson]
  simp [htranspose, hindices, NodeId.toJson, Json.writable_nat]

end Recipe

namespace Binding

theorem ofJson?_toJson {b : Binding} (h : b.value.pos < handleBound) :
    ofJson? b.toJson = some b := by
  simp [ofJson?, toJson, Json.record?_object, Json.asText?_text, NodeId.ofJson?_toJson h]

theorem writable_toJson (b : Binding) : b.toJson.Writable := by
  refine Json.writable_object ?_
  simp [NodeId.toJson, Json.writable_text, Json.writable_nat]

end Binding

/-! ### Constants -/

namespace Binary64

theorem writable_toJson (x : Binary64) : x.toJson.Writable := by
  unfold toJson
  split
  · next n hn => exact Json.writable_num (wellFormed_numeral hn)
  · exact Json.writable_null

/-- The number is read from the text that is written for it. -/
def ReadsBack (x : Binary64) : Prop := (Json.read? x.toJson.write).bind ofJson? = some x

theorem readsBack_iff {x : Binary64} : x.ReadsBack ↔ ofJson? x.toJson = some x := by
  rw [ReadsBack, Json.read?_write x.writable_toJson, Option.bind_some]

/-- For a number that is not finite null is written, from which no number is read. -/
theorem ofJson?_toJson_eq_none {x : Binary64} (h : x.isFinite = false) : ofJson? x.toJson = none := by
  rw [toJson, numeral?, if_pos (by simp [h])]
  rfl

theorem isFinite_of_ofJson? {json : Json} {x : Binary64} (h : ofJson? json = some x) :
    x.isFinite := by
  cases json with
  | num n =>
    rw [ofJson?, ofNumeral?] at h
    obtain ⟨hfinite, hx⟩ := Option.ite_none_right_eq_some.1 h
    exact Option.some.inj hx ▸ hfinite
  | _ => cases h

end Binary64

/-! ### Nodes -/

namespace Node

/-- Handles and positions are numbers that a text may give. -/
structure InRange (node : Node) : Prop where
  children : ∀ c ∈ node.children, c.pos < handleBound
  indices : ∀ i ∈ node.shape.indices, i.pos < handleBound
  transpose : ∀ r positions, node = .recipe r → r.transpose = some positions →
    ∀ k ∈ positions, k < sizeBound

theorem loopOfJson?_object {build : List Index → NodeId → Node} {is : List Index} {body : NodeId}
    (his : ∀ i ∈ is, i.pos < handleBound) (hbody : body.pos < handleBound) :
    loopOfJson? build (.object [("indices", Index.listToJson is), ("body", body.toJson)]) =
      some (build is body) := by
  simp [loopOfJson?, Json.record?_object, Index.listOfJson?_listToJson his,
    NodeId.ofJson?_toJson hbody]

theorem letOfJson?_object {bindings : List Binding} {body : NodeId}
    (hbindings : ∀ b ∈ bindings, b.value.pos < handleBound) (hbody : body.pos < handleBound) :
    letOfJson? (.object [("bindings", .arr (bindings.map Binding.toJson)), ("body", body.toJson)]) =
      some (letIn bindings body) := by
  have hlist : (Json.arr (bindings.map Binding.toJson)).asList? Binding.ofJson? = some bindings :=
    Json.asList?_map fun b hb => Binding.ofJson?_toJson (hbindings b hb)
  simp [letOfJson?, Json.record?_object, hlist, NodeId.ofJson?_toJson hbody]

theorem applyOfJson?_object {how : Application} {head : NodeId} {args : List NodeId}
    (hhead : head.pos < handleBound) (hargs : ∀ c ∈ args, c.pos < handleBound) :
    applyOfJson? how (.object ((applyMembers how).zip [head.toJson, NodeId.listToJson args])) =
      some (apply how head args) := by
  cases how <;>
    simp [applyOfJson?, applyMembers, Json.record?_object, NodeId.ofJson?_toJson hhead,
      NodeId.listOfJson?_listToJson hargs]

theorem deltaOfJson?_listToJson {left right : NodeId} (hleft : left.pos < handleBound)
    (hright : right.pos < handleBound) :
    deltaOfJson? (NodeId.listToJson [left, right]) = some (delta left right) := by
  simp [deltaOfJson?, NodeId.listToJson, NodeId.ofJson?_toJson hleft, NodeId.ofJson?_toJson hright]

theorem ofJson?_toJson {node : Node} (h : node.InRange)
    (hconstant : ∀ x, node = .constant x → x.ReadsBack) : ofJson? node.toJson = some node := by
  obtain ⟨hchildren, hindices, htranspose⟩ := h
  cases node with
  | recipe r =>
    show (Recipe.ofJson? r.toJson).map recipe = _
    rw [Recipe.ofJson?_toJson hindices (hchildren _ (by simp [children]))
      (htranspose r · rfl)]
    rfl
  | forAll is body => exact loopOfJson?_object hindices (hchildren _ (by simp [children]))
  | indexSum is body => exact loopOfJson?_object hindices (hchildren _ (by simp [children]))
  | letIn bindings body =>
    refine letOfJson?_object (fun b hb => hchildren _ ?_) (hchildren _ (by simp [children]))
    exact List.mem_append_left _ (List.mem_map_of_mem hb)
  | var name => rfl
  | index i =>
    show (Index.ofJson? i.toJson).map index = _
    rw [Index.ofJson?_toJson (hindices i (by simp [shape, Shape.indices]))]
    rfl
  | constant x =>
    show (Binary64.ofJson? x.toJson).map constant = _
    rw [Binary64.readsBack_iff.1 (hconstant x rfl)]
    rfl
  | operator op operands =>
    have hlist : NodeId.listOfJson? (NodeId.listToJson operands) = some operands :=
      NodeId.listOfJson?_listToJson hchildren
    have hvariant : ofJson? (operator op operands).toJson =
        (NodeId.listOfJson? (NodeId.listToJson operands)).map (operator op) := by
      cases op <;> rfl
    rw [hvariant, hlist]
    rfl
  | unary op operand =>
    have hvariant : ofJson? (unary op operand).toJson =
        (NodeId.ofJson? operand.toJson).map (unary op) := by
      cases op <;> rfl
    rw [hvariant, NodeId.ofJson?_toJson (hchildren _ (by simp [children]))]
    rfl
  | apply how head args =>
    have hobject : applyOfJson? how
        (.object ((applyMembers how).zip [head.toJson, NodeId.listToJson args])) =
          some (apply how head args) :=
      applyOfJson?_object (hchildren head (by simp [children]))
        fun c hc => hchildren c (List.mem_cons_of_mem head hc)
    cases how <;> exact hobject
  | delta left right =>
    exact deltaOfJson?_listToJson (hchildren left (by simp [children]))
      (hchildren right (by simp [children]))

/-- No node is read from what is written for a constant that is not finite. -/
theorem ofJson?_toJson_constant {x : Binary64} (h : x.isFinite = false) :
    ofJson? (constant x).toJson = none := by
  show (Binary64.ofJson? x.toJson).map constant = _
  rw [Binary64.ofJson?_toJson_eq_none h]
  rfl

theorem writable_variantToJson {name : String} {payload : Json} (h : payload.Writable) :
    (variantToJson name payload).Writable :=
  Json.writable_object (by simpa using h)

theorem writable_toJson (node : Node) : node.toJson.Writable := by
  have hid : ∀ id : NodeId, id.toJson.Writable := fun _ => Json.writable_nat _
  cases node with
  | recipe r => exact writable_variantToJson r.writable_toJson
  | forAll is body =>
    exact writable_variantToJson (Json.writable_object (by simp [Index.writable_listToJson, hid]))
  | indexSum is body =>
    exact writable_variantToJson (Json.writable_object (by simp [Index.writable_listToJson, hid]))
  | letIn bindings body =>
    have hbindings : (Json.arr (bindings.map Binding.toJson)).Writable := by
      refine Json.writable_arr fun j hj => ?_
      obtain ⟨b, -, rfl⟩ := List.mem_map.1 hj
      exact b.writable_toJson
    exact writable_variantToJson (Json.writable_object (by simp [hbindings, hid]))
  | var name => exact writable_variantToJson (Json.writable_text name)
  | index i => exact writable_variantToJson (Json.writable_nat _)
  | constant x => exact writable_variantToJson x.writable_toJson
  | operator op operands => exact writable_variantToJson (NodeId.writable_listToJson operands)
  | unary op operand => exact writable_variantToJson (hid operand)
  | apply how head args =>
    refine writable_variantToJson (Json.writable_object ?_)
    cases how <;> simp [applyMembers, hid, NodeId.writable_listToJson]
  | delta left right => exact writable_variantToJson (NodeId.writable_listToJson _)

theorem exists_of_loopOfJson? {build : List Index → NodeId → Node} {json : Json} {node : Node}
    (h : loopOfJson? build json = some node) : ∃ is body, node = build is body := by
  obtain ⟨members, -, h⟩ := Option.bind_eq_some_iff.1 h
  split at h
  · obtain ⟨is, -, h⟩ := Option.bind_eq_some_iff.1 h
    obtain ⟨body, -, h⟩ := Option.bind_eq_some_iff.1 h
    exact ⟨is, body, (Option.some.inj h).symm⟩
  · cases h

theorem exists_of_letOfJson? {json : Json} {node : Node} (h : letOfJson? json = some node) :
    ∃ bindings body, node = letIn bindings body := by
  obtain ⟨members, -, h⟩ := Option.bind_eq_some_iff.1 h
  split at h
  · obtain ⟨bindings, -, h⟩ := Option.bind_eq_some_iff.1 h
    obtain ⟨body, -, h⟩ := Option.bind_eq_some_iff.1 h
    exact ⟨bindings, body, (Option.some.inj h).symm⟩
  · cases h

theorem exists_of_applyOfJson? {how : Application} {json : Json} {node : Node}
    (h : applyOfJson? how json = some node) : ∃ head args, node = apply how head args := by
  obtain ⟨members, -, h⟩ := Option.bind_eq_some_iff.1 h
  split at h
  · obtain ⟨head, -, h⟩ := Option.bind_eq_some_iff.1 h
    obtain ⟨args, -, h⟩ := Option.bind_eq_some_iff.1 h
    exact ⟨head, args, (Option.some.inj h).symm⟩
  · cases h

theorem exists_of_deltaOfJson? {json : Json} {node : Node} (h : deltaOfJson? json = some node) :
    ∃ left right, node = delta left right := by
  unfold deltaOfJson? at h
  split at h
  · obtain ⟨left, -, h⟩ := Option.bind_eq_some_iff.1 h
    obtain ⟨right, -, h⟩ := Option.bind_eq_some_iff.1 h
    exact ⟨left, right, (Option.some.inj h).symm⟩
  · cases h

theorem isFinite_of_ofJson? {json : Json} {x : Binary64} (h : ofJson? json = some (.constant x)) :
    x.isFinite := by
  rw [ofJson?] at h
  split at h
  · next name payload _ =>
    unfold ofVariant? at h
    split at h
    case h_7 =>
      obtain ⟨y, hy, heq⟩ := Option.map_eq_some_iff.1 h
      cases heq
      exact Binary64.isFinite_of_ofJson? hy
    case h_2 | h_3 =>
      obtain ⟨_, _, heq⟩ := exists_of_loopOfJson? h
      cases heq
    case h_4 =>
      obtain ⟨_, _, heq⟩ := exists_of_letOfJson? h
      cases heq
    case h_10 | h_11 =>
      obtain ⟨_, _, heq⟩ := exists_of_applyOfJson? h
      cases heq
    case h_12 =>
      obtain ⟨_, _, heq⟩ := exists_of_deltaOfJson? h
      cases heq
    -- the other variants carry one value, or are unknown
    all_goals simp at h
  · cases h

end Node

/-! ### Whole arenas -/

namespace Arena

/-- All numbers in the tables are such that a text may give them. -/
structure InRange (a : Arena) : Prop where
  nodes : ∀ node ∈ a.nodes, node.InRange
  indices : ∀ info ∈ a.indices, info.InRange

variable {a b : Arena}

theorem writable_toJson (a : Arena) : a.toJson.Writable := by
  have hnodes : (Json.arr (a.nodes.toList.map Node.toJson)).Writable := by
    refine Json.writable_arr fun j hj => ?_
    obtain ⟨node, -, rfl⟩ := List.mem_map.1 hj
    exact node.writable_toJson
  have hindices : (Json.arr (a.indices.toList.map IndexInfo.toJson)).Writable := by
    refine Json.writable_arr fun j hj => ?_
    obtain ⟨info, -, rfl⟩ := List.mem_map.1 hj
    exact info.writable_toJson
  exact Json.writable_object (by simp [hnodes, hindices])

theorem ofJson?_toJson (h : a.InRange) (hconstant : ∀ x, .constant x ∈ a.nodes → x.ReadsBack) :
    ofJson? a.toJson = some a := by
  have hnodes : (Json.arr (a.nodes.toList.map Node.toJson)).asList? Node.ofJson? =
      some a.nodes.toList := by
    refine Json.asList?_map fun node hnode => Node.ofJson?_toJson ?_ ?_
    · exact h.nodes node (by simpa using hnode)
    · rintro x rfl
      exact hconstant x (by simpa using hnode)
  have hindices : (Json.arr (a.indices.toList.map IndexInfo.toJson)).asList? IndexInfo.ofJson? =
      some a.indices.toList :=
    Json.asList?_map fun info hinfo => IndexInfo.ofJson?_toJson (h.indices info (by simpa using hinfo))
  simp [ofJson?, toJson, Json.record?_object, hnodes, hindices]

/-- No arena is read where some constant is not finite. -/
theorem ofJson?_toJson_eq_none {x : Binary64} (hx : .constant x ∈ a.nodes)
    (hinfinite : x.isFinite = false) : ofJson? a.toJson = none := by
  have hnodes : (Json.arr (a.nodes.toList.map Node.toJson)).asList? Node.ofJson? = none :=
    Json.asList?_map_eq_none
      ⟨.constant x, by simpa using hx, Node.ofJson?_toJson_constant hinfinite⟩
  simp [ofJson?, toJson, Json.record?_object, hnodes]

theorem isFinite_of_ofJson? {json : Json} (h : ofJson? json = some b) :
    ∀ x, .constant x ∈ b.nodes → x.isFinite := by
  obtain ⟨members, -, h⟩ := Option.bind_eq_some_iff.1 h
  split at h
  · obtain ⟨nodes, hnodes, h⟩ := Option.bind_eq_some_iff.1 h
    obtain ⟨indices, -, h⟩ := Option.bind_eq_some_iff.1 h
    obtain rfl := Option.some.inj h
    intro x hx
    obtain ⟨item, hitem⟩ := Json.mem_of_asList? hnodes (.constant x) (by simpa using hx)
    exact Node.isFinite_of_ofJson? hitem
  · cases h

/-- An arena survives JSON exactly when its constants are finite, if those that are finite do. -/
theorem read?_write_of_readsBack (hrange : a.InRange)
    (hback : ∀ x, .constant x ∈ a.nodes → x.isFinite → x.ReadsBack) :
    ((∀ x, .constant x ∈ a.nodes → x.isFinite) → read? a.write = some a) ∧
      ((∃ x, .constant x ∈ a.nodes ∧ ¬ x.isFinite) →
        (Json.read? a.write).isSome ∧ read? a.write = none) ∧
      ∀ text b, read? text = some b → ∀ x, .constant x ∈ b.nodes → x.isFinite := by
  have hread : read? a.write = ofJson? a.toJson := by
    rw [read?, write, Json.read?_write a.writable_toJson]
    rfl
  refine ⟨fun hfinite => ?_, ?_, ?_⟩
  · rw [hread]
    exact ofJson?_toJson hrange fun x hx => hback x hx (hfinite x hx)
  · rintro ⟨x, hx, hinfinite⟩
    rw [hread, write, Json.read?_write a.writable_toJson]
    exact ⟨rfl, ofJson?_toJson_eq_none hx (by simpa using hinfinite)⟩
  · intro text b htext x hx
    obtain ⟨json, -, hjson⟩ := Option.bind_eq_some_iff.1 htext
    exact isFinite_of_ofJson? hjson x hx

/-- A constant, a name that is escaped, and a sum over a node that is not there. -/
def oneConstant (x : Binary64) : Arena where
  nodes := #[.constant x, .var "\"u\n", .operator .sum [⟨0⟩, ⟨1⟩, ⟨7⟩]]
  indices := #[⟨"i", 2, .free, [⟨0⟩]⟩]

theorem inRange_oneConstant (x : Binary64) : (oneConstant x).InRange := by
  have hzero : 0 < handleBound := by decide
  have hone : 1 < handleBound := by decide
  have hseven : 7 < handleBound := by decide
  have htwo : 2 < sizeBound := by decide
  refine ⟨?_, ?_⟩
  · simp only [oneConstant, List.mem_toArray, List.forall_mem_cons, List.not_mem_nil, false_implies,
      implies_true, and_true]
    refine ⟨⟨?_, ?_, nofun⟩, ⟨?_, ?_, nofun⟩, ⟨?_, ?_, nofun⟩⟩
    all_goals simp [Node.children, Node.shape, Shape.indices, hzero, hone, hseven]
  · simp only [oneConstant, List.mem_toArray, List.mem_singleton, forall_eq]
    exact ⟨htwo, by simpa using hzero⟩

/-- Ten to the sixteenth survives, and infinity does not. -/
theorem read?_write_oneConstant :
    read? (oneConstant ⟨4846369599423283200⟩).write = some (oneConstant ⟨4846369599423283200⟩) ∧
      read? (oneConstant ⟨9218868437227405312⟩).write = none := by
  have hfinite : (⟨4846369599423283200⟩ : Binary64).isFinite := by decide +kernel
  have hinfinite : ¬ (⟨9218868437227405312⟩ : Binary64).isFinite := by decide +kernel
  have hmem : ∀ {x y : Binary64}, .constant x ∈ (oneConstant y).nodes → x = y := by
    simp [oneConstant]
  have hback : (⟨4846369599423283200⟩ : Binary64).ReadsBack :=
    Binary64.readsBack_iff.2 (by decide +kernel)
  obtain ⟨hread, -, -⟩ := read?_write_of_readsBack
    (inRange_oneConstant ⟨4846369599423283200⟩) fun x hx _ => hmem hx ▸ hback
  obtain ⟨-, hrefused, -⟩ := read?_write_of_readsBack
    (inRange_oneConstant ⟨9218868437227405312⟩) fun x hx h => absurd (hmem hx ▸ h) hinfinite
  exact ⟨hread fun x hx => hmem hx ▸ hfinite, (hrefused ⟨_, by simp [oneConstant], hinfinite⟩).2⟩

end Arena

end TensorRecipe
