import TensorRecipe.Proofs.Binary64.Reading
import TensorRecipe.Proofs.Json.Arenas
import TensorRecipe.Proofs.Json.Schemas

/-!
# Wordings of arenas

Every record of an arena may be put as an object or as an array, and a role with or without the null
that it carries: `Arena.schema` lists the places.  The decoders respect it, one type after another.

Main statement: what is read from a text of an arena depends on what the text says alone, and a text
that is broken in one place is refused (`Arena.read?_of_rewords`).
-/

namespace TensorRecipe

open Json

/-! ### Indices -/

theorem IndexRole.respects_ofJson? : Respects IndexRole.ofJson? .name := by
  refine ⟨?_, ?_⟩
  · rintro _ _ ⟨name⟩
    rfl
  · rintro _ ⟨hsize⟩
    rw [IndexRole.ofJson?, variant?_eq_none hsize]

namespace IndexInfo

def schema : Schema :=
  .record [⟨"name", .leaf, false⟩, ⟨"extent", .leaf, false⟩, ⟨"kind", .name, false⟩,
    ⟨"factors", .leaf, false⟩]

theorem respects_ofJson? : Respects ofJson? schema := by
  refine (respects_record ?_ <|
    respects_thenMembers (respects_required (respects_leaf asText?) "name") fun name =>
    respects_thenMembers (respects_required (respects_leaf (asNat? sizeBound)) "extent") fun extent =>
    respects_thenMembers (respects_required IndexRole.respects_ofJson? "kind") fun role =>
    respects_thenMembers (respects_required (respects_leaf Index.listOfJson?) "factors") fun factors =>
    respects_noMembers (IndexInfo.mk name extent role factors)).congr fun json => ?_
  · simp
  · refine congrArg (Option.bind _) (funext fun found => ?_)
    rcases found with _ | ⟨_ | name, _ | ⟨_ | extent, _ | ⟨_ | role, _ | ⟨_ | factors, _ | rest⟩⟩⟩⟩ <;>
      simp [thenMembers, noMembers]

end IndexInfo

namespace IndexDeclaration

def schema : Schema :=
  .record [⟨"domain", .leaf, false⟩, ⟨"basis", .leaf, false⟩, ⟨"point", .leaf, false⟩]

theorem respects_ofJson? : Respects ofJson? schema := by
  have hindices : Respects Index.listOfJson? .leaf := respects_leaf _
  refine (respects_record ?_ <|
    respects_thenMembers (respects_required hindices "domain") fun domain =>
    respects_thenMembers (respects_required hindices "basis") fun basis =>
    respects_thenMembers (respects_required hindices "point") fun point =>
    respects_noMembers (IndexDeclaration.mk domain basis point)).congr fun json => ?_
  · simp
  · refine congrArg (Option.bind _) (funext fun found => ?_)
    rcases found with _ | ⟨_ | domain, _ | ⟨_ | basis, _ | ⟨_ | point, _ | rest⟩⟩⟩ <;>
      simp [thenMembers, noMembers]

end IndexDeclaration

/-! ### Nodes -/

namespace Recipe

def schema : Schema :=
  .record [⟨"indices", IndexDeclaration.schema, false⟩, ⟨"body", .leaf, false⟩,
    ⟨"transpose", .leaf, true⟩]

theorem respects_ofJson? : Respects ofJson? schema := by
  refine (respects_record ?_ <|
    respects_thenMembers (respects_required IndexDeclaration.respects_ofJson? "indices") fun indices =>
    respects_thenMembers (respects_required (respects_leaf NodeId.ofJson?) "body") fun body =>
    respects_thenMembers (respects_optional (respects_leaf transposeOfJson?) "transpose") fun transpose =>
    respects_noMembers (Recipe.mk indices body transpose)).congr fun json => ?_
  · simp
  · refine congrArg (Option.bind _) (funext fun found => ?_)
    rcases found with _ | ⟨_ | indices, _ | ⟨_ | body, _ | ⟨transpose, _ | rest⟩⟩⟩ <;>
      simp [thenMembers, noMembers]

end Recipe

namespace Binding

def schema : Schema := .record [⟨"name", .leaf, false⟩, ⟨"value", .leaf, false⟩]

theorem respects_ofJson? : Respects ofJson? schema := by
  refine respects_pair (by decide) (respects_leaf asText?) (respects_leaf NodeId.ofJson?) Binding.mk
    fun found => ?_
  rcases found with _ | ⟨_ | name, _ | ⟨_ | value, _ | rest⟩⟩ <;> simp [thenMembers, noMembers]

end Binding

namespace Node

/-- The schema of a loop over indices. -/
def loopSchema : Schema := .record [⟨"indices", .leaf, false⟩, ⟨"body", .leaf, false⟩]

theorem respects_loopOfJson? (build : List Index → NodeId → Node) :
    Respects (loopOfJson? build) loopSchema := by
  refine respects_pair (by decide) (respects_leaf Index.listOfJson?) (respects_leaf NodeId.ofJson?)
    build fun found => ?_
  rcases found with _ | ⟨_ | indices, _ | ⟨_ | body, _ | rest⟩⟩ <;> simp [thenMembers, noMembers]

/-- The schema of a let. -/
def letSchema : Schema :=
  .record [⟨"bindings", .list Binding.schema, false⟩, ⟨"body", .leaf, false⟩]

theorem respects_letOfJson? : Respects letOfJson? letSchema := by
  refine respects_pair (by decide) (respects_list Binding.respects_ofJson?)
    (respects_leaf NodeId.ofJson?) letIn fun found => ?_
  rcases found with _ | ⟨_ | bindings, _ | ⟨_ | body, _ | rest⟩⟩ <;> simp [thenMembers, noMembers]

/-- The schema of an application. -/
def applySchema (how : Application) : Schema :=
  .record ((applyMembers how).map fun name => ⟨name, .leaf, false⟩)

theorem respects_applyOfJson? (how : Application) : Respects (applyOfJson? how) (applySchema how) := by
  have hids : Respects NodeId.ofJson? .leaf := respects_leaf _
  have hlists : Respects NodeId.listOfJson? .leaf := respects_leaf _
  cases how with
  | subscript =>
    refine respects_pair (by decide) hids hlists (apply .subscript) fun found => ?_
    rcases found with _ | ⟨_ | head, _ | ⟨_ | args, _ | rest⟩⟩ <;> simp [thenMembers, noMembers]
  | call =>
    refine respects_pair (by decide) hids hlists (apply .call) fun found => ?_
    rcases found with _ | ⟨_ | head, _ | ⟨_ | args, _ | rest⟩⟩ <;> simp [thenMembers, noMembers]

/-- The schema of a node; the other variants carry no records. -/
def schema : Schema :=
  .variant [("Recipe", Recipe.schema), ("ForAll", loopSchema), ("IndexSum", loopSchema),
    ("Let", letSchema), ("Subscript", applySchema .subscript), ("Call", applySchema .call)]

theorem respects_ofJson? : Respects ofJson? schema := by
  have hcases : ∀ entry ∈ [("Recipe", Recipe.schema), ("ForAll", loopSchema),
      ("IndexSum", loopSchema), ("Let", letSchema), ("Subscript", applySchema .subscript),
      ("Call", applySchema .call)], Respects (ofVariant? entry.1) entry.2 := by
    simp only [List.forall_mem_cons, List.not_mem_nil, false_implies, implies_true, and_true]
    exact ⟨Recipe.respects_ofJson?.map recipe, respects_loopOfJson? forAll,
      respects_loopOfJson? indexSum, respects_letOfJson?, respects_applyOfJson? .subscript,
      respects_applyOfJson? .call⟩
  refine (respects_variant hcases).congr fun json => ?_
  rw [ofJson?]
  rcases json.variant? with _ | ⟨name, _ | payload⟩ <;> rfl

end Node

/-! ### Arenas -/

namespace Arena

def schema : Schema :=
  .record [⟨"exprs", .list Node.schema, false⟩, ⟨"indices", .list IndexInfo.schema, false⟩]

theorem respects_ofJson? : Respects ofJson? schema := by
  refine respects_pair (by decide) (respects_list Node.respects_ofJson?)
    (respects_list IndexInfo.respects_ofJson?)
    (fun nodes indices => Arena.mk nodes.toArray indices.toArray) fun found => ?_
  rcases found with _ | ⟨_ | nodes, _ | ⟨_ | indices, _ | rest⟩⟩ <;> simp [thenMembers, noMembers]

/-! ### Texts -/

end Arena

theorem Node.isSome_ofJson?_toJson {node : Node} (h : node.InRange)
    (hfinite : ∀ x, node = .constant x → x.isFinite) : (ofJson? node.toJson).isSome := by
  by_cases hconstant : ∃ x, node = .constant x
  · obtain ⟨x, rfl⟩ := hconstant
    show ((Binary64.ofJson? x.toJson).map constant).isSome
    rw [Option.isSome_map]
    exact Binary64.isSome_ofJson?_toJson (hfinite x rfl)
  · rw [ofJson?_toJson h fun x hx => absurd ⟨x, hx⟩ hconstant]
    rfl

namespace Arena

theorem isSome_ofJson?_toJson {a : Arena} (hrange : a.InRange)
    (hfinite : ∀ x, .constant x ∈ a.nodes → x.isFinite) : (ofJson? a.toJson).isSome := by
  have hnodes : ((Json.arr (a.nodes.toList.map Node.toJson)).asList? Node.ofJson?).isSome := by
    refine isSome_mapM fun json hjson => ?_
    obtain ⟨node, hnode, rfl⟩ := List.mem_map.1 hjson
    have hmem : node ∈ a.nodes := by simpa using hnode
    exact Node.isSome_ofJson?_toJson (hrange.nodes node hmem) fun x hx => hfinite x (hx ▸ hmem)
  have hindices : (Json.arr (a.indices.toList.map IndexInfo.toJson)).asList? IndexInfo.ofJson? =
      some a.indices.toList :=
    asList?_map fun info hinfo => IndexInfo.ofJson?_toJson (hrange.indices info (by simpa using hinfo))
  obtain ⟨nodes, hnodes⟩ := Option.isSome_iff_exists.1 hnodes
  simp [ofJson?, toJson, record?_object, hnodes, hindices]

/-- Reading an arena depends on what a text says alone: however often its JSON value is reworded and
however that is written, the same arena is read, and none from a value that is broken. -/
theorem read?_of_rewords {a : Arena} (hrange : a.InRange)
    (hfinite : ∀ x, .constant x ∈ a.nodes → x.isFinite) :
    ∃ b, read? a.write = some b ∧
      (∀ json text, Relation.ReflTransGen schema.Rewords a.toJson json → json.IsWritten text →
        read? text = some b) ∧
      ∀ json text, schema.Broken json → json.IsWritten text → read? text = none := by
  obtain ⟨b, hb⟩ := Option.isSome_iff_exists.1 (isSome_ofJson?_toJson hrange hfinite)
  have hread : ∀ {json : Json} {text : String}, json.IsWritten text → read? text = ofJson? json :=
    fun htext => by rw [read?, htext.read?_eq]; rfl
  refine ⟨b, ?_, ?_, ?_⟩
  · rw [write, hread (isWritten_write a.writable_toJson), hb]
  · intro json text hrewords htext
    rw [hread htext, respects_ofJson?.of_reflTransGen hrewords, hb]
  · intro json text hbroken htext
    rw [hread htext, respects_ofJson?.broken hbroken]

/-- The tables of `oneConstant` in an array; its index has a member that nobody knows, and its role in
an object. -/
def oneConstantReworded (x : Binary64) : Json :=
  .arr [.arr ((oneConstant x).nodes.toList.map Node.toJson),
    .arr [.object [("unknown", .arr [.null]), ("name", .text "i"), ("extent", .nat 2),
      ("kind", .object [("Free", .null)]), ("factors", Index.listToJson [⟨0⟩])]]]

theorem rewords_oneConstant (x : Binary64) :
    Relation.ReflTransGen schema.Rewords (oneConstant x).toJson (oneConstantReworded x) := by
  have hindex : ∀ {info info' : Json}, IndexInfo.schema.Rewords info info' →
      schema.Rewords (.arr [.arr ((oneConstant x).nodes.toList.map Node.toJson), .arr [info]])
        (.arr [.arr ((oneConstant x).nodes.toList.map Node.toJson), .arr [info']]) :=
    fun h => @RecordRewords.place _ [⟨"exprs", .list Node.schema, false⟩] []
      [.arr ((oneConstant x).nodes.toList.map Node.toJson)] [] _ _ _ rfl rfl
      (@ListRewords.item _ [] [] _ _ h)
  have harray := @RecordRewords.array
    [⟨"exprs", .list Node.schema, false⟩, ⟨"indices", .list IndexInfo.schema, false⟩]
    [.arr ((oneConstant x).nodes.toList.map Node.toJson),
      .arr ((oneConstant x).indices.toList.map IndexInfo.toJson)] rfl
  have hrole : NameRewords IndexRole.free.toJson (.object [("Free", .null)]) := .object "Free"
  have hkind := @RecordRewords.member
    [⟨"name", .leaf, false⟩, ⟨"extent", .leaf, false⟩, ⟨"kind", .name, false⟩, ⟨"factors", .leaf, false⟩]
    [("name", .text "i"), ("extent", .nat 2)] [("factors", Index.listToJson [⟨0⟩])]
    ⟨"kind", .name, false⟩ _ _ (by simp) hrole
  refine ((Relation.ReflTransGen.single harray).tail (hindex hkind)).tail (hindex ?_)
  exact .insert (.arr [.null]) (by simp)

/-- A text of it with white space in front is read as the text that is written for it, and the table
of nodes alone is refused. -/
theorem read?_oneConstantReworded :
    ∃ b, read? (oneConstant ⟨4846369599423283200⟩).write = some b ∧
      read? (String.ofList (' ' :: (oneConstantReworded ⟨4846369599423283200⟩).write.toList)) = some b ∧
      read? (Json.arr [.arr []]).write = none := by
  have hfinite : (⟨4846369599423283200⟩ : Binary64).isFinite := by decide +kernel
  obtain ⟨b, hb, hreworded, hbroken⟩ := read?_of_rewords
    (inRange_oneConstant ⟨4846369599423283200⟩) fun x hx => by
      obtain rfl : x = ⟨4846369599423283200⟩ := by simpa [oneConstant] using hx
      exact hfinite
  have hshort : schema.Broken (.arr [.arr []]) := RecordBroken.length (by simp)
  refine ⟨b, hb, hreworded _ _ (rewords_oneConstant _) (IsWritten.cons_blank ?_ rfl),
    hbroken _ _ hshort (isWritten_write (writable_arr (by simp [writable_arr])))⟩
  refine isWritten_write (writable_arr ?_)
  have hnodes : (Json.arr ((oneConstant ⟨4846369599423283200⟩).nodes.toList.map Node.toJson)).Writable := by
    refine writable_arr fun json hjson => ?_
    obtain ⟨node, -, rfl⟩ := List.mem_map.1 hjson
    exact node.writable_toJson
  have hindex : (Json.object [("unknown", .arr [.null]), ("name", .text "i"), ("extent", .nat 2),
      ("kind", .object [("Free", .null)]), ("factors", Index.listToJson [⟨0⟩])]).Writable := by
    refine writable_object ?_
    simp [writable_arr, writable_null, writable_text, writable_nat, writable_object,
      Index.writable_listToJson]
  simpa [hnodes] using writable_arr (by simpa using hindex)

end Arena

end TensorRecipe
