import TensorRecipe.Proofs.Json.Decoding
import TensorRecipe.Proofs.Tree.Indices

/-!
# Schemas of JSON values

A value can be put in several ways: a record as an object, with its members in any order and others
among them, or as the array of its members; a name as an object that holds null under it.  A `Schema`
says which changes at one place of a value keep what it says, and which values are broken at some
place.  A decoder that `Respects` a schema reads what it read before such a change, and refuses what is
broken.  Decoders of lists, variants and records respect their schemas if those of their parts do
(`respects_list`, `respects_variant`, `respects_record`).
-/

namespace TensorRecipe

namespace Json

/-- What values of one kind say, whichever way they are put. -/
structure Schema where
  /-- The second value is the first with one place put another way. -/
  Rewords : Json → Json → Prop
  /-- Some place of the value is put in no way at all. -/
  Broken : Json → Prop

/-- A member of a record. -/
structure Field where
  name : String
  schema : Schema
  /-- An object may leave the member out where it is null. -/
  optional : Bool

/-! ### Kinds of schemas -/

/-- There is one way to put the value, as far as this schema goes. -/
def Schema.leaf : Schema := ⟨fun _ _ => False, fun _ => False⟩

/-- A name may stand for itself, or hold null in an object. -/
inductive NameRewords : Json → Json → Prop where
  | object (name : String) : NameRewords (.text name) (.object [(name, .null)])

/-- An object with another member than the name. -/
inductive NameBroken : Json → Prop where
  | size {members : List (String × Json)} (h : members.length ≠ 1) : NameBroken (.object members)

/-- The schema of a variant that carries nothing. -/
def Schema.name : Schema := ⟨NameRewords, NameBroken⟩

/-- One item is put another way. -/
inductive ListRewords (item : Schema) : Json → Json → Prop where
  | item {before after : List Json} {json json' : Json} (h : item.Rewords json json') :
    ListRewords item (.arr (before ++ json :: after)) (.arr (before ++ json' :: after))

/-- One item is broken. -/
inductive ListBroken (item : Schema) : Json → Prop where
  | item {items : List Json} {json : Json} (hmem : json ∈ items) (h : item.Broken json) :
    ListBroken item (.arr items)

/-- The schema of lists of items. -/
def Schema.list (item : Schema) : Schema := ⟨ListRewords item, ListBroken item⟩

/-- What the variant carries is put another way. -/
inductive VariantRewords (cases : List (String × Schema)) : Json → Json → Prop where
  | payload {name : String} {schema : Schema} {json json' : Json} (hmem : (name, schema) ∈ cases)
    (h : schema.Rewords json json') :
    VariantRewords cases (.object [(name, json)]) (.object [(name, json')])

/-- What the variant carries is broken, or the object has another member besides it. -/
inductive VariantBroken (cases : List (String × Schema)) : Json → Prop where
  | payload {name : String} {schema : Schema} {json : Json} (hmem : (name, schema) ∈ cases)
    (h : schema.Broken json) : VariantBroken cases (.object [(name, json)])
  | size {members : List (String × Json)} (h : members.length ≠ 1) :
    VariantBroken cases (.object members)

/-- The schema of variants, of which those listed carry something with a schema of its own. -/
def Schema.variant (cases : List (String × Schema)) : Schema :=
  ⟨VariantRewords cases, VariantBroken cases⟩

/-- A record is put another way, or one of its members is. -/
inductive RecordRewords (fields : List Field) : Json → Json → Prop where
  /-- The members stand in another order. -/
  | reorder {members members' : List (String × Json)} (h : members.Perm members') :
    RecordRewords fields (.object members) (.object members')
  /-- A member is added that the record does not know. -/
  | insert {members : List (String × Json)} {name : String} (json : Json)
    (h : name ∉ fields.map Field.name) :
    RecordRewords fields (.object members) (.object ((name, json) :: members))
  /-- A member is left out that may be null and is. -/
  | leaveOut {members : List (String × Json)} {field : Field} (hmem : field ∈ fields)
    (h : field.optional) (honce : field.name ∉ members.map Prod.fst) :
    RecordRewords fields (.object ((field.name, .null) :: members)) (.object members)
  /-- The members stand in an array, in the order in which they are declared. -/
  | array {values : List Json} (h : values.length = fields.length) :
    RecordRewords fields (.object ((fields.map Field.name).zip values)) (.arr values)
  /-- A member of an object is put another way. -/
  | member {before after : List (String × Json)} {field : Field} {json json' : Json}
    (hmem : field ∈ fields) (h : field.schema.Rewords json json') :
    RecordRewords fields (.object (before ++ (field.name, json) :: after))
      (.object (before ++ (field.name, json') :: after))
  /-- An item of an array is put another way. -/
  | place {fields₁ fields₂ : List Field} {before after : List Json} {field : Field}
    {json json' : Json} (hfields : fields = fields₁ ++ field :: fields₂)
    (hlength : before.length = fields₁.length) (h : field.schema.Rewords json json') :
    RecordRewords fields (.arr (before ++ json :: after)) (.arr (before ++ json' :: after))

/-- A record is put in no way at all, or one of its members is. -/
inductive RecordBroken (fields : List Field) : Json → Prop where
  /-- A member is missing that may not be left out. -/
  | missing {members : List (String × Json)} {field : Field} (hmem : field ∈ fields)
    (h : field.optional = false) (habsent : field.name ∉ members.map Prod.fst) :
    RecordBroken fields (.object members)
  /-- A member that the record knows is repeated. -/
  | repeated {members : List (String × Json)} {field : Field} (hmem : field ∈ fields)
    (h : 2 ≤ (members.map Prod.fst).count field.name) : RecordBroken fields (.object members)
  /-- An array has too few items, or too many. -/
  | length {items : List Json} (h : items.length ≠ fields.length) : RecordBroken fields (.arr items)
  /-- A member of an object is broken. -/
  | member {members : List (String × Json)} {field : Field} {json : Json} (hfield : field ∈ fields)
    (hmem : (field.name, json) ∈ members) (h : field.schema.Broken json) :
    RecordBroken fields (.object members)
  /-- An item of an array is broken. -/
  | place {items : List Json} {field : Field} {json : Json} (hmem : (field, json) ∈ fields.zip items)
    (h : field.schema.Broken json) : RecordBroken fields (.arr items)

/-- The schema of records. -/
def Schema.record (fields : List Field) : Schema := ⟨RecordRewords fields, RecordBroken fields⟩

/-! ### Decoders -/

/-- The decoder does not care how a value is put, and refuses what is broken. -/
structure Respects {α : Type} (decode? : Json → Option α) (schema : Schema) : Prop where
  rewords : ∀ {json json'}, schema.Rewords json json' → decode? json' = decode? json
  broken : ∀ {json}, schema.Broken json → decode? json = none

section

variable {α β : Type} {decode? : Json → Option α} {schema : Schema}

theorem respects_leaf (decode? : Json → Option α) : Respects decode? .leaf := ⟨nofun, nofun⟩

theorem Respects.congr (h : Respects decode? schema) {decode?' : Json → Option α}
    (heq : ∀ json, decode?' json = decode? json) : Respects decode?' schema :=
  ⟨fun hj => by rw [heq, heq, h.rewords hj], fun hj => by rw [heq, h.broken hj]⟩

theorem Respects.map (h : Respects decode? schema) (f : α → β) :
    Respects (fun json => (decode? json).map f) schema :=
  ⟨fun hj => by rw [h.rewords hj], fun hj => by rw [h.broken hj]; rfl⟩

theorem Respects.of_reflTransGen (h : Respects decode? schema) {json json' : Json}
    (hj : Relation.ReflTransGen schema.Rewords json json') : decode? json' = decode? json := by
  induction hj with
  | refl => rfl
  | tail _ hstep ih => rw [h.rewords hstep, ih]

theorem respects_list (h : Respects decode? schema) :
    Respects (fun json => json.asList? decode?) (.list schema) := by
  refine ⟨?_, ?_⟩
  · rintro _ _ ⟨hitem⟩
    simp only [asList?, List.mapM_append, List.mapM_cons, h.rewords hitem]
  · rintro _ ⟨hmem, hitem⟩
    exact mapM_eq_none ⟨_, hmem, h.broken hitem⟩

theorem variant?_eq_none {members : List (String × Json)} (h : members.length ≠ 1) :
    (Json.object members).variant? = none := by
  rcases members with _ | ⟨m, _ | ⟨n, members⟩⟩
  · rfl
  · exact absurd rfl h
  · rfl

/-- What the variants carry is decoded by name. -/
theorem respects_variant {cases : List (String × Schema)} {payload? : String → Json → Option α}
    (hcases : ∀ entry ∈ cases, Respects (payload? entry.1) entry.2) :
    Respects (fun json => json.variant?.bind fun v => v.2.bind (payload? v.1)) (.variant cases) := by
  refine ⟨?_, ?_⟩
  · rintro _ _ ⟨hmem, hpayload⟩
    exact (hcases _ hmem).rewords hpayload
  · rintro _ (⟨hmem, hpayload⟩ | hsize)
    · exact (hcases _ hmem).broken hpayload
    · rw [variant?_eq_none hsize]
      rfl

end

/-! ### Members of records -/

/-- What is found of a member, put another way or left out. -/
inductive MemberRewords (field : Field) : Option Json → Option Json → Prop where
  | value {json json' : Json} (h : field.schema.Rewords json json') :
    MemberRewords field (some json) (some json')
  | leaveOut (h : field.optional) : MemberRewords field (some .null) none

/-- What is found of a member is broken, or missing. -/
inductive MemberBroken (field : Field) : Option Json → Prop where
  | value {json : Json} (h : field.schema.Broken json) : MemberBroken field (some json)
  | missing (h : field.optional = false) : MemberBroken field none

/-- What is found of one of the members is put another way or left out. -/
inductive MembersReword : List Field → List (Option Json) → List (Option Json) → Prop where
  | here {field : Field} {fields : List Field} {found found' : Option Json}
    {rest : List (Option Json)} (h : MemberRewords field found found') :
    MembersReword (field :: fields) (found :: rest) (found' :: rest)
  | there {field : Field} {fields : List Field} {found : Option Json} {rest rest' : List (Option Json)}
    (h : MembersReword fields rest rest') :
    MembersReword (field :: fields) (found :: rest) (found :: rest')

/-- A decoder of one member does not care how it is put, and refuses what is broken. -/
structure RespectsMember {α : Type} (decode? : Option Json → Option α) (field : Field) : Prop where
  rewords : ∀ {found found'}, MemberRewords field found found' → decode? found' = decode? found
  broken : ∀ {found}, MemberBroken field found → decode? found = none

/-- A decoder of all members does not care how they are put, and refuses them if one is broken. -/
structure RespectsMembers {α : Type} (decode? : List (Option Json) → Option α) (fields : List Field) :
    Prop where
  rewords : ∀ {found found'}, MembersReword fields found found' → decode? found' = decode? found
  broken : ∀ {found}, (∃ p ∈ fields.zip found, MemberBroken p.1 p.2) → decode? found = none

section

variable {α β : Type}

theorem respects_required {decode? : Json → Option α} {schema : Schema} (h : Respects decode? schema)
    (name : String) : RespectsMember (·.bind decode?) ⟨name, schema, false⟩ := by
  refine ⟨?_, ?_⟩
  · rintro _ _ (hvalue | hoptional)
    · exact h.rewords hvalue
    · cases hoptional
  · rintro _ (hvalue | _)
    · exact h.broken hvalue
    · rfl

theorem respects_optional {decode? : Json → Option α} {schema : Schema} (h : Respects decode? schema)
    (name : String) : RespectsMember (fun found => decode? (found.getD .null)) ⟨name, schema, true⟩ := by
  refine ⟨?_, ?_⟩
  · rintro _ _ (hvalue | _)
    · exact h.rewords hvalue
    · rfl
  · rintro _ (hvalue | hrequired)
    · exact h.broken hvalue
    · cases hrequired

/-- There are no more members. -/
def noMembers (value : α) : List (Option Json) → Option α
  | [] => some value
  | _ => none

/-- One member is decoded, and then the others. -/
def thenMembers (decode? : Option Json → Option β) (rest? : β → List (Option Json) → Option α) :
    List (Option Json) → Option α
  | found :: rest => (decode? found).bind (rest? · rest)
  | [] => none

theorem respects_noMembers (value : α) : RespectsMembers (noMembers value) [] :=
  ⟨nofun, fun ⟨_, hp, _⟩ => by simp at hp⟩

theorem respects_thenMembers {decode? : Option Json → Option β} {field : Field}
    {rest? : β → List (Option Json) → Option α} {fields : List Field}
    (hfield : RespectsMember decode? field) (hrest : ∀ b, RespectsMembers (rest? b) fields) :
    RespectsMembers (thenMembers decode? rest?) (field :: fields) := by
  refine ⟨?_, ?_⟩
  · rintro _ _ (hfound | hothers)
    · rw [thenMembers, thenMembers, hfield.rewords hfound]
    · rw [thenMembers, thenMembers]
      congr 1
      exact funext fun b => (hrest b).rewords hothers
  · rintro (_ | ⟨found, rest⟩) ⟨p, hp, hbroken⟩
    · rfl
    · rw [thenMembers]
      rcases List.mem_cons.1 hp with rfl | hp
      · rw [hfield.broken hbroken]
        rfl
      · rw [Option.bind_eq_none_iff]
        exact fun b _ => (hrest b).broken ⟨p, hp, hbroken⟩

/-! ### Looking up members -/

section

variable {members members' : List (String × Json)}

theorem record?_obj_object (names : List String) (members : List (String × Json)) :
    (Json.object members).record? names = names.mapM (memberOnce? members) := by
  rw [Json.object, record?, textMembers?_object]
  rfl

theorem memberOnce?_congr {name : String}
    (h : members.filter (·.1 == name) = members'.filter (·.1 == name)) :
    memberOnce? members name = memberOnce? members' name := by
  rw [memberOnce?, memberOnce?, h]

theorem memberOnce?_perm (h : members.Perm members') (name : String) :
    memberOnce? members name = memberOnce? members' name := by
  have hfilter := h.filter (·.1 == name)
  rw [memberOnce?, memberOnce?]
  generalize members.filter (·.1 == name) = found at *
  generalize members'.filter (·.1 == name) = found' at *
  rcases found with _ | ⟨m, _ | ⟨n, found⟩⟩
  · rw [hfilter.nil_eq]
  · rw [List.singleton_perm.1 hfilter]
  · have hlength := hfilter.length_eq
    rcases found' with _ | ⟨m', _ | ⟨n', found'⟩⟩
    · simp at hlength
    · simp at hlength
    · rfl

theorem memberOnce?_append_cons (before after : List (String × Json)) {m : String × Json}
    {name : String} (h : m.1 ≠ name) :
    memberOnce? (before ++ m :: after) name = memberOnce? (before ++ after) name := by
  refine memberOnce?_congr ?_
  rw [List.filter_append, List.filter_append, List.filter_cons_of_neg (by simpa using h)]

/-- A member is found whatever it is, or it is repeated whatever it is. -/
theorem memberOnce?_append_or (before after : List (String × Json)) (name : String) :
    (∀ json, memberOnce? (before ++ (name, json) :: after) name = some (some json)) ∨
      ∀ json, memberOnce? (before ++ (name, json) :: after) name = none := by
  have hfilter : ∀ json, (before ++ (name, json) :: after).filter (·.1 == name) =
      before.filter (·.1 == name) ++ (name, json) :: after.filter (·.1 == name) := fun json => by
    rw [List.filter_append, List.filter_cons_of_pos (by simp)]
  simp only [memberOnce?, hfilter]
  generalize before.filter (·.1 == name) = found
  generalize after.filter (·.1 == name) = found'
  rcases found with _ | ⟨m, _ | ⟨n, found⟩⟩
  · rcases found' with _ | ⟨m, found'⟩
    · exact .inl fun _ => rfl
    · exact .inr fun _ => rfl
  · exact .inr fun _ => rfl
  · exact .inr fun _ => rfl

theorem filter_eq_nil {name : String} (h : name ∉ members.map Prod.fst) :
    members.filter (·.1 == name) = [] := by
  refine List.filter_eq_nil_iff.2 fun m hm heq => h ?_
  exact (by simpa using heq : m.1 = name) ▸ List.mem_map_of_mem hm

theorem memberOnce?_eq_some_none {name : String} (h : name ∉ members.map Prod.fst) :
    memberOnce? members name = some none := by
  rw [memberOnce?, filter_eq_nil h]

theorem memberOnce?_eq_none {name : String} (h : 2 ≤ (members.map Prod.fst).count name) :
    memberOnce? members name = none := by
  have hlength : 2 ≤ (members.filter (·.1 == name)).length := by
    rwa [List.count_eq_length_filter, List.filter_map, List.length_map] at h
  rw [memberOnce?]
  generalize members.filter (·.1 == name) = found at *
  rcases found with _ | ⟨m, _ | ⟨n, found⟩⟩
  · simp at hlength
  · simp at hlength
  · rfl

end

/-- Where what is found of one field is reworded, and nothing else is changed, the decoded record is
the same. -/
theorem mapM_rewords {fields : List Field} (hnodup : (fields.map Field.name).Nodup) {field : Field}
    (hmem : field ∈ fields) {find? find?' : String → Option (Option Json)}
    (hother : ∀ name ≠ field.name, find?' name = find? name)
    (hfield : find? field.name = none ∧ find?' field.name = none ∨
      ∃ found found', find? field.name = some found ∧ find?' field.name = some found' ∧
        MemberRewords field found found') :
    ((fields.map Field.name).mapM find? = none ∧ (fields.map Field.name).mapM find?' = none) ∨
      ∃ found found', (fields.map Field.name).mapM find? = some found ∧
        (fields.map Field.name).mapM find?' = some found' ∧ MembersReword fields found found' := by
  induction fields with
  | nil => cases hmem
  | cons first fields ih =>
    rw [List.map_cons, List.nodup_cons] at hnodup
    simp only [List.map_cons, List.mapM_cons]
    by_cases hfirst : first.name = field.name
    · -- the other members are found as before
      have hrest : (fields.map Field.name).mapM find?' = (fields.map Field.name).mapM find? :=
        mapM_congr fun name hname => hother name fun heq => hnodup.1 (hfirst.trans heq.symm ▸ hname)
      obtain rfl : field = first := by
        rcases List.mem_cons.1 hmem with rfl | hmem
        · rfl
        · exact absurd (hfirst ▸ List.mem_map_of_mem hmem) hnodup.1
      rw [hrest]
      rcases hfield with ⟨hnone, hnone'⟩ | ⟨found, found', hfound, hfound', hrewords⟩
      · exact .inl ⟨by rw [hnone]; rfl, by rw [hnone']; rfl⟩
      · rw [hfound, hfound']
        cases (fields.map Field.name).mapM find? with
        | none => exact .inl ⟨rfl, rfl⟩
        | some rest => exact .inr ⟨_, _, rfl, rfl, .here hrewords⟩
    · have hmem' : field ∈ fields :=
        (List.mem_cons.1 hmem).resolve_left fun heq => hfirst (congrArg Field.name heq.symm)
      rw [hother first.name hfirst]
      cases find? first.name with
      | none => exact .inl ⟨rfl, rfl⟩
      | some found =>
        rcases ih hnodup.2 hmem' with ⟨hnone, hnone'⟩ | ⟨rest, rest', hrest, hrest', hrewords⟩
        · exact .inl ⟨by rw [hnone]; rfl, by rw [hnone']; rfl⟩
        · exact .inr ⟨found :: rest, found :: rest', by rw [hrest]; rfl, by rw [hrest']; rfl,
            .there hrewords⟩

/-- Where one item of an array is reworded, so is what is found of its field. -/
theorem membersReword_place {field : Field} {json json' : Json} (h : field.schema.Rewords json json')
    (after : List Json) {fields₂ : List Field} : ∀ {fields₁ : List Field} {before : List Json},
    before.length = fields₁.length → MembersReword (fields₁ ++ field :: fields₂)
      ((before ++ json :: after).map some) ((before ++ json' :: after).map some)
  | [], [], _ => .here (.value h)
  | _ :: _, _ :: _, hlength => .there (membersReword_place h after (by simpa using hlength))

/-- A broken member is among what is found, if everything is found. -/
theorem exists_zip_of_mapM {fields : List Field} {field : Field} (hmem : field ∈ fields)
    {find? : String → Option (Option Json)} {found : List (Option Json)}
    (h : (fields.map Field.name).mapM find? = some found) :
    ∃ v, find? field.name = some v ∧ (field, v) ∈ fields.zip found := by
  induction fields generalizing found with
  | nil => cases hmem
  | cons first fields ih =>
    rw [List.map_cons, List.mapM_cons] at h
    obtain ⟨v, hv, h⟩ := Option.bind_eq_some_iff.1 h
    obtain ⟨rest, hrest, h⟩ := Option.bind_eq_some_iff.1 h
    obtain rfl := Option.some.inj h
    rw [List.zip_cons_cons]
    rcases List.mem_cons.1 hmem with rfl | hmem
    · exact ⟨v, hv, List.mem_cons_self⟩
    · obtain ⟨w, hw, hzip⟩ := ih hmem hrest
      exact ⟨w, hw, List.mem_cons_of_mem _ hzip⟩

/-- A record with a broken member is refused, however that member is looked up. -/
theorem bind_eq_none_of_broken {decode? : List (Option Json) → Option α} {fields : List Field}
    (hdecode : RespectsMembers decode? fields) {field : Field} (hmem : field ∈ fields)
    {find? : String → Option (Option Json)}
    (hbroken : ∀ v, find? field.name = some v → MemberBroken field v) :
    ((fields.map Field.name).mapM find?).bind decode? = none := by
  refine Option.bind_eq_none_iff.2 fun found hfound => ?_
  obtain ⟨v, hv, hzip⟩ := exists_zip_of_mapM hmem hfound
  exact hdecode.broken ⟨_, hzip, hbroken v hv⟩

section

variable {decode? : List (Option Json) → Option α} {fields : List Field}

/-- Records that differ in one member are decoded alike if it is reworded, or refused in both. -/
theorem bind_eq_of_memberRewords (hnodup : (fields.map Field.name).Nodup)
    (hdecode : RespectsMembers decode? fields) {members members' : List (String × Json)}
    {field : Field} (hmem : field ∈ fields)
    (hother : ∀ name ≠ field.name, memberOnce? members' name = memberOnce? members name)
    (hfield : memberOnce? members field.name = none ∧ memberOnce? members' field.name = none ∨
      ∃ found found', memberOnce? members field.name = some found ∧
        memberOnce? members' field.name = some found' ∧ MemberRewords field found found') :
    ((Json.object members').record? (fields.map Field.name)).bind decode? =
      ((Json.object members).record? (fields.map Field.name)).bind decode? := by
  rw [record?_obj_object, record?_obj_object]
  rcases mapM_rewords hnodup hmem hother hfield with
    ⟨hnone, hnone'⟩ | ⟨found, found', hfound, hfound', hrewords⟩
  · rw [hnone, hnone']
  · rw [hfound, hfound']
    exact hdecode.rewords hrewords

theorem RecordRewords.bind_eq {json json' : Json} (h : RecordRewords fields json json')
    (hnodup : (fields.map Field.name).Nodup) (hdecode : RespectsMembers decode? fields) :
    (json'.record? (fields.map Field.name)).bind decode? =
      (json.record? (fields.map Field.name)).bind decode? := by
  cases h with
  | reorder h =>
    rw [record?_obj_object, record?_obj_object, mapM_congr fun name _ => memberOnce?_perm h name]
  | @insert members name json h =>
    have hlookups : ∀ known ∈ fields.map Field.name,
        memberOnce? ((name, json) :: members) known = memberOnce? members known :=
      fun known hknown => memberOnce?_append_cons [] members (ne_of_mem_of_not_mem hknown h).symm
    rw [record?_obj_object, record?_obj_object, mapM_congr hlookups]
  | @leaveOut members field hmem h honce =>
    have hnull : memberOnce? ((field.name, .null) :: members) field.name = some (some .null) := by
      rw [memberOnce?, List.filter_cons_of_pos (by simp), filter_eq_nil honce]
    refine bind_eq_of_memberRewords hnodup hdecode hmem (fun name hname => ?_)
      (.inr ⟨some .null, none, hnull, memberOnce?_eq_some_none honce, .leaveOut h⟩)
    exact (memberOnce?_append_cons [] members hname.symm).symm
  | @array values h =>
    have hnames : ((fields.map Field.name).zip values).map Prod.fst = fields.map Field.name :=
      List.map_fst_zip (by simp [h])
    have hvalues : ((fields.map Field.name).zip values).map (fun m => some m.2) =
        values.map some := by
      show ((fields.map Field.name).zip values).map (some ∘ Prod.snd) = _
      rw [← List.map_map, List.map_snd_zip (by simp [h])]
    rw [record?_object hnames hnodup, hvalues, record?, if_pos (by simp [h])]
  | @member before after field json json' hmem h =>
    refine bind_eq_of_memberRewords hnodup hdecode hmem (fun name hname => ?_) ?_
    · rw [memberOnce?_append_cons before after hname.symm,
        memberOnce?_append_cons before after hname.symm]
    · rcases memberOnce?_append_or before after field.name with hfound | hrepeated
      · exact .inr ⟨_, _, hfound json, hfound json', .value h⟩
      · exact .inl ⟨hrepeated json, hrepeated json'⟩
  | @place fields₁ fields₂ before after field json json' hfields hlength h =>
    have hlengths : (before ++ json' :: after).length = (before ++ json :: after).length := by simp
    rw [record?, record?, hlengths]
    split
    · exact hdecode.rewords (hfields ▸ membersReword_place h after hlength)
    · rfl

theorem RecordBroken.bind_eq_none {json : Json} (h : RecordBroken fields json)
    (hdecode : RespectsMembers decode? fields) :
    (json.record? (fields.map Field.name)).bind decode? = none := by
  cases h with
  | @missing members field hmem h habsent =>
    rw [record?_obj_object]
    refine bind_eq_none_of_broken hdecode hmem fun v hv => ?_
    rw [memberOnce?_eq_some_none habsent] at hv
    exact Option.some.inj hv ▸ .missing h
  | @repeated members field hmem h =>
    rw [record?_obj_object]
    refine bind_eq_none_of_broken hdecode hmem fun v hv => ?_
    rw [memberOnce?_eq_none h] at hv
    cases hv
  | @length items h =>
    rw [record?, if_neg (by simpa using h)]
    rfl
  | @member members field json hfield hmem h =>
    obtain ⟨before, after, rfl⟩ := List.append_of_mem hmem
    rw [record?_obj_object]
    refine bind_eq_none_of_broken hdecode hfield fun v hv => ?_
    rcases memberOnce?_append_or before after field.name with hfound | hrepeated
    · rw [hfound] at hv
      exact Option.some.inj hv ▸ .value h
    · rw [hrepeated] at hv
      cases hv
  | @place items field json hmem h =>
    rw [record?]
    split
    · refine hdecode.broken ⟨(field, some json), ?_, .value h⟩
      rw [List.zip_map_right]
      exact List.mem_map.2 ⟨(field, json), hmem, rfl⟩
    · rfl

/-- A record is decoded from what is found of its members. -/
theorem respects_record (hnodup : (fields.map Field.name).Nodup)
    (hdecode : RespectsMembers decode? fields) :
    Respects (fun json => (json.record? (fields.map Field.name)).bind decode?) (.record fields) :=
  ⟨fun h => h.bind_eq hnodup hdecode, fun h => h.bind_eq_none hdecode⟩

end

theorem respects_pair {γ : Type} {first second : String} (hne : first ≠ second)
    {first? : Json → Option β} {second? : Json → Option γ} {schema schema' : Schema}
    (hfirst : Respects first? schema) (hsecond : Respects second? schema') (build : β → γ → α)
    {decode? : List (Option Json) → Option α}
    (hdecode : ∀ found, decode? found = thenMembers (·.bind first?)
      (fun b => thenMembers (·.bind second?) fun c => noMembers (build b c)) found) :
    Respects (fun json => (json.record? [first, second]).bind decode?)
      (.record [⟨first, schema, false⟩, ⟨second, schema', false⟩]) := by
  refine (respects_record ?_ <|
    respects_thenMembers (respects_required hfirst first) fun b =>
    respects_thenMembers (respects_required hsecond second) fun c =>
    respects_noMembers (build b c)).congr fun json => ?_
  · simp [hne]
  · exact congrArg (Option.bind _) (funext hdecode)

end

end Json

end TensorRecipe
