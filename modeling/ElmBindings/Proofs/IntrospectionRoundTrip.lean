import ElmBindings.Proofs.BuiltSchemas
import ElmBindings.Proofs.Expansion
import ElmBindings.Proofs.JsonText
import ElmBindings.Schema.Introspection

set_option autoImplicit false

/-! # Introspection results of a schema

The answer that a server gives to the standard introspection query, for a schema of this library, and
what is read from it. The way there and back has two halves. The records of the format are written as
JSON and read again (`result?_json`), which needs nothing but that the text is not nested too deeply. A
schema is described by records and made from them again (`schema_ofSchema`), which needs that it was
built type by type. -/

namespace ElmBindings

namespace Json

variable {α : Type}

/-- A value that may be null. -/
def ofOption (write : α → Json) : Option α → Json
  | some a => write a
  | none => .null

/-- A list of which every item is written the same way. -/
def ofList (write : α → Json) (as : List α) : Json := .array (as.map write)

theorem isNumberless_ofOption {write : α → Json} (h : ∀ a, (write a).isNumberless = true)
    (o : Option α) : (ofOption write o).isNumberless = true := by
  cases o with
  | none => rfl
  | some a => exact h a

@[simp]
theorem isNumberless_ofString (o : Option String) : (ofOption .string o).isNumberless = true :=
  isNumberless_ofOption (fun _ => rfl) o

theorem isNumberless_ofList {write : α → Json} (h : ∀ a, (write a).isNumberless = true) (as : List α) :
    (ofList write as).isNumberless = true := by
  rw [ofList, isNumberless]
  induction as with
  | nil => rfl
  | cons a as ih => rw [List.map_cons, areNumberless, h, ih, Bool.and_self]

theorem le_itemsDepth {item : Json} {items : List Json} (h : item ∈ items) :
    item.depth ≤ itemsDepth items := by
  induction items with
  | nil => cases h
  | cons first items ih =>
    rw [itemsDepth]
    rcases List.mem_cons.mp h with rfl | h
    · exact Nat.le_max_left _ _
    · exact (ih h).trans (Nat.le_max_right _ _)

variable {write : α → Json} {read : Json → Option α} {slots : Slots} {i : Nat} {o : Option α}

theorem Slots.optional_ofOption (h : slots.at? i = some (ofOption write o))
    (hnull : read .null = none) (hread : ∀ a, o = some a → read (write a) = some a) :
    slots.optional i read = some o := by
  rw [Slots.optional, h]
  cases o with
  | none => rfl
  | some a =>
    have ha := hread a rfl
    rw [ofOption]
    cases hvalue : write a with
    | null =>
      rw [hvalue, hnull] at ha
      cases ha
    | _ =>
      rw [hvalue] at ha
      simp [ha]

theorem Slots.optional_string {o : Option String} (h : slots.at? i = some (ofOption .string o)) :
    slots.optional i string? = some o :=
  optional_ofOption h rfl fun _ _ => rfl

/-- A list is read again if its items are, at the depth that is left. -/
theorem listOf?_ofList {n : Nat} {as : List α} (h : (ofList write as).depth ≤ n)
    (hread : ∀ a, (write a).depth ≤ n → read (write a) = some a) :
    listOf? read (ofList write as) = some as := by
  have hitems : ∀ a ∈ as, read (write a) = some a := by
    intro a ha
    have hdepth := le_itemsDepth (List.mem_map_of_mem (f := write) ha)
    rw [ofList, depth] at h
    exact hread a (by omega)
  rw [ofList, listOf?, array?, Option.bind_some]
  clear h
  induction as with
  | nil => rfl
  | cons a as ih =>
    rw [List.map_cons, List.mapM_cons, hitems a List.mem_cons_self,
      ih fun b hb => hitems b (List.mem_cons_of_mem a hb)]
    rfl

theorem Slots.optional_list {n : Nat} {o : Option (List α)}
    (h : slots.at? i = some (ofOption (ofList write) o)) (hdepth : (ofOption (ofList write) o).depth ≤ n)
    (hread : ∀ a, (write a).depth ≤ n → read (write a) = some a) :
    slots.optional i (listOf? read) = some o := by
  refine optional_ofOption h rfl ?_
  rintro as rfl
  exact listOf?_ofList hdepth hread

end Json

namespace Introspection

open Json (ofOption ofList)

/-! ## Records as JSON -/

/-- A type reference. -/
def Ref.json : Ref → Json
  | .mk kind name none =>
    .object [("kind", .string kind), ("name", ofOption .string name), ("ofType", .null)]
  | .mk kind name (some inner) =>
    .object [("kind", .string kind), ("name", ofOption .string name), ("ofType", inner.json)]

/-- An argument or a field of an input object. -/
def Input.json (input : Input) : Json :=
  .object [("name", .string input.name), ("description", .null), ("type", input.type.json),
    ("defaultValue", ofOption .string input.defaultValue)]

/-- A field of an object or interface type. -/
def OutputField.json (field : OutputField) : Json :=
  .object [("name", .string field.name), ("description", ofOption .string field.description),
    ("args", ofList Input.json field.arguments), ("type", field.type.json),
    ("isDeprecated", .bool field.isDeprecated),
    ("deprecationReason", ofOption .string field.deprecationReason)]

/-- A value of an enum type. -/
def Choice.json (choice : Choice) : Json :=
  .object [("name", .string choice.name), ("description", ofOption .string choice.description),
    ("isDeprecated", .bool choice.isDeprecated),
    ("deprecationReason", ofOption .string choice.deprecationReason)]

section

-- what kind of type a name stands for
variable (kindOf : String → String)

/-- A reference to a type by its name. -/
def nameJson (name : String) : Json := (Ref.mk (kindOf name) (some name) none).json

/-- A type. -/
def FullType.json (t : FullType) : Json :=
  .object [("kind", .string t.kind), ("name", .string t.name),
    ("description", ofOption .string t.description),
    ("fields", ofOption (ofList OutputField.json) t.fields),
    ("inputFields", ofOption (ofList Input.json) t.inputFields),
    ("interfaces", ofOption (ofList (nameJson kindOf)) t.interfaces),
    ("enumValues", ofOption (ofList Choice.json) t.choices),
    ("possibleTypes", ofOption (ofList (nameJson kindOf)) t.possibleTypes)]

/-- A root of the operations. -/
def rootJson (name : String) : Json := .object [("name", .string name)]

/-- The schema itself. -/
def Result.json (result : Result) : Json :=
  .object [("queryType", rootJson result.queryType),
    ("mutationType", ofOption rootJson result.mutationType),
    ("subscriptionType", ofOption rootJson result.subscriptionType),
    ("types", ofList (FullType.json kindOf) result.types)]

end

/-! ## Reading the records again -/

theorem ref?_null (budget : Nat) : ref? budget .null = none := by
  cases budget <;> rfl

theorem ref?_json {ref : Ref} {budget : Nat} (h : ref.json.depth ≤ budget) :
    ref? budget ref.json = some ref := by
  -- every wrapper takes one step and is one object
  induction budget generalizing ref with
  | zero => rcases ref with ⟨kind, name, _ | inner⟩ <;> simp [Ref.json, Json.depth] at h
  | succ budget ih =>
    rcases ref with ⟨kind, name, _ | inner⟩
    · simp only [ref?, Option.bind_eq_bind, Option.bind_eq_some_iff]
      exact ⟨_, rfl, kind, rfl, name, Json.Slots.optional_string rfl, none, rfl, rfl⟩
    · have hinner : inner.json.depth ≤ budget := by
        simp only [Ref.json, Json.depth, Json.entriesDepth] at h
        omega
      have hread : ∀ ref, some inner = some ref → ref? budget ref.json = some ref := by
        rintro ref ⟨⟩
        exact ih hinner
      simp only [ref?, Option.bind_eq_bind, Option.bind_eq_some_iff]
      exact ⟨_, rfl, kind, rfl, name, Json.Slots.optional_string rfl, some inner,
        Json.Slots.optional_ofOption rfl (ref?_null budget) hread, rfl⟩

theorem input?_json (input : Input) (h : input.json.depth ≤ maxDepth) :
    input? input.json = some input := by
  have htype : input.type.json.depth ≤ maxDepth := by
    simp only [Input.json, Json.depth, Json.entriesDepth] at h
    omega
  simp only [input?, Option.bind_eq_bind, Option.bind_eq_some_iff]
  exact ⟨_, rfl, _, rfl, _, ref?_json htype, _, Json.Slots.optional_string rfl, rfl⟩

theorem outputField?_json (field : OutputField) (h : field.json.depth ≤ maxDepth) :
    outputField? field.json = some field := by
  simp only [OutputField.json, Json.depth, Json.entriesDepth] at h
  have htype : field.type.json.depth ≤ maxDepth := by omega
  have harguments : (ofList Input.json field.arguments).depth ≤ maxDepth := by omega
  simp only [outputField?, Option.bind_eq_bind, Option.bind_eq_some_iff]
  exact ⟨_, rfl, _, rfl, _, Json.Slots.optional_string rfl, _,
    Json.listOf?_ofList harguments input?_json, _, ref?_json htype, _, rfl, _,
    Json.Slots.optional_string rfl, rfl⟩

theorem choice?_json (choice : Choice) : choice? choice.json = some choice := by
  simp only [choice?, Option.bind_eq_bind, Option.bind_eq_some_iff]
  exact ⟨_, rfl, _, rfl, _, Json.Slots.optional_string rfl, _, rfl, _,
    Json.Slots.optional_string rfl, rfl⟩

variable (kindOf : String → String)

theorem nameOf?_nameJson (name : String) : nameOf? (nameJson kindOf name) = some name := rfl

theorem nameOf?_rootJson (name : String) : nameOf? (rootJson name) = some name := rfl

theorem fullType?_json (t : FullType) (h : (t.json kindOf).depth ≤ maxDepth) :
    fullType? (t.json kindOf) = some t := by
  simp only [FullType.json, Json.depth, Json.entriesDepth] at h
  have hname : ∀ name, (nameJson kindOf name).depth ≤ maxDepth →
    nameOf? (nameJson kindOf name) = some name := fun name _ => nameOf?_nameJson kindOf name
  have hchoice : ∀ choice : Choice, choice.json.depth ≤ maxDepth →
    choice? choice.json = some choice := fun choice _ => choice?_json choice
  simp only [fullType?, Option.bind_eq_bind, Option.bind_eq_some_iff]
  exact ⟨_, rfl, _, rfl, _, rfl, _, Json.Slots.optional_string rfl,
    _, Json.Slots.optional_list rfl (by omega) outputField?_json,
    _, Json.Slots.optional_list rfl (by omega) input?_json,
    _, Json.Slots.optional_list rfl (by omega) hname,
    _, Json.Slots.optional_list rfl (by omega) hchoice,
    _, Json.Slots.optional_list rfl (by omega) hname, rfl⟩

/-- The records of a result are read again from JSON that is not nested too deeply. -/
theorem result?_json (result : Result) (h : (result.json kindOf).depth ≤ maxDepth) :
    result? (result.json kindOf) = some result := by
  have htypes : (ofList (FullType.json kindOf) result.types).depth ≤ maxDepth := by
    simp only [Result.json, Json.depth, Json.entriesDepth] at h
    omega
  simp only [result?, Option.bind_eq_bind, Option.bind_eq_some_iff]
  exact ⟨_, rfl, _, rfl,
    _, Json.Slots.optional_ofOption rfl rfl fun name _ => nameOf?_rootJson name,
    _, Json.Slots.optional_ofOption rfl rfl fun name _ => nameOf?_rootJson name,
    _, Json.listOf?_ofList htypes (fullType?_json kindOf), rfl⟩

/-! ## The three forms -/

/-- The forms in which a result is given: a whole response, an object that holds the schema, or the
schema alone. -/
inductive Form
  | response
  | wrapped
  | bare

/-- A schema in one of the forms. -/
def Form.json (schema : Json) : Form → Json
  | response => .object [("data", .object [("__schema", schema)])]
  | wrapped => .object [("__schema", schema)]
  | bare => schema

theorem Form.depth_le (schema : Json) (form : Form) : schema.depth ≤ (form.json schema).depth := by
  cases form <;> simp only [Form.json, Json.depth, Json.entriesDepth] <;> omega

/-- No form is taken for another one. -/
theorem envelope?_json (result : Result) (form : Form)
    (h : (form.json (result.json kindOf)).depth ≤ maxDepth) :
    envelope? (form.json (result.json kindOf)) = some result := by
  have hread := result?_json kindOf result ((form.depth_le _).trans h)
  cases form with
  | response =>
    have hresponse : response? (Form.response.json (result.json kindOf)) = some result := hread
    rw [envelope?, hresponse]
    rfl
  | wrapped =>
    have hresponse : response? (Form.wrapped.json (result.json kindOf)) = none := rfl
    have hwrapped : wrapped? (Form.wrapped.json (result.json kindOf)) = some result := hread
    rw [envelope?, hresponse, hwrapped]
    rfl
  | bare =>
    have hresponse : response? (Form.bare.json (result.json kindOf)) = none := rfl
    have hwrapped : wrapped? (Form.bare.json (result.json kindOf)) = none := rfl
    rw [envelope?, hresponse, hwrapped]
    exact hread

/-! ## Numbers -/

@[simp]
theorem Ref.isNumberless_json : ∀ ref : Ref, ref.json.isNumberless = true
  | .mk kind name none => by simp [Ref.json, Json.isNumberless, Json.entriesNumberless]
  | .mk kind name (some inner) => by
    simp [Ref.json, Json.isNumberless, Json.entriesNumberless, isNumberless_json inner]

@[simp]
theorem Input.isNumberless_json (input : Input) : input.json.isNumberless = true := by
  simp [Input.json, Json.isNumberless, Json.entriesNumberless]

@[simp]
theorem OutputField.isNumberless_json (field : OutputField) : field.json.isNumberless = true := by
  simp [OutputField.json, Json.isNumberless, Json.entriesNumberless, Json.isNumberless_ofList]

@[simp]
theorem Choice.isNumberless_json (choice : Choice) : choice.json.isNumberless = true := by
  simp [Choice.json, Json.isNumberless, Json.entriesNumberless]

@[simp]
theorem FullType.isNumberless_json (t : FullType) : (t.json kindOf).isNumberless = true := by
  simp [FullType.json, nameJson, Json.isNumberless, Json.entriesNumberless, Json.isNumberless_ofOption,
    Json.isNumberless_ofList]

theorem Result.isNumberless_json (result : Result) : (result.json kindOf).isNumberless = true := by
  simp [Result.json, rootJson, Json.isNumberless, Json.entriesNumberless, Json.isNumberless_ofOption,
    Json.isNumberless_ofList]

theorem Form.isNumberless_json {schema : Json} (h : schema.isNumberless = true) (form : Form) :
    (form.json schema).isNumberless = true := by
  cases form <;> simp [Form.json, Json.isNumberless, Json.entriesNumberless, h]

/-- The records of a result are read from every text of one of its forms that is not nested too
deeply. -/
theorem parse?_form {result : Result} {form : Form} {text : String}
    (h : Json.parse? text = some (form.json (result.json kindOf)))
    (hdepth : (form.json (result.json kindOf)).depth ≤ maxDepth) : parse? text = some result := by
  have hfinite := Json.isFinite_of_isNumberless
    (form.isNumberless_json (result.isNumberless_json kindOf))
  simp only [parse?, h, Option.bind_eq_bind, Option.bind_some, hdepth, hfinite, and_self, if_true]
  exact envelope?_json kindOf result form hdepth

end Introspection

/-! ## Schemas as records -/

/-- What the introspection format calls the kind of a type. -/
def TypeDef.kindName : TypeDef → String
  | .scalar _ => "SCALAR"
  | .object _ => "OBJECT"
  | .interface _ => "INTERFACE"
  | .union _ => "UNION"
  | .enum _ => "ENUM"
  | .input _ => "INPUT_OBJECT"

namespace Schema

/-- The kind of the type that a name stands for. -/
def kindOf (schema : Schema) (name : String) : String :=
  ((schema.get? name).map TypeDef.kindName).getD "SCALAR"

/-- The objects that implement an interface. -/
def implementations (schema : Schema) (name : String) : List String :=
  schema.types.filterMap fun d =>
    match d with
    | .object object => if name ∈ object.interfaces then some object.name else none
    | _ => none

/-- The kind of a type is that of no wrapper. -/
theorem kindOf_ne (schema : Schema) (name : String) :
    schema.kindOf name ≠ "LIST" ∧ schema.kindOf name ≠ "NON_NULL" := by
  rw [kindOf]
  rcases schema.get? name with _ | d
  · decide
  · cases d <;> simp [TypeDef.kindName]

end Schema

namespace Introspection

variable (schema : Schema)

/-- The record of a type reference: the wrappers outside in, and the type in the innermost one. -/
def Ref.ofTypeRef : TypeRef → Ref
  | .named name => .mk (schema.kindOf name) (some name) none
  | .list item => .mk "LIST" none (some (ofTypeRef item))
  | .nonNull inner => .mk "NON_NULL" none (some (ofTypeRef inner))

/-- The record of an argument or input field. -/
def Input.ofValue (value : InputValue) : Input :=
  ⟨value.name, .ofTypeRef schema value.type, value.defaultText⟩

/-- The record of a field. -/
def OutputField.ofField (field : FieldDef) : OutputField where
  name := field.name
  description := field.description
  arguments := field.arguments.map (Input.ofValue schema)
  type := .ofTypeRef schema field.type
  isDeprecated := field.deprecation.isSome
  deprecationReason := field.deprecation

/-- The record of a value of an enum type. -/
def Choice.ofValue (value : EnumValue) : Choice :=
  ⟨value.name, value.description, value.deprecation.isSome, value.deprecation⟩

/-- The record of a type that has none of the parts that only some kinds have. -/
def FullType.plain (d : TypeDef) (description : Option String) : FullType where
  kind := d.kindName
  name := d.name
  description := description
  fields := none
  inputFields := none
  interfaces := none
  choices := none
  possibleTypes := none

/-- The record of a type. -/
def FullType.ofDef (d : TypeDef) : FullType :=
  match d with
  | .scalar scalar => .plain d scalar.description
  | .object object =>
    { FullType.plain d object.description with
      fields := some (object.fields.map (OutputField.ofField schema))
      interfaces := some object.interfaces }
  | .interface object =>
    { FullType.plain d object.description with
      fields := some (object.fields.map (OutputField.ofField schema))
      interfaces := some object.interfaces
      possibleTypes := some (schema.implementations object.name) }
  | .union union => { FullType.plain d union.description with possibleTypes := some union.members }
  | .enum enum =>
    { FullType.plain d enum.description with choices := some (enum.values.map Choice.ofValue) }
  | .input input =>
    { FullType.plain d input.description with
      inputFields := some (input.fields.map (Input.ofValue schema)) }

/-- The record of a schema. -/
def Result.ofSchema : Result where
  queryType := schema.queryType
  mutationType := schema.mutationType
  subscriptionType := schema.subscriptionType
  types := schema.types.map (FullType.ofDef schema)

/-! ## Making a schema from its records -/

theorem mapM_map_eq_ok {α β ε : Type} {f : α → β} {g : β → Except ε α} (h : ∀ a, g (f a) = .ok a)
    (as : List α) : (as.map f).mapM g = .ok as := by
  induction as with
  | nil => rfl
  | cons a as ih =>
    rw [List.map_cons, List.mapM_cons, h, ih]
    rfl

theorem Ref.typeRef_ofTypeRef (t : TypeRef) (context : String) :
    (ofTypeRef schema t).typeRef context = .ok t := by
  induction t with
  | named name => simp [ofTypeRef, typeRef, schema.kindOf_ne name]
  | list item ih => simp [ofTypeRef, typeRef, ih, Except.map]
  | nonNull inner ih => simp [ofTypeRef, typeRef, ih, Except.map]

theorem Input.definition_ofValue (owner : String) (value : InputValue) :
    (ofValue schema value).definition owner = .ok value := by
  rw [definition, ofValue, Ref.typeRef_ofTypeRef]
  rfl

theorem deprecation_isSome (reason : Option String) : deprecation reason.isSome reason = reason := by
  cases reason <;> rfl

theorem OutputField.definition_ofField (owner : String) (field : FieldDef) :
    (ofField schema field).definition owner = .ok field := by
  have harguments := mapM_map_eq_ok (Input.definition_ofValue schema (owner ++ "." ++ field.name))
    field.arguments
  simp only [definition, ofField, Ref.typeRef_ofTypeRef, harguments, deprecation_isSome]
  rfl

theorem Choice.definition_ofValue (value : EnumValue) : (ofValue value).definition = value := by
  rw [definition, ofValue, deprecation_isSome]

/-- An object or interface is made again from a record with its parts. -/
theorem FullType.object_eq {t : FullType} {object : ObjectDef} (hname : t.name = object.name)
    (hdescription : t.description = object.description)
    (hinterfaces : t.interfaces = some object.interfaces)
    (hfields : t.fields = some (object.fields.map (OutputField.ofField schema))) :
    t.object = .ok object := by
  have hread := mapM_map_eq_ok (OutputField.definition_ofField schema object.name) object.fields
  rw [FullType.object, hname, hdescription, hinterfaces, hfields, Option.getD_some, Option.getD_some,
    hread]
  rfl

/-- A type is made again from its record. -/
theorem FullType.definition_ofDef (d : TypeDef) : (ofDef schema d).definition = .ok (some d) := by
  cases d with
  | scalar scalar => rfl
  | object object =>
    have hkind : (ofDef schema (.object object)).kind = "OBJECT" := rfl
    have hobject : (ofDef schema (.object object)).object = .ok object :=
      object_eq schema rfl rfl rfl rfl
    simp [definition, hkind, hobject, bind, Except.bind]
  | interface object =>
    have hkind : (ofDef schema (.interface object)).kind = "INTERFACE" := rfl
    have hobject : (ofDef schema (.interface object)).object = .ok object :=
      object_eq schema rfl rfl rfl rfl
    simp [definition, hkind, hobject, bind, Except.bind]
  | union union => rfl
  | enum enum =>
    have hvalues : (enum.values.map Choice.ofValue).map Choice.definition = enum.values := by
      simp [Function.comp_def, Choice.definition_ofValue]
    simp [definition, ofDef, plain, TypeDef.kindName, TypeDef.name, hvalues]
  | input input =>
    have hfields := mapM_map_eq_ok (Input.definition_ofValue schema input.name) input.fields
    simp [definition, ofDef, plain, TypeDef.kindName, TypeDef.name, hfields, bind, Except.bind]

theorem name_ofDef (d : TypeDef) : (FullType.ofDef schema d).name = d.name := by
  cases d <;> rfl

theorem foldlM_withType {ds : List TypeDef} (start : Schema)
    (h : ∀ d ∈ ds, "__".toList.isPrefixOf d.name.toList = false) :
    (ds.map (FullType.ofDef schema)).foldlM withType start = .ok (ds.foldl Schema.add start) := by
  induction ds generalizing start with
  | nil => rfl
  | cons d ds ih =>
    have hd : withType start (FullType.ofDef schema d) = .ok (start.add d) := by
      rw [withType, name_ofDef, h d List.mem_cons_self, FullType.definition_ofDef]
      rfl
    rw [List.map_cons, List.foldlM_cons, hd]
    exact ih (start.add d) fun other hother => h other (List.mem_cons_of_mem d hother)

/-- A schema that was built type by type is made again from its records. -/
theorem schema_ofSchema {schema : Schema} (h : schema.Built) :
    (Result.ofSchema schema).schema = .ok schema := by
  rw [Result.schema, Result.ofSchema, foldlM_withType schema _ h.not_reserved, h.restored]

end Introspection

/-- The answer of a server with this schema to the standard introspection query. -/
def Schema.introspection (schema : Schema) : Json :=
  (Introspection.Result.ofSchema schema).json schema.kindOf

/-- A schema that was built type by type is read from its own introspection result: from all three forms
of it, in every text that is not nested too deeply. -/
theorem Schema.parseIntrospection_introspection {schema : Schema} (h : schema.Built)
    (form : Introspection.Form)
    (hdepth : (form.json schema.introspection).depth ≤ Introspection.maxDepth) :
    Json.parse? (form.json schema.introspection).text = some (form.json schema.introspection) ∧
      ∀ text, Json.parse? text = some (form.json schema.introspection) →
        parseIntrospection text = .ok schema := by
  constructor
  · exact Json.parse?_text (form.isNumberless_json (Introspection.Result.isNumberless_json _ _))
  · intro text htext
    rw [parseIntrospection, Introspection.parse?_form schema.kindOf htext hdepth]
    exact Introspection.schema_ofSchema h

namespace Sample

/-- A schema with a deprecated field under repeated wrappers, an interface and a scalar of its own in the
place of a built-in one. -/
def wrapped : Schema :=
  ((((Schema.ofQuery "Query").add (.scalar ⟨"ID", some "a \"key\""⟩)).add
    (.interface ⟨"Node", none, [], [fieldDef "id" (.nonNull (.named "ID"))]⟩)).add
    (.object ⟨"Query", none, ["Node"],
      [⟨"all", .nonNull (.nonNull (.list (.named "Node"))), [⟨"first", .named "Int", some "10"⟩], none,
        some ""⟩]⟩))

theorem built_wrapped : wrapped.Built :=
  .add (.add (.add (.ofQuery "Query") (by decide)) (by decide)) (by decide)

end Sample

theorem Schema.parseIntrospection_introspection_wrapped :
    Schema.parseIntrospection (Introspection.Form.response.json Sample.wrapped.introspection).text =
      .ok Sample.wrapped := by
  obtain ⟨htext, hread⟩ := Schema.parseIntrospection_introspection Sample.built_wrapped .response
    (by decide)
  exact hread _ htext

end ElmBindings
