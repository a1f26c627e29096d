import ElmBindings.Proofs.CustomBlocks
import ElmBindings.Proofs.RecursiveInputs
import ElmBindings.Proofs.ResponseKeys

set_option autoImplicit false

/-! # Fields of records

Elm refuses a record type in which a name stands twice. The records of a module come from three places.
Those of results are expanded from selections, which keep the first field of a name, so their names always
differ (`expand_hasDistinctFields`). The records of variables and of input objects have one field for each
variable and each input field, under its Elm name, and nothing sees to it that these names differ.

So the records of a module are acceptable exactly if no two variables of an operation and no two fields of
an input object that is used have names that collide (`generateModule_distinct_iff`): `id` and `_id` do. -/

namespace ElmBindings

namespace ElmType

/-! ## Distinct fields -/

/-- The fields of the records that a type itself declares: a record has one list of them, a union one for
each variant. -/
def fieldLists : ElmType → List (List (String × ElmType))
  | record fields => [fields]
  | union _ variants => variants.map Variant.fields
  | _ => []

/-- Whether no record inside a type has two fields of one name. -/
def HasDistinctFields (t : ElmType) : Prop :=
  ∀ part : ElmType, part.Within t → ∀ fields ∈ part.fieldLists, (fields.map Prod.fst).Nodup

theorem hasDistinctFields_of_leaf {t : ElmType} (h : t.parts = [t]) (hleaf : t.fieldLists = []) :
    t.HasDistinctFields := by
  intro part hpart fields hfields
  rw [← mem_parts_iff, h, List.mem_singleton] at hpart
  rw [hpart, hleaf] at hfields
  cases hfields

@[simp]
theorem hasDistinctFields_maybe {t : ElmType} :
    (maybe t).HasDistinctFields ↔ t.HasDistinctFields := by
  constructor
  · intro h part hpart
    exact h part (.maybe hpart)
  · intro h part hpart fields hfields
    cases hpart with
    | self => cases hfields
    | maybe hpart => exact h part hpart fields hfields

@[simp]
theorem hasDistinctFields_list {t : ElmType} : (list t).HasDistinctFields ↔ t.HasDistinctFields := by
  constructor
  · intro h part hpart
    exact h part (.list hpart)
  · intro h part hpart fields hfields
    cases hpart with
    | self => cases hfields
    | list hpart => exact h part hpart fields hfields

@[simp]
theorem hasDistinctFields_lists {t : ElmType} (depth : Nat) :
    (t.lists depth).HasDistinctFields ↔ t.HasDistinctFields := by
  induction depth with
  | zero => rfl
  | succ depth ih => rw [lists, hasDistinctFields_list, ih]

theorem hasDistinctFields_record {fields : List (String × ElmType)} :
    (record fields).HasDistinctFields ↔
      (fields.map Prod.fst).Nodup ∧ ∀ field ∈ fields, field.2.HasDistinctFields := by
  constructor
  · intro h
    refine ⟨h _ .self fields (List.mem_singleton_self fields), ?_⟩
    intro field hfield part hpart
    exact h part (.record hfield hpart)
  · intro ⟨hnodup, hall⟩ part hpart others hothers
    cases hpart with
    | self =>
      cases List.mem_singleton.mp hothers
      exact hnodup
    | record hfield hpart => exact hall _ hfield part hpart others hothers

theorem hasDistinctFields_union {name : String} {variants : List (Variant ElmType)} :
    (union name variants).HasDistinctFields ↔
      ∀ v ∈ variants, (record v.fields).HasDistinctFields := by
  constructor
  · intro h v hv
    refine hasDistinctFields_record.mpr ⟨h _ .self v.fields (List.mem_map_of_mem hv), ?_⟩
    intro field hfield part hpart
    exact h part (.union hv hfield hpart)
  · intro h part hpart fields hfields
    cases hpart with
    | self =>
      obtain ⟨v, hv, rfl⟩ := List.mem_map.mp hfields
      exact (hasDistinctFields_record.mp (h v hv)).1
    | union hv hfield hpart =>
      exact (hasDistinctFields_record.mp (h _ hv)).2 _ hfield part hpart fields hfields

end ElmType

/-! ## Records of results -/

theorem hasDistinctFields_scalarLeaf (name : String) : (scalarLeaf name).2.HasDistinctFields := by
  rcases scalarLeaf_cases name with h | h | h | h <;> rw [h] <;>
    exact ElmType.hasDistinctFields_of_leaf rfl rfl

theorem Selected.entry_hasDistinctFields {s : Selected} {type : TypeRef} {elm : ElmType}
    (h : elm.HasDistinctFields) (decoder : Decoder) :
    (s.entry type elm decoder).type.HasDistinctFields := by
  simp only [entry]
  split <;> simpa using h

/-- The records of a result never have two fields of one name. -/
theorem expand_hasDistinctFields {schema : Schema} {index : FragmentIndex} (chain : List String)
    (selections : List Selection) :
    ∀ parent shape, expand schema index chain parent {} selections = .ok shape →
      shape.recordType.HasDistinctFields := by
  induction chain, selections using selections_induction schema index with
  | step chain selections ih =>
    intro parent shape h
    refine ElmType.hasDistinctFields_record.mpr ⟨?_, ?_⟩
    · have hnames : shape.names.Nodup := ((flattens_of_expand h).names_eq h).2
      rwa [Shape.fields, List.map_map]
    · intro field hfield
      obtain ⟨e, he, rfl⟩ := List.mem_map.mp hfield
      obtain ⟨s, hs, type, d, elm, decoder, -, hreading, rfl⟩ :=
        exists_of_mem_right (expand_selected h) he
      obtain ⟨hinner, hmember⟩ := ih parent s hs
      apply Selected.entry_hasDistinctFields
      cases hreading with
      | scalar d => exact hasDistinctFields_scalarLeaf d.name
      | enum d => exact ElmType.hasDistinctFields_of_leaf rfl rfl
      | object hd hshape => exact hinner _ _ hshape
      | union hvariants =>
        refine ElmType.hasDistinctFields_union.mpr ?_
        intro v hv
        obtain ⟨⟨member, shape⟩, hin, rfl⟩ := List.mem_map.mp hv
        obtain ⟨-, object, -, hshape⟩ := (expandUnion_members hvariants).shapes member shape hin
        exact hmember member object shape hshape

/-! ## Records of inputs -/

section

-- names are compared, not unfolded
attribute [local irreducible] Naming.valueName

theorem InputType.hasDistinctFields_wrapped (base : InputType) (nullable : Bool) (ref : TypeRef) :
    (base.wrapped nullable ref).type.HasDistinctFields ↔ base.type.HasDistinctFields := by
  have hoptional (input : InputType) (nullable : Bool) :
      (input.optional nullable).type.HasDistinctFields ↔ input.type.HasDistinctFields := by
    cases nullable with
    | true => exact ElmType.hasDistinctFields_maybe
    | false => rfl
  induction ref generalizing nullable with
  | named name => exact hoptional base nullable
  | list item ih =>
    rw [wrapped, hoptional, InputType.list, ElmType.hasDistinctFields_list]
    exact ih true
  | nonNull inner ih => exact ih false

theorem objectInput_hasDistinctFields {fields : List (String × InputType)} :
    (objectInput fields).type.HasDistinctFields ↔
      (fields.map fun field => Naming.valueName field.1).Nodup ∧
        ∀ field ∈ fields, field.2.type.HasDistinctFields := by
  rw [objectInput, ElmType.hasDistinctFields_record, List.map_map, List.forall_mem_map]
  rfl

/-- The Elm names of the fields of an input object, in order. -/
def InputObjectDef.fieldNames (d : InputObjectDef) : List String :=
  d.fields.map fun field => Naming.valueName field.name

namespace Schema

variable {schema : Schema}

/-- The records of an input are those of the input objects that its type encloses. -/
theorem IsInput.hasDistinctFields_iff {name : String} {input : InputType}
    (h : schema.IsInput name input) :
    input.type.HasDistinctFields ↔
      ∀ inner d, schema.Encloses name inner → schema.get? inner = some (.input d) →
        d.fieldNames.Nodup := by
  induction h with
  | @scalar name d hd =>
    refine iff_of_true (hasDistinctFields_scalarLeaf d.name) ?_
    intro inner d' hencloses hd'
    rw [hencloses.eq_of_leaf (by simp [hd]), hd] at hd'
    cases hd'
  | @enum name d hd =>
    refine iff_of_true (ElmType.hasDistinctFields_of_leaf rfl rfl) ?_
    intro inner d' hencloses hd'
    rw [hencloses.eq_of_leaf (by simp [hd]), hd] at hd'
    cases hd'
  | @object name d base hd hfields ih =>
    rw [objectInput_hasDistinctFields]
    simp only [List.map_map, List.forall_mem_map]
    constructor
    · intro ⟨hnodup, hall⟩ inner d' hencloses hd'
      cases hencloses with
      | self =>
        cases hd.symm.trans hd'
        exact hnodup
      | field hd'' hfield hencloses =>
        cases hd.symm.trans hd''
        have hbase := (InputType.hasDistinctFields_wrapped _ _ _).mp (hall _ hfield)
        exact (ih _ hfield).mp hbase inner d' hencloses hd'
    · intro hall
      refine ⟨hall name d (.self name) hd, ?_⟩
      intro field hfield
      refine (InputType.hasDistinctFields_wrapped _ _ _).mpr ((ih field hfield).mpr ?_)
      intro inner d' hencloses hd'
      exact hall inner d' (.field hd hfield hencloses) hd'

theorem exists_isInput {context : String} {ref : TypeRef} {input : InputType}
    (h : schema.input context ref = .ok input) :
    ∃ base, schema.IsInput ref.baseName base ∧ input = base.wrapped true ref := by
  obtain ⟨-, -, h⟩ := bind_eq_ok.mp h
  obtain ⟨base, hbase, h⟩ := bind_eq_ok.mp h
  cases h
  exact ⟨base, isInput_of_namedInput hbase, rfl⟩

end Schema

/-! ## Records of variables -/

theorem map_eq_of_forall₂ {α β γ : Type} {R : α → β → Prop} {f : α → γ} {g : β → γ} {xs : List α}
    {ys : List β} (h : List.Forall₂ R xs ys) (himp : ∀ x y, R x y → g y = f x) :
    ys.map g = xs.map f := by
  induction h with
  | nil => rfl
  | cons hxy _ ih => rw [List.map_cons, List.map_cons, himp _ _ hxy, ih]

theorem Binding.ofOperation_inputs {schema : Schema} {index : FragmentIndex} {op : Operation}
    {binding : Binding} (h : ofOperation schema index op = .ok binding) :
    List.Forall₂ (fun v x => x.field = Naming.valueName v.name ∧
      schema.input ("$" ++ v.name) v.type = .ok x.input) op.parameters binding.inputs := by
  obtain ⟨⟨kind, type⟩, -, h⟩ := bind_eq_ok.mp h
  obtain ⟨parent, -, h⟩ := bind_eq_ok.mp h
  obtain ⟨shape, -, h⟩ := bind_eq_ok.mp h
  obtain ⟨inputs, hinputs, h⟩ := bind_eq_ok.mp h
  cases h
  refine (forall₂_of_mapM_eq_ok hinputs).imp ?_
  intro v x hx
  obtain ⟨input, hinput, hx⟩ := bind_eq_ok.mp hx
  cases hx
  exact ⟨rfl, hinput⟩

theorem Binding.ofFragment_inputs {schema : Schema} {index : FragmentIndex} {fragment : Fragment}
    {binding : Binding} (h : ofFragment schema index fragment = .ok binding) : binding.inputs = [] := by
  obtain ⟨parent, -, h⟩ := bind_eq_ok.mp h
  obtain ⟨shape, -, h⟩ := bind_eq_ok.mp h
  cases h
  rfl

/-- The record of the variables of an operation has the Elm names of the variables as its fields, and the
records inside it are those of the input objects in the types of the variables. -/
theorem Binding.variablesRecord_hasDistinctFields {schema : Schema} {index : FragmentIndex}
    {op : Operation} {binding : Binding} (h : ofOperation schema index op = .ok binding) :
    (variablesRecord binding).HasDistinctFields ↔
      (op.parameters.map fun v => Naming.valueName v.name).Nodup ∧
        ∀ v ∈ op.parameters, ∀ inner d, schema.Encloses v.type.baseName inner →
          schema.get? inner = some (.input d) → d.fieldNames.Nodup := by
  have hinputs := ofOperation_inputs h
  have hnames : binding.inputs.map Variable.field =
      op.parameters.map fun v => Naming.valueName v.name :=
    map_eq_of_forall₂ hinputs fun v x hx => hx.1
  have hrecords (v : VariableDefinition) (x : Variable)
      (hinput : schema.input ("$" ++ v.name) v.type = .ok x.input) :
      x.input.type.HasDistinctFields ↔ ∀ inner d, schema.Encloses v.type.baseName inner →
        schema.get? inner = some (.input d) → d.fieldNames.Nodup := by
    obtain ⟨base, hbase, heq⟩ := Schema.exists_isInput hinput
    rw [heq, InputType.hasDistinctFields_wrapped, hbase.hasDistinctFields_iff]
  rw [variablesRecord, ElmType.hasDistinctFields_record, List.map_map, List.forall_mem_map, ← hnames]
  refine and_congr Iff.rfl ⟨?_, ?_⟩
  · intro hall v hv
    obtain ⟨x, hx, -, hinput⟩ := exists_of_mem_right hinputs.flip hv
    exact (hrecords v x hinput).mp (hall x hx)
  · intro hall x hx
    obtain ⟨v, hv, -, hinput⟩ := exists_of_mem_right hinputs hx
    exact (hrecords v x hinput).mpr (hall v hv)

end

/-! ## Records of a module -/

/-- Whether a list of fields is that of a record in a module: one in a result or in the type of a
variable, where the variants of unions count, or the record of the variables of an operation. -/
def EmitsRecord (bindings : List Binding) (fields : List (String × ElmType)) : Prop :=
  (∃ t, Uses bindings t ∧ fields ∈ t.fieldLists) ∨
    ∃ binding ∈ bindings, variablesRecord binding = .record fields

theorem ModulePlan.variablesRecord_mem_blocks (plan : ModulePlan) (options : ModuleOptions)
    {bindings : List Binding} {binding : Binding} (hbinding : binding ∈ bindings)
    (hoperation : binding.isOperation = true) (hinputs : binding.inputs ≠ []) :
    ElmType.aliasDeclaration binding.variablesType (variablesRecord binding) ∈
      plan.blocks options bindings := by
  have hblock : ElmType.aliasDeclaration binding.variablesType (variablesRecord binding) ∈
      operationBlocks binding options.method { reserved := plan.values } := by
    simp [operationBlocks, hinputs]
  have hmem : binding ∈ operationsOf bindings := List.mem_filter.mpr ⟨hbinding, hoperation⟩
  simp only [blocks, List.append_assoc, List.mem_append]
  exact .inr (.inl (List.mem_flatMap.mpr ⟨binding, hmem, hblock⟩))

theorem emitsRecord_nodup_iff (bindings : List Binding) :
    (∀ fields, EmitsRecord bindings fields → (fields.map Prod.fst).Nodup) ↔
      ∀ binding ∈ bindings,
        binding.type.HasDistinctFields ∧ (variablesRecord binding).HasDistinctFields := by
  constructor
  · intro h binding hbinding
    constructor
    · intro part hpart fields hfields
      exact h fields (.inl ⟨part, ⟨binding, hbinding, .inl hpart⟩, hfields⟩)
    · refine ElmType.hasDistinctFields_record.mpr ⟨h _ (.inr ⟨binding, hbinding, rfl⟩), ?_⟩
      intro field hfield part hpart fields hfields
      obtain ⟨v, hv, rfl⟩ := List.mem_map.mp hfield
      exact h fields (.inl ⟨part, ⟨binding, hbinding, .inr ⟨v, hv, hpart⟩⟩, hfields⟩)
  · intro h fields hfields
    rcases hfields with ⟨part, ⟨binding, hbinding, hpart | ⟨v, hv, hpart⟩⟩, hfields⟩ |
      ⟨binding, hbinding, heq⟩
    · exact (h binding hbinding).1 part hpart fields hfields
    · have hvariables := (ElmType.hasDistinctFields_record.mp (h binding hbinding).2).2
      exact hvariables (v.field, v.input.type) (List.mem_map_of_mem hv) part hpart fields hfields
    · have hvariables := (h binding hbinding).2
      rw [heq] at hvariables
      exact (ElmType.hasDistinctFields_record.mp hvariables).1

theorem Naming.nodup_map_valueName {α : Type} {items : List α} {name : α → String}
    (h : (items.map name).Nodup) :
    (items.map fun item => valueName (name item)).Nodup ↔
      ∀ a ∈ items, ∀ b ∈ items, ¬ Collide (name a) (name b) := by
  have hcomp : (items.map fun item => valueName (name item)) = (items.map name).map valueName := by
    simp
  rw [hcomp, List.nodup_map_iff_inj_on h, valueName_injOn]
  simp only [List.forall_mem_map]

/-- Whether two variables of an operation collide, or two fields of an input object that the type of a
variable encloses. -/
def Operation.HasCollision (schema : Schema) (op : Operation) : Prop :=
  (∃ v ∈ op.parameters, ∃ w ∈ op.parameters, Naming.Collide v.name w.name) ∨
    ∃ v ∈ op.parameters, ∃ inner d, schema.Encloses v.type.baseName inner ∧
      schema.get? inner = some (.input d) ∧
      ∃ field ∈ d.fields, ∃ other ∈ d.fields, Naming.Collide field.name other.name

theorem Operation.not_hasCollision_iff {schema : Schema} {op : Operation}
    (hinputs : ∀ d ∈ schema.types, (d.inputFields.map InputValue.name).Nodup)
    (hvariables : (op.parameters.map VariableDefinition.name).Nodup) :
    ¬ op.HasCollision schema ↔
      (op.parameters.map fun v => Naming.valueName v.name).Nodup ∧
        ∀ v ∈ op.parameters, ∀ inner d, schema.Encloses v.type.baseName inner →
          schema.get? inner = some (.input d) → d.fieldNames.Nodup := by
  have hfields (name : String) (d : InputObjectDef) (hd : schema.get? name = some (.input d)) :
      d.fieldNames.Nodup ↔
        ∀ field ∈ d.fields, ∀ other ∈ d.fields, ¬ Naming.Collide field.name other.name :=
    Naming.nodup_map_valueName (hinputs _ (Schema.mem_of_get? hd))
  rw [HasCollision, not_or, Naming.nodup_map_valueName hvariables]
  simp only [not_exists, not_and]
  refine and_congr Iff.rfl ⟨?_, ?_⟩
  · intro h v hv inner d hencloses hd
    exact (hfields inner d hd).mpr (h v hv inner d hencloses hd)
  · intro h v hv inner d hencloses hd
    exact (hfields inner d hd).mp (h v hv inner d hencloses hd)

theorem generateModule_of_plan {schema : Schema} (options : ModuleOptions) {source : String}
    {document : Document} {bindings : List Binding} {plan : ModulePlan}
    (hparse : Document.parse source = .ok document)
    (hbindings : Binding.ofDocument schema document = .ok bindings)
    (hplan : ModulePlan.ofBindings schema bindings = .ok plan) :
    generateModule schema options source = .ok (plan.text options bindings) := by
  refine bind_eq_ok.mpr ⟨document, mapError_eq_ok.mpr hparse, ?_⟩
  refine bind_eq_ok.mpr ⟨bindings, hbindings, ?_⟩
  exact bind_eq_ok.mpr ⟨plan, hplan, rfl⟩

/-- The records of results always have distinct fields. All records of a module have them exactly if no
operation has a collision. -/
theorem generateModule_distinct_iff {schema : Schema} {options : ModuleOptions}
    {source text : String} {document : Document}
    (hinputs : ∀ d ∈ schema.types, (d.inputFields.map InputValue.name).Nodup)
    (hparse : Document.parse source = .ok document)
    (hvariables : ∀ op ∈ document.operations, (op.parameters.map VariableDefinition.name).Nodup)
    (h : generateModule schema options source = .ok text) :
    ∃ bindings plan, Binding.ofDocument schema document = .ok bindings ∧
      ModulePlan.ofBindings schema bindings = .ok plan ∧ text = plan.text options bindings ∧
      (∀ binding ∈ bindings, binding.type.HasDistinctFields) ∧
      ((∀ fields, EmitsRecord bindings fields → (fields.map Prod.fst).Nodup) ↔
        ∀ op ∈ document.operations, ¬ op.HasCollision schema) := by
  obtain ⟨read, hread, h⟩ := bind_eq_ok.mp h
  cases hparse.symm.trans (mapError_eq_ok.mp hread)
  obtain ⟨bindings, hbindings, h⟩ := bind_eq_ok.mp h
  obtain ⟨plan, hplan, h⟩ := bind_eq_ok.mp h
  cases h
  obtain ⟨index, -, hall⟩ := Binding.ofDocument_eq_ok hbindings
  have hresults : ∀ binding ∈ bindings, binding.type.HasDistinctFields := by
    intro binding hbinding
    obtain ⟨d, -, hof⟩ := exists_of_mem_right hall hbinding
    obtain ⟨parent, shape, label, -, hshape, htype, -⟩ := Binding.ofDefinition_eq_ok hof
    rw [htype]
    exact expand_hasDistinctFields d.chain d.selections parent shape hshape
  refine ⟨bindings, plan, hbindings, hplan, rfl, hresults, ?_⟩
  rw [emitsRecord_nodup_iff]
  constructor
  · intro hdistinct op hop
    have hd := Document.mem_operations.mp hop
    obtain ⟨binding, hbinding, hof⟩ := exists_of_mem_right hall.flip hd
    rw [Operation.not_hasCollision_iff hinputs (hvariables op hop),
      ← Binding.variablesRecord_hasDistinctFields hof]
    exact (hdistinct binding hbinding).2
  · intro hfree binding hbinding
    refine ⟨hresults binding hbinding, ?_⟩
    obtain ⟨d, hd, hof⟩ := exists_of_mem_right hall hbinding
    cases d with
    | operation op =>
      have hop := Document.mem_operations.mpr hd
      rw [Binding.variablesRecord_hasDistinctFields hof,
        ← Operation.not_hasCollision_iff hinputs (hvariables op hop)]
      exact hfree op hop
    | fragment fragment =>
      rw [variablesRecord, Binding.ofFragment_inputs hof]
      exact ElmType.hasDistinctFields_record.mpr ⟨List.nodup_nil, by simp⟩

namespace Sample

def page : ModuleOptions := ⟨"Api", "/graphql", .get⟩

/-- A query whose variables have Elm names of their own. -/
def sidesText : String := "query q($s: Side!, $n: Int) \x7b q \x7d"

def sidesDocument : Document := (Document.parse sidesText).toOption.getD ⟨[]⟩

def sidesBinding : Binding where
  kind := .query
  name := "q"
  typeName := "Q"
  type := .record [(Naming.valueName "q", .maybe .int)]
  decoder := .map (.record (some "Q") [Naming.valueName "q"])
    [.maybe (.field "q" (.primitive .int))]
  inputs :=
    [⟨"s", Naming.valueName "s", ⟨.record [(Naming.valueName "size", .maybe .int)],
      .object [⟨"size", Naming.valueName "size", .maybe .int⟩]⟩⟩,
    ⟨"n", Naming.valueName "n", ⟨.maybe .int, .maybe .int⟩⟩]
  document := sidesText

/-- A query with two variables of one Elm name. -/
def idsText : String := "query q($id: Int, $_id: Int) \x7b q \x7d"

def idsDocument : Document := (Document.parse idsText).toOption.getD ⟨[]⟩

def idsBinding : Binding where
  kind := .query
  name := "q"
  typeName := "Q"
  type := .record [(Naming.valueName "q", .maybe .int)]
  decoder := .map (.record (some "Q") [Naming.valueName "q"])
    [.maybe (.field "q" (.primitive .int))]
  inputs := [⟨"id", Naming.valueName "id", ⟨.maybe .int, .maybe .int⟩⟩,
    ⟨"_id", Naming.valueName "_id", ⟨.maybe .int, .maybe .int⟩⟩]
  document := idsText

theorem parse_inputs :
    Document.parse sidesText = .ok sidesDocument ∧ Document.parse idsText = .ok idsDocument :=
  ⟨eq_ok_getD (by decide +kernel) _, eq_ok_getD (by decide +kernel) _⟩

theorem nodup_inputs : ∀ d ∈ inputs.types, (d.inputFields.map InputValue.name).Nodup := by
  decide

/-- In GraphQL the variables of both queries have distinct names; those of the first one do not collide. -/
theorem variables_inputs :
    (∀ op ∈ sidesDocument.operations, (op.parameters.map VariableDefinition.name).Nodup) ∧
      (∀ op ∈ idsDocument.operations, (op.parameters.map VariableDefinition.name).Nodup) ∧
      ∀ op ∈ sidesDocument.operations,
        (∀ v ∈ op.parameters, ∀ w ∈ op.parameters, ¬ Naming.Collide v.name w.name) ∧
          ∀ v ∈ op.parameters, v.type.baseName = "Side" ∨ v.type.baseName = "Int" := by
  decide +kernel

theorem not_hasCollision_sidesDocument :
    ∀ op ∈ sidesDocument.operations, ¬ op.HasCollision inputs := by
  have hfields : ∀ field ∈ sideInput.fields, ∀ other ∈ sideInput.fields,
      ¬ Naming.Collide field.name other.name := by
    decide
  obtain ⟨-, -, hvariables⟩ := variables_inputs
  obtain ⟨-, hside, hint, -⟩ := get?_inputs
  intro op hop hcollision
  obtain ⟨hnames, htypes⟩ := hvariables op hop
  rcases hcollision with ⟨v, hv, w, hw, hcollide⟩ | ⟨v, hv, inner, d, hencloses, hd, hcollide⟩
  · exact hnames v hv w hw hcollide
  · have hinner : inner = "Side" ∨ inner = "Int" := by
      rcases htypes v hv with htype | htype
      · exact encloses_side (htype ▸ hencloses)
      · exact .inr (encloses_int (htype ▸ hencloses))
    obtain ⟨field, hfield, other, hother, hcollide⟩ := hcollide
    rcases hinner with rfl | rfl
    · cases hside.symm.trans hd
      exact hfields field hfield other hother hcollide
    · cases hint.symm.trans hd

theorem ofBindings_inputs :
    (∃ plan, ModulePlan.ofBindings inputs [sidesBinding] = .ok plan) ∧
      ∃ plan, ModulePlan.ofBindings inputs [idsBinding] = .ok plan :=
  ⟨exists_eq_ok (by rfl), exists_eq_ok (by rfl)⟩

theorem variablesRecord_idsBinding :
    variablesRecord idsBinding = .record [("id", .maybe .int), ("id", .maybe .int)] := by
  rfl

section

attribute [local irreducible] Naming.valueName

theorem ofDocument_inputs :
    Binding.ofDocument inputs sidesDocument = .ok [sidesBinding] ∧
      Binding.ofDocument inputs idsDocument = .ok [idsBinding] := by
  constructor
  · cbv
  · cbv

end

end Sample

theorem generateModule_distinct_iff_sides :
    ∃ plan, generateModule Sample.inputs Sample.page Sample.sidesText =
        .ok (ModulePlan.text plan Sample.page [Sample.sidesBinding]) ∧
      ∀ fields, EmitsRecord [Sample.sidesBinding] fields → (fields.map Prod.fst).Nodup := by
  obtain ⟨plan, hplan⟩ := Sample.ofBindings_inputs.1
  have htext := generateModule_of_plan Sample.page Sample.parse_inputs.1
    Sample.ofDocument_inputs.1 hplan
  obtain ⟨bindings, -, hbindings, -, -, -, hiff⟩ := generateModule_distinct_iff Sample.nodup_inputs
    Sample.parse_inputs.1 Sample.variables_inputs.1 htext
  cases Sample.ofDocument_inputs.1.symm.trans hbindings
  exact ⟨plan, htext, hiff.mpr Sample.not_hasCollision_sidesDocument⟩

/-- Variables `id` and `_id` become two fields `id` of one record: the schema is valid, its input objects
have distinct fields and the operation has distinct variables. -/
theorem generateModule_repeats_field :
    Sample.inputs.IsLoaded ∧ Sample.inputs.validate = .ok () ∧
      (∀ d ∈ Sample.inputs.types, (d.inputFields.map InputValue.name).Nodup) ∧
      Document.parse Sample.idsText = .ok Sample.idsDocument ∧
      (∀ op ∈ Sample.idsDocument.operations,
        (op.parameters.map VariableDefinition.name).Nodup) ∧
      ∃ plan, generateModule Sample.inputs Sample.page Sample.idsText =
          .ok (ModulePlan.text plan Sample.page [Sample.idsBinding]) ∧
        ElmType.aliasDeclaration "QVariables" (.record [("id", .maybe .int), ("id", .maybe .int)]) ∈
          plan.blocks Sample.page [Sample.idsBinding] ∧
        EmitsRecord [Sample.idsBinding] [("id", .maybe .int), ("id", .maybe .int)] := by
  obtain ⟨plan, hplan⟩ := Sample.ofBindings_inputs.2
  refine ⟨⟨_, .inl Sample.parseDefinitions_inputsText⟩, Sample.validate_inputs, Sample.nodup_inputs,
    Sample.parse_inputs.2, Sample.variables_inputs.2.1, plan, ?_, ?_, ?_⟩
  · exact generateModule_of_plan Sample.page Sample.parse_inputs.2 Sample.ofDocument_inputs.2 hplan
  · rw [← Sample.variablesRecord_idsBinding]
    exact plan.variablesRecord_mem_blocks Sample.page (List.mem_singleton_self _) rfl
      (List.cons_ne_nil _ _)
  · exact .inr ⟨Sample.idsBinding, List.mem_singleton_self _, Sample.variablesRecord_idsBinding⟩

end ElmBindings
