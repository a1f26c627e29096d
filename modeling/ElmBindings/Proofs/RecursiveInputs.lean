import ElmBindings.Proofs.Validated

set_option autoImplicit false

/-! # Input objects that contain themselves

`Schema.namedInput` goes through the graph of input objects and not through syntax: `visited` holds the
input objects on the way to the one at hand. `Schema.Asks` lists the calls that a call makes; each has one
more input object visited, so calls end (`Schema.wellFounded_asks`).

The input for a type is refused exactly if an input object that can be reached from it contains itself
(`Schema.input_recursive_iff`). An input that is made is a finite tree (`Schema.IsInput`), which leaves no room
for a cycle. Conversely an object is refused because it is visited, and then it is reached from itself: what is
visited is on the way, and nothing stays visited after the way has been left. An input object that is used
in two places is therefore accepted. -/

namespace ElmBindings

/-! ## References -/

/-- Whether no non-null wrapper stands directly around another one. -/
def TypeRef.isPlain : TypeRef → Bool
  | named _ => true
  | list item => item.isPlain
  | nonNull inner => !inner.isNonNull && inner.isPlain

/-- The fields of an input object. -/
def TypeDef.inputFields : TypeDef → List InputValue
  | .input d => d.fields
  | _ => []

namespace Schema

variable {schema : Schema}

theorem resolves_of_isPlain {ref : TypeRef} {d : TypeDef} (hplain : ref.isPlain = true)
    (hd : schema.get? ref.baseName = some d) : schema.Resolves ref := by
  intro context
  induction ref with
  | named name =>
    rw [TypeRef.baseName] at hd
    rw [resolve, hd]
    exact ⟨_, rfl⟩
  | list item ih =>
    obtain ⟨type, htype⟩ := ih hplain hd
    exact ⟨_, map_eq_ok.mpr ⟨type, htype, rfl⟩⟩
  | nonNull inner ih =>
    rw [TypeRef.isPlain, Bool.and_eq_true, Bool.not_eq_true'] at hplain
    obtain ⟨type, htype⟩ := ih hplain.2 hd
    rw [resolve, hplain.1]
    exact ⟨_, map_eq_ok.mpr ⟨type, htype, rfl⟩⟩

/-! ## Fields one by one -/

/-- The input for one field of an input object. -/
def fieldInput (schema : Schema) (visited : List String) (object : String) (field : InputValue) :
    Except GenerateError (String × InputType) := do
  let _ ← schema.resolved (object ++ "." ++ field.name) field.type
  let base ← schema.namedInput visited field.type.baseName
  .ok (field.name, base.wrapped true field.type)

theorem fieldInputs_eq_mapM (visited : List String) (object : String) (fields : List InputValue) :
    schema.fieldInputs visited object fields =
      fields.mapM (schema.fieldInput visited object) := by
  induction fields with
  | nil =>
    rw [fieldInputs]
    rfl
  | cons field fields ih =>
    rw [fieldInputs, List.mapM_cons, fieldInput, ih]
    cases schema.resolved (object ++ "." ++ field.name) field.type with
    | error e => rfl
    | ok type =>
      cases schema.namedInput visited field.type.baseName with
      | error e => rfl
      | ok base => rfl

/-- The input that is made for a type, or any input if there is none. -/
def inputOf (schema : Schema) (visited : List String) (name : String) : InputType :=
  (schema.namedInput visited name).toOption.getD (scalarInput name)

theorem fieldInput_eq_ok {visited : List String} {object : String} {field : InputValue}
    {entry : String × InputType} (h : schema.fieldInput visited object field = .ok entry) :
    schema.namedInput visited field.type.baseName =
        .ok (schema.inputOf visited field.type.baseName) ∧
      (field.name, (schema.inputOf visited field.type.baseName).wrapped true field.type) = entry := by
  obtain ⟨type, -, h⟩ := bind_eq_ok.mp h
  obtain ⟨base, hbase, h⟩ := bind_eq_ok.mp h
  cases h
  have hof : schema.inputOf visited field.type.baseName = base := by
    rw [inputOf, hbase]
    rfl
  rw [hof]
  exact ⟨hbase, rfl⟩

theorem fieldInputs_eq_ok {visited : List String} {object : String} {fields : List InputValue}
    {entries : List (String × InputType)} (h : schema.fieldInputs visited object fields = .ok entries) :
    (∀ field ∈ fields, schema.namedInput visited field.type.baseName =
        .ok (schema.inputOf visited field.type.baseName)) ∧
      entries = fields.map fun field =>
        (field.name, (schema.inputOf visited field.type.baseName).wrapped true field.type) := by
  rw [fieldInputs_eq_mapM] at h
  have hall := forall₂_of_mapM_eq_ok h
  constructor
  · intro field hfield
    obtain ⟨entry, -, hentry⟩ := exists_of_mem_right hall.flip hfield
    exact (fieldInput_eq_ok hentry).1
  · rw [eq_comm, ← List.forall₂_eq_eq_eq, List.forall₂_map_left_iff]
    exact hall.imp fun field entry hentry => (fieldInput_eq_ok hentry).2

/-- Where the inputs for fields cannot be made, the reference of one of them does not resolve or its type
is refused. -/
theorem fieldInputs_eq_error {visited : List String} {object : String} {fields : List InputValue}
    {e : GenerateError} (h : schema.fieldInputs visited object fields = .error e) :
    ∃ field ∈ fields, (∃ cause, e = .schema cause) ∨
      schema.namedInput visited field.type.baseName = .error e := by
  rw [fieldInputs_eq_mapM] at h
  obtain ⟨field, hfield, h⟩ := exists_of_mapM_eq_error h
  refine ⟨field, hfield, ?_⟩
  rcases bind_eq_error.mp h with hfail | ⟨type, -, h⟩
  · obtain ⟨cause, -, hcause⟩ := mapError_eq_error.mp hfail
    exact .inl ⟨cause, hcause.symm⟩
  · rcases bind_eq_error.mp h with hfail | ⟨base, -, h⟩
    · exact .inr hfail
    · cases h

/-! ## Inputs that are made -/

/-- What the input for a type can be: that of a scalar or of an enum, or a record of the inputs for the
types of an input object's fields, under the wrappers of the fields. -/
inductive IsInput (schema : Schema) : String → InputType → Prop
  | scalar {name : String} {d : ScalarDef} (hd : schema.get? name = some (.scalar d)) :
    IsInput schema name (scalarInput d.name)
  | enum {name : String} {d : EnumDef} (hd : schema.get? name = some (.enum d)) :
    IsInput schema name ⟨.enum d.name, .enum d.name⟩
  | object {name : String} {d : InputObjectDef} {base : String → InputType}
    (hd : schema.get? name = some (.input d))
    (hfields : ∀ field ∈ d.fields, IsInput schema field.type.baseName (base field.type.baseName)) :
    IsInput schema name (objectInput (d.fields.map fun field =>
      (field.name, (base field.type.baseName).wrapped true field.type)))

theorem isInput_of_namedInput {visited : List String} {name : String} {input : InputType}
    (h : schema.namedInput visited name = .ok input) : schema.IsInput name input := by
  rw [namedInput] at h
  split at h
  · cases h
  · next hd =>
    cases h
    exact .scalar hd
  · next hd =>
    cases h
    exact .enum hd
  · next d hd =>
    by_cases hvisited : d.name ∈ visited
    · rw [if_pos hvisited] at h
      cases h
    · rw [if_neg hvisited] at h
      obtain ⟨entries, hentries, rfl⟩ := map_eq_ok.mp h
      obtain ⟨hfields, rfl⟩ := fieldInputs_eq_ok hentries
      have _hless : schema.unvisited (d.name :: visited) < schema.unvisited visited :=
        unvisited_cons_lt (mem_of_get? hd) hvisited
      refine .object hd ?_
      intro field hfield
      exact isInput_of_namedInput (hfields field hfield)
  · cases h
  · cases h
  · cases h
termination_by schema.unvisited visited
decreasing_by
  exact _hless

/-! ## Cycles -/

/-- Whether an input object has a field of a type, under any wrappers. -/
def HasInput (schema : Schema) (outer inner : String) : Prop :=
  ∃ d, schema.get? outer = some (.input d) ∧ ∃ field ∈ d.fields, field.type.baseName = inner

/-- Whether an input object has a field whose type is or encloses the object again. -/
def ContainsItself (schema : Schema) (name : String) : Prop :=
  ∃ inner, schema.HasInput name inner ∧ schema.Encloses inner name

theorem Encloses.eq_of_leaf {name inner : String} (h : schema.Encloses name inner)
    (hleaf : ∀ d, schema.get? name ≠ some (.input d)) : inner = name := by
  cases h with
  | self => rfl
  | field hd => exact absurd hd (hleaf _)

theorem not_containsItself_of_leaf {name : String} (hleaf : ∀ d, schema.get? name ≠ some (.input d)) :
    ∀ inner, schema.Encloses name inner → ¬ schema.ContainsItself inner := by
  intro inner hencloses hcycle
  obtain ⟨_, ⟨d, hd, -⟩, -⟩ := hcycle
  rw [hencloses.eq_of_leaf hleaf] at hd
  exact hleaf d hd

/-- An input that is made is a finite tree, so nothing that its type encloses contains itself. -/
theorem IsInput.not_containsItself {name : String} {input : InputType} (h : schema.IsInput name input) :
    ∀ inner, schema.Encloses name inner → ¬ schema.ContainsItself inner := by
  induction h with
  | scalar hd => exact not_containsItself_of_leaf (by simp [hd])
  | enum hd => exact not_containsItself_of_leaf (by simp [hd])
  | @object name d base hd hfields ih =>
    intro inner hencloses
    cases hencloses with
    | self =>
      -- a cycle through the object is one through the type of a field
      intro hcycle
      obtain ⟨_, ⟨d', hd', field, hfield, rfl⟩, hback⟩ := hcycle
      cases hd.symm.trans hd'
      exact ih field hfield name hback ⟨_, ⟨d, hd, field, hfield, rfl⟩, hback⟩
    | field hd' hfield hencloses =>
      cases hd.symm.trans hd'
      exact ih _ hfield inner hencloses

/-- An object that is refused as recursive is reached, and it is on the way or contains itself. -/
theorem containsItself_of_namedInput (hindexed : schema.Indexed) {visited : List String}
    {name object : String} (h : schema.namedInput visited name = .error (.recursiveInputType object)) :
    schema.Encloses name object ∧ (object ∈ visited ∨ schema.ContainsItself object) := by
  rw [namedInput] at h
  split at h
  · cases h
  · cases h
  · cases h
  · next d hd =>
    have hname : d.name = name := hindexed.name_eq hd
    by_cases hvisited : d.name ∈ visited
    · rw [if_pos hvisited] at h
      cases h
      refine ⟨?_, .inl hvisited⟩
      rw [hname]
      exact .self name
    · rw [if_neg hvisited] at h
      obtain ⟨field, hfield, ⟨cause, hcause⟩ | hinner⟩ := fieldInputs_eq_error (map_eq_error.mp h)
      · cases hcause
      · have _hless : schema.unvisited (d.name :: visited) < schema.unvisited visited :=
          unvisited_cons_lt (mem_of_get? hd) hvisited
        obtain ⟨hencloses, hreached⟩ := containsItself_of_namedInput hindexed hinner
        refine ⟨.field hd hfield hencloses, ?_⟩
        rcases hreached with hreached | hcycle
        · rcases List.mem_cons.mp hreached with hself | hreached
          · -- the way leads back to this object
            rw [hself, hname] at hencloses ⊢
            exact .inr ⟨_, ⟨d, hd, field, hfield, rfl⟩, hencloses⟩
          · exact .inl hreached
        · exact .inr hcycle
  · cases h
  · cases h
  · cases h
termination_by schema.unvisited visited
decreasing_by
  exact _hless

/-! ## Calls -/

/-- Whether the input for a type, with some input objects visited, is made from the input for another
type, with one more visited: `outer` and `inner` are the arguments of two calls of `namedInput`. -/
def Asks (schema : Schema) (outer inner : List String × String) : Prop :=
  ∃ d, schema.get? outer.2 = some (.input d) ∧ d.name ∉ outer.1 ∧ inner.1 = d.name :: outer.1 ∧
    ∃ field ∈ d.fields, field.type.baseName = inner.2

/-- Calls end: there is no endless sequence of calls that each ask for the next. -/
theorem wellFounded_asks (schema : Schema) :
    WellFounded fun inner outer : List String × String => schema.Asks outer inner := by
  refine Subrelation.wf ?_ (measure fun call : List String × String => schema.unvisited call.1).wf
  intro inner outer hasks
  obtain ⟨d, hd, hvisited, hinner, -⟩ := hasks
  show schema.unvisited inner.1 < schema.unvisited outer.1
  rw [hinner]
  exact unvisited_cons_lt (mem_of_get? hd) hvisited

/-! ## Refused inputs -/

/-- Whether no field of an input object has an output type. -/
def hasInputFields (schema : Schema) : Bool :=
  schema.types.all fun d => d.inputFields.all fun field =>
    !(schema.get? field.type.baseName).any TypeDef.isOutput

theorem isOutput_of_hasInputFields (h : schema.hasInputFields = true) {name : String}
    {d : InputObjectDef} (hd : schema.get? name = some (.input d)) {field : InputValue}
    (hfield : field ∈ d.fields) {type : TypeDef}
    (htype : schema.get? field.type.baseName = some type) : type.isOutput = false := by
  have hall := List.all_eq_true.mp (List.all_eq_true.mp h _ (mem_of_get? hd)) field hfield
  simpa [htype] using hall

/-- Where no input object has a field of an output type, a type that is none encloses none. -/
theorem Encloses.isOutput_eq_false (hfields : schema.hasInputFields = true) {name inner : String}
    (h : schema.Encloses name inner)
    (hname : ∀ type, schema.get? name = some type → type.isOutput = false) :
    ∀ type, schema.get? inner = some type → type.isOutput = false := by
  induction h with
  | self name => exact hname
  | field hd hfield _ ih =>
    apply ih
    intro type htype
    exact isOutput_of_hasInputFields hfields hd hfield htype

/-- A reference that resolves is refused for the sake of its type alone. -/
theorem Resolves.input_eq_error {ref : TypeRef} (hresolves : schema.Resolves ref) (context : String)
    (e : GenerateError) :
    schema.input context ref = .error e ↔ schema.namedInput [] ref.baseName = .error e := by
  obtain ⟨type, htype⟩ := hresolves context
  rw [input, resolved, htype]
  cases schema.namedInput [] ref.baseName with
  | error e' => rfl
  | ok base =>
    constructor
    · intro h
      cases h
    · intro h
      cases h

/-- The input for a type is refused exactly if an input object that the type encloses contains itself, and
the object that is blamed is such a one. All other inputs are made, also where an input object is used in
several places. -/
theorem input_recursive_iff (hschema : schema.IsLoaded) (hvalid : schema.validate = .ok ())
    (hfields : schema.hasInputFields = true) {ref : TypeRef} (hplain : ref.isPlain = true)
    {d : TypeDef} (hd : schema.get? ref.baseName = some d) (hinput : d.isOutput = false)
    (context : String) :
    (WellFounded fun inner outer : List String × String => schema.Asks outer inner) ∧
      ((∃ object, schema.input context ref = .error (.recursiveInputType object)) ↔
        ∃ name, schema.Encloses ref.baseName name ∧ schema.ContainsItself name) ∧
      ((¬ ∃ name, schema.Encloses ref.baseName name ∧ schema.ContainsItself name) →
        ∃ input, schema.input context ref = .ok input) ∧
      ∀ object, schema.input context ref = .error (.recursiveInputType object) →
        schema.Encloses ref.baseName object ∧ schema.ContainsItself object := by
  have hindexed := hschema.indexed
  have hsound := sound_of_validate hindexed hvalid
  have hresolves := resolves_of_isPlain hplain hd
  have hbase : ∀ type, schema.get? ref.baseName = some type → type.isOutput = false := by
    intro type htype
    cases hd.symm.trans htype
    exact hinput
  -- nothing but a cycle makes the type fail, since it encloses no output type
  have hfails : ∀ e, schema.namedInput [] ref.baseName = .error e → ∃ object,
      e = .recursiveInputType object ∧ schema.Encloses ref.baseName object ∧
        schema.ContainsItself object := by
    intro e he
    rcases namedInput_error hindexed hsound hd he with
      ⟨object, rfl⟩ | ⟨inner, type, -, hencloses, hinner, hout⟩
    · obtain ⟨hencloses, hvisited | hcycle⟩ := containsItself_of_namedInput hindexed he
      · cases hvisited
      · exact ⟨object, rfl, hencloses, hcycle⟩
    · rw [hencloses.isOutput_eq_false hfields hbase type hinner] at hout
      cases hout
  have hmade : (¬ ∃ name, schema.Encloses ref.baseName name ∧ schema.ContainsItself name) →
      ∃ input, schema.input context ref = .ok input := by
    intro hnone
    cases hmakes : schema.input context ref with
    | ok input => exact ⟨input, rfl⟩
    | error e =>
      obtain ⟨object, -, hobject⟩ := hfails e ((hresolves.input_eq_error context e).mp hmakes)
      exact absurd ⟨object, hobject⟩ hnone
  have hblames : ∀ object, schema.input context ref = .error (.recursiveInputType object) →
      schema.Encloses ref.baseName object ∧ schema.ContainsItself object := by
    intro object hobject
    obtain ⟨name, heq, hname⟩ := hfails _ ((hresolves.input_eq_error context _).mp hobject)
    cases heq
    exact hname
  refine ⟨wellFounded_asks schema, ⟨?_, ?_⟩, hmade, hblames⟩
  · intro ⟨object, hobject⟩
    exact ⟨object, hblames object hobject⟩
  · intro ⟨name, hencloses, hcycle⟩
    cases hnamed : schema.namedInput [] ref.baseName with
    | ok base =>
      exact absurd hcycle ((isInput_of_namedInput hnamed).not_containsItself name hencloses)
    | error e =>
      obtain ⟨object, rfl, -⟩ := hfails e hnamed
      exact ⟨object, (hresolves.input_eq_error context _).mpr hnamed⟩

end Schema

namespace Sample

/-- Input objects as text: one that has another one twice, and one that contains itself. -/
def inputsText : String :=
  "input Pair \x7b left: Side right: [Side!]! \x7d input Side \x7b size: Int \x7d " ++
    "input Loop \x7b next: [Loop] \x7d type Query \x7b q: Int \x7d"

def pairInput : InputObjectDef :=
  ⟨"Pair", none, [⟨"left", .named "Side", none⟩,
    ⟨"right", .nonNull (.list (.nonNull (.named "Side"))), none⟩]⟩

def sideInput : InputObjectDef := ⟨"Side", none, [⟨"size", .named "Int", none⟩]⟩

def loopInput : InputObjectDef := ⟨"Loop", none, [⟨"next", .list (.named "Loop"), none⟩]⟩

/-- The schema that is read from the text. -/
def inputs : Schema :=
  [TypeDef.input pairInput, .input sideInput, .input loopInput,
    .object ⟨"Query", none, [], [fieldDef "q" (.named "Int")]⟩].foldl Schema.add (.ofQuery "Query")

theorem parseDefinitions_inputsText : Schema.parseDefinitions inputsText = .ok inputs := by
  decide +kernel

theorem validate_inputs : inputs.validate = .ok () := by
  rfl

theorem hasInputFields_inputs : inputs.hasInputFields = true := by
  rfl

theorem get?_inputs :
    inputs.get? "Pair" = some (.input pairInput) ∧ inputs.get? "Side" = some (.input sideInput) ∧
      inputs.get? "Int" = some (.scalar ⟨"Int", none⟩) ∧
      inputs.get? "Loop" = some (.input loopInput) :=
  ⟨rfl, rfl, rfl, rfl⟩

theorem encloses_int {name : String} (h : inputs.Encloses "Int" name) : name = "Int" :=
  h.eq_of_leaf (by simp [get?_inputs.2.2.1])

theorem encloses_side {name : String} (h : inputs.Encloses "Side" name) :
    name = "Side" ∨ name = "Int" := by
  cases h with
  | self => exact .inl rfl
  | field hd hfield h =>
    cases get?_inputs.2.1.symm.trans hd
    cases List.mem_singleton.mp hfield
    exact .inr (encloses_int h)

theorem not_containsItself_pair :
    ¬ ∃ name, inputs.Encloses "Pair" name ∧ inputs.ContainsItself name := by
  intro ⟨name, hencloses, inner, ⟨d, hd, field, hfield, hinner⟩, hback⟩
  obtain ⟨hpair, hside, hint, -⟩ := get?_inputs
  -- whatever field of a pair is followed, it leads to a side
  have hstep : ∀ other ∈ pairInput.fields, other.type.baseName = "Side" := by decide
  cases hencloses with
  | self =>
    cases hpair.symm.trans hd
    rw [← hinner, hstep field hfield] at hback
    simpa using encloses_side hback
  | field hd' hfield' h =>
    cases hpair.symm.trans hd'
    rw [hstep _ hfield'] at h
    rcases encloses_side h with rfl | rfl
    · cases hside.symm.trans hd
      cases List.mem_singleton.mp hfield
      rw [← hinner] at hback
      simpa using encloses_int hback
    · cases hint.symm.trans hd

theorem containsItself_loop : inputs.ContainsItself "Loop" :=
  ⟨"Loop", ⟨loopInput, get?_inputs.2.2.2, _, List.mem_singleton_self _, rfl⟩, .self "Loop"⟩

end Sample

/-- A pair has a side in two places and is accepted; a loop is refused. -/
theorem Schema.input_recursive_iff_pair :
    Sample.inputs.IsLoaded ∧ Sample.inputs.validate = .ok () ∧
      Sample.inputs.hasInputFields = true ∧
      (∃ input, Sample.inputs.input "$p" (.nonNull (.named "Pair")) = .ok input) ∧
      ∃ object, Sample.inputs.input "$l" (.list (.named "Loop")) =
        .error (.recursiveInputType object) := by
  have hloaded : Sample.inputs.IsLoaded := ⟨_, .inl Sample.parseDefinitions_inputsText⟩
  obtain ⟨hpair, -, -, hloop⟩ := Sample.get?_inputs
  have hpairs := Schema.input_recursive_iff hloaded Sample.validate_inputs
    Sample.hasInputFields_inputs (show (TypeRef.nonNull (.named "Pair")).isPlain = true from rfl)
    hpair rfl "$p"
  have hloops := Schema.input_recursive_iff hloaded Sample.validate_inputs
    Sample.hasInputFields_inputs (show (TypeRef.list (.named "Loop")).isPlain = true from rfl)
    hloop rfl "$l"
  refine ⟨hloaded, Sample.validate_inputs, Sample.hasInputFields_inputs, ?_, ?_⟩
  · exact hpairs.2.2.1 Sample.not_containsItself_pair
  · exact hloops.2.1.mpr ⟨"Loop", .self "Loop", Sample.containsItself_loop⟩

end ElmBindings
