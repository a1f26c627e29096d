import ElmBindings.Proofs.EnumCode
import ElmBindings.Proofs.RecordFields

set_option autoImplicit false

/-! # Encoding of variables

The Elm type of a variable and its encoder are two trees that are built side by side. `ElmType.admits` says
which Elm values are of a type, and `Encoder.run` what an encoder makes of a value: nothing at all where it
is stuck. `Schema.ValidInput` says, from the schema alone, which JSON values a type reference takes.

Where no record has two fields of one name, the encoder is never stuck on a value of the type. What it gives
is valid for the reference exactly if every float that is not optional is finite (`Schema.input_encodes`):
JSON has no other numbers, so Elm writes NaN and the infinities as `null`, also where the schema takes no
`null` (`Schema.not_input_encodes_nan`). -/

namespace ElmBindings

/-! ## Values of Elm -/

/-- A value that Elm code can give for a variable. Enums are values of custom types, so they are
constructors. -/
inductive ElmValue
  | int (value : Int)
  | float (value : Binary64)
  | bool (value : Bool)
  | string (value : String)
  | constructor (name : String)
  | nothing
  | just (value : ElmValue)
  | list (items : List ElmValue)
  | record (fields : List (String × ElmValue))

namespace ElmValue

/-- The value of a field of a record. -/
def field? (name : String) : ElmValue → Option ElmValue
  | record fields => (fields.find? (·.1 == name)).map (·.2)
  | _ => none

/-- Whether a value is written as `null`: it is missing, or it is a float that JSON has no number for. -/
def isNull : ElmValue → Bool
  | nothing => true
  | just value => value.isNull
  | float value => !value.isFinite
  | _ => false

mutual

/-- Whether all floats in a value are finite, apart from optional ones: these may be written as `null`. -/
def isEncodable : ElmValue → Bool
  | float value => value.isFinite
  | just value => value.isNull || value.isEncodable
  | list items => areEncodable items
  | record fields => fieldsEncodable fields
  | _ => true

/-- Whether all items are encodable. -/
def areEncodable : List ElmValue → Bool
  | [] => true
  | item :: items => item.isEncodable && areEncodable items

/-- Whether the values of all fields are encodable. -/
def fieldsEncodable : List (String × ElmValue) → Bool
  | [] => true
  | (_, value) :: fields => value.isEncodable && fieldsEncodable fields

end

theorem field?_of_mem {fields : List (String × ElmValue)} (h : (fields.map Prod.fst).Nodup)
    {entry : String × ElmValue} (hentry : entry ∈ fields) :
    (record fields).field? entry.1 = some entry.2 := by
  rw [field?, find?_of_nodup_map h hentry]
  rfl

end ElmValue

namespace ElmType

mutual

/-- Whether a value is of a type that a variable can have, where the enums have the given names. -/
def admits (enums : EnumIndex) : ElmType → ElmValue → Bool
  | int, .int _ => true
  | float, .float _ => true
  | bool, .bool _ => true
  | string, .string _ => true
  | enum name, .constructor c =>
    (enums.get? name).any fun enum => enum.constructors.any fun entry => entry.2 == c
  | maybe _, .nothing => true
  | maybe inner, .just value => inner.admits enums value
  | list item, .list values => values.all fun value => item.admits enums value
  | record fields, .record values => fieldsAdmit enums fields values
  | _, _ => false

/-- Whether values are those of the fields of a record, which are written in the order of its type. -/
def fieldsAdmit (enums : EnumIndex) : List (String × ElmType) → List (String × ElmValue) → Bool
  | [], [] => true
  | (name, type) :: fields, (key, value) :: values =>
    name == key && type.admits enums value && fieldsAdmit enums fields values
  | _, _ => false

end

variable {enums : EnumIndex}

/-! The shapes of the values of a type. -/

theorem admits_enum {name : String} {value : ElmValue} (h : (enum name).admits enums value = true) :
    ∃ names entry, enums.get? name = some names ∧ entry ∈ names.constructors ∧
      value = .constructor entry.2 := by
  cases value with
  | constructor c =>
    rw [admits, Option.any_eq_true] at h
    obtain ⟨names, hnames, h⟩ := h
    obtain ⟨entry, hentry, heq⟩ := List.any_eq_true.mp h
    exact ⟨names, entry, hnames, hentry, by rw [eq_of_beq heq]⟩
  | _ => simp [admits] at h

theorem admits_maybe {inner : ElmType} {value : ElmValue}
    (h : (maybe inner).admits enums value = true) :
    value = .nothing ∨ ∃ v, value = .just v ∧ inner.admits enums v = true := by
  cases value with
  | nothing => exact .inl rfl
  | just v => exact .inr ⟨v, rfl, by rwa [admits] at h⟩
  | _ => simp [admits] at h

theorem admits_list {item : ElmType} {value : ElmValue} (h : (list item).admits enums value = true) :
    ∃ values, value = .list values ∧ ∀ v ∈ values, item.admits enums v = true := by
  cases value with
  | list values =>
    rw [admits, List.all_eq_true] at h
    exact ⟨values, rfl, h⟩
  | _ => simp [admits] at h

theorem admits_record {fields : List (String × ElmType)} {value : ElmValue}
    (h : (record fields).admits enums value = true) :
    ∃ values, value = .record values ∧ fieldsAdmit enums fields values = true := by
  cases value with
  | record values => exact ⟨values, rfl, by rwa [admits] at h⟩
  | _ => simp [admits] at h

theorem map_fst_of_fieldsAdmit {fields : List (String × ElmType)} {values : List (String × ElmValue)}
    (h : fieldsAdmit enums fields values = true) : values.map Prod.fst = fields.map Prod.fst := by
  induction fields generalizing values with
  | nil =>
    cases values with
    | nil => rfl
    | cons => simp [fieldsAdmit] at h
  | cons field fields ih =>
    cases values with
    | nil => simp [fieldsAdmit] at h
    | cons entry values =>
      simp only [fieldsAdmit, Bool.and_eq_true, beq_iff_eq] at h
      rw [List.map_cons, List.map_cons, ih h.2, h.1.1]

end ElmType

/-! ## Running an encoder -/

namespace Encoder

mutual

/-- What an encoder makes of a value, if it is not stuck. A float that is not finite has no JSON number and
becomes `null`. The encoder of an enum is the one that the module declares: a case distinction over the
constructors. -/
def run (enums : EnumIndex) : Encoder → ElmValue → Option Json
  | int, .int value => some (.int value)
  | float, .float value => some (if value.isFinite then .float value else .null)
  | bool, .bool value => some (.bool value)
  | string, .string value => some (.string value)
  | enum name, .constructor c =>
    ((enums.get? name).bind fun enum => Elm.encodes? enum.encoderCases c).map .string
  | maybe _, .nothing => some .null
  | maybe inner, .just value => inner.run enums value
  | list item, .list values => (values.mapM fun value => item.run enums value).map .array
  | object entries, value => (runEntries enums value entries).map .object
  | _, _ => none

/-- The entries of an object that is made from the fields of a record. -/
def runEntries (enums : EnumIndex) (record : ElmValue) :
    List (ObjectEntry Encoder) → Option (List (String × Json))
  | [] => some []
  | ⟨key, field, encoder⟩ :: entries => do
    let value ← record.field? field
    let json ← encoder.run enums value
    let rest ← runEntries enums record entries
    some ((key, json) :: rest)

end

end Encoder

/-! ## Valid inputs -/

/-- Whether a JSON value is of the kind that a scalar has: that of a built-in scalar, or a string. JSON has
only finite numbers. -/
def ScalarDef.accepts (d : ScalarDef) (json : Json) : Bool :=
  match BuiltinScalar.ofName? d.name, json with
  | some .int, .int _ => true
  | some .float, .int _ => true
  | some .float, .float value => value.isFinite
  | some .boolean, .bool _ => true
  | some .string, .string _ => true
  | some .id, .string _ => true
  | none, .string _ => true
  | _, _ => false

/-- Whether a JSON value is a valid input for a type reference. An input object has an entry for each of
its fields and no other entries. -/
inductive Schema.ValidInput (schema : Schema) : TypeRef → Json → Prop
  | null {ref : TypeRef} (hnullable : ref.isNonNull = false) : ValidInput schema ref .null
  | nonNull {inner : TypeRef} {json : Json} (hnull : json ≠ .null)
    (hinner : ValidInput schema inner json) : ValidInput schema (.nonNull inner) json
  | list {item : TypeRef} {items : List Json} (hitems : ∀ json ∈ items, ValidInput schema item json) :
    ValidInput schema (.list item) (.array items)
  | scalar {name : String} {d : ScalarDef} {json : Json}
    (hd : schema.get? name = some (.scalar d)) (hkind : d.accepts json = true) :
    ValidInput schema (.named name) json
  | enum {name value : String} {d : EnumDef} {values : List String}
    (hd : schema.get? name = some (.enum d)) (hvalues : schema.enumValues? d.name = some values)
    (hvalue : value ∈ values) : ValidInput schema (.named name) (.string value)
  | object {name : String} {d : InputObjectDef} {entries : List (String × Json)}
    (hd : schema.get? name = some (.input d))
    (hkeys : entries.map Prod.fst = d.fields.map InputValue.name)
    (hnodup : (entries.map Prod.fst).Nodup)
    (hfields : ∀ field ∈ d.fields, ∀ json, (field.name, json) ∈ entries →
      ValidInput schema field.type json) :
    ValidInput schema (.named name) (.object entries)

/-! Which values are valid at the parts of a reference. -/

namespace Schema

variable {schema : Schema}

theorem validInput_nonNull {inner : TypeRef} {json : Json} :
    schema.ValidInput (.nonNull inner) json ↔ schema.ValidInput inner json ∧ json ≠ .null := by
  constructor
  · intro h
    cases h with
    | null hnullable => cases hnullable
    | nonNull hnull hinner => exact ⟨hinner, hnull⟩
  · rintro ⟨hinner, hnull⟩
    exact .nonNull hnull hinner

theorem validInput_list {item : TypeRef} {json : Json} :
    schema.ValidInput (.list item) json ∧ json ≠ .null ↔
      ∃ items, json = .array items ∧ ∀ inner ∈ items, schema.ValidInput item inner := by
  constructor
  · rintro ⟨h, hnull⟩
    cases h with
    | null => exact absurd rfl hnull
    | list hitems => exact ⟨_, rfl, hitems⟩
  · rintro ⟨items, rfl, hitems⟩
    exact ⟨.list hitems, by simp⟩

theorem validInput_scalar {name : String} {d : ScalarDef}
    (hd : schema.get? name = some (.scalar d)) {json : Json} :
    schema.ValidInput (.named name) json ∧ json ≠ .null ↔ d.accepts json = true ∧ json ≠ .null := by
  refine and_congr_left fun hnull => ⟨fun h => ?_, .scalar hd⟩
  cases h with
  | null => exact absurd rfl hnull
  | scalar hd' hkind =>
    cases hd.symm.trans hd'
    exact hkind
  | enum hd' => cases hd.symm.trans hd'
  | object hd' => cases hd.symm.trans hd'

/-- A valid input object has one entry for each field, in the order of the fields. -/
theorem validInput_object {name : String} {d : InputObjectDef}
    (hd : schema.get? name = some (.input d)) (hnodup : (d.fields.map InputValue.name).Nodup)
    {json : Json} :
    schema.ValidInput (.named name) json ∧ json ≠ .null ↔
      ∃ entries, json = .object entries ∧ List.Forall₂
        (fun field entry => entry.1 = field.name ∧ schema.ValidInput field.type entry.2)
        d.fields entries := by
  constructor
  · rintro ⟨h, hnull⟩
    cases h with
    | null => exact absurd rfl hnull
    | scalar hd' => cases hd.symm.trans hd'
    | enum hd' => cases hd.symm.trans hd'
    | @object _ d' entries hd' hkeys _ hfields =>
      cases hd.symm.trans hd'
      have hnames : List.Forall₂ (fun field entry => entry.1 = field.name) d.fields entries := by
        rw [← List.forall₂_eq_eq_eq, List.forall₂_map_left_iff, List.forall₂_map_right_iff] at hkeys
        exact hkeys.flip
      obtain ⟨hlength, hnames⟩ := List.forall₂_iff_zip.mp hnames
      refine ⟨entries, rfl, List.forall₂_iff_zip.mpr ⟨hlength, fun {field entry} hpair => ?_⟩⟩
      obtain ⟨hfield, hentry⟩ := List.of_mem_zip hpair
      have hname := hnames hpair
      exact ⟨hname, hfields field hfield entry.2 (hname ▸ hentry)⟩
  · rintro ⟨entries, rfl, h⟩
    have hkeys : entries.map Prod.fst = d.fields.map InputValue.name :=
      map_eq_of_forall₂ h fun field entry hentry => hentry.1
    refine ⟨.object hd hkeys (hkeys ▸ hnodup) ?_, by simp⟩
    intro field hfield json hjson
    obtain ⟨other, hother, hname, hvalid⟩ := exists_of_mem_right h hjson
    rwa [List.inj_on_of_nodup_map hnodup hfield hother hname]

end Schema

/-! ## Encoders that give valid inputs -/

namespace InputType

/-- Whether the encoder of an input runs on every value of its type, and gives JSON with a given property
exactly for the values that are encodable. -/
def Encodes (enums : EnumIndex) (input : InputType) (Valid : Json → Prop) : Prop :=
  ∀ value, input.type.admits enums value = true →
    ∃ json, input.encoder.run enums value = some json ∧ (json = .null ↔ value.isNull = true) ∧
      (Valid json ↔ value.isEncodable = true)

variable {enums : EnumIndex} {input : InputType} {P Q : Json → Prop}

theorem Encodes.congr (h : input.Encodes enums P) (hiff : ∀ json, Q json ↔ P json) :
    input.Encodes enums Q := by
  intro value hvalue
  obtain ⟨json, hrun, hnull, hvalid⟩ := h value hvalue
  exact ⟨json, hrun, hnull, (hiff json).trans hvalid⟩

/-- What may be null may also be a float without a number. -/
theorem Encodes.maybe (h : input.Encodes enums fun json => P json ∧ json ≠ .null) (hnull : P .null) :
    input.maybe.Encodes enums P := by
  intro value hvalue
  rcases ElmType.admits_maybe hvalue with rfl | ⟨v, rfl, hv⟩
  · exact ⟨.null, by simp [InputType.maybe, Encoder.run], by simp [ElmValue.isNull],
      by simp [ElmValue.isEncodable, hnull]⟩
  · obtain ⟨json, hrun, hjson, hvalid⟩ := h v hv
    refine ⟨json, ?_, ?_, ?_⟩
    · rwa [InputType.maybe, Encoder.run]
    · rwa [ElmValue.isNull]
    · rw [ElmValue.isEncodable, Bool.or_eq_true, ← hjson, ← hvalid]
      by_cases heq : json = .null
      · simp [heq, hnull]
      · simp [heq]

theorem Encodes.items (h : input.Encodes enums P) {values : List ElmValue}
    (hvalues : ∀ v ∈ values, input.type.admits enums v = true) :
    ∃ items, (values.mapM fun v => input.encoder.run enums v) = some items ∧
      ((∀ item ∈ items, P item) ↔ ElmValue.areEncodable values = true) := by
  induction values with
  | nil => exact ⟨[], rfl, by simp [ElmValue.areEncodable]⟩
  | cons v values ih =>
    obtain ⟨json, hrun, -, hvalid⟩ := h v (hvalues v List.mem_cons_self)
    obtain ⟨items, hitems, hall⟩ := ih fun w hw => hvalues w (List.mem_cons_of_mem _ hw)
    refine ⟨json :: items, ?_, ?_⟩
    · rw [List.mapM_cons, hrun, hitems]
      rfl
    · rw [List.forall_mem_cons, hvalid, hall, ElmValue.areEncodable, Bool.and_eq_true]

theorem Encodes.list (h : input.Encodes enums P) :
    input.list.Encodes enums fun json => ∃ items, json = .array items ∧ ∀ item ∈ items, P item := by
  intro value hvalue
  obtain ⟨values, rfl, hvalues⟩ := ElmType.admits_list hvalue
  obtain ⟨items, hitems, hall⟩ := h.items hvalues
  refine ⟨.array items, ?_, by simp [ElmValue.isNull], ?_⟩
  · rw [InputType.list, Encoder.run, hitems]
    rfl
  · simp [ElmValue.isEncodable, hall]

end InputType

section

-- names are compared, not unfolded
attribute [local irreducible] Naming.valueName

section

variable {enums : EnumIndex} {α : Type} {name : α → String} {input : α → InputType}
  {Valid : α → Json → Prop}

/-- The entries of an object, one for each field. The fields that are left to encode have values that the
record gives under their names. -/
theorem Encoder.runEntries_of_admits {fields : List α} {record : ElmValue}
    {values : List (String × ElmValue)}
    (hfields : ∀ field ∈ fields, (input field).Encodes enums (Valid field))
    (hadmits : ElmType.fieldsAdmit enums
      (fields.map fun field => (Naming.valueName (name field), (input field).type)) values = true)
    (hlookup : ∀ entry ∈ values, record.field? entry.1 = some entry.2) :
    ∃ entries, runEntries enums record (fields.map fun field =>
        ⟨name field, Naming.valueName (name field), (input field).encoder⟩) = some entries ∧
      (List.Forall₂ (fun field entry => entry.1 = name field ∧ Valid field entry.2) fields entries ↔
        ElmValue.fieldsEncodable values = true) := by
  induction fields generalizing values with
  | nil =>
    cases values with
    | nil => exact ⟨[], rfl, by simp [ElmValue.fieldsEncodable]⟩
    | cons => simp [ElmType.fieldsAdmit] at hadmits
  | cons field fields ih =>
    cases values with
    | nil => simp [ElmType.fieldsAdmit] at hadmits
    | cons entry values =>
      simp only [List.map_cons, ElmType.fieldsAdmit, Bool.and_eq_true, beq_iff_eq] at hadmits
      obtain ⟨⟨hname, hvalue⟩, hrest⟩ := hadmits
      obtain ⟨json, hrun, -, hvalid⟩ := hfields field List.mem_cons_self entry.2 hvalue
      obtain ⟨entries, hentries, hall⟩ := ih
        (fun other hother => hfields other (List.mem_cons_of_mem _ hother)) hrest
        (fun other hother => hlookup other (List.mem_cons_of_mem _ hother))
      refine ⟨(name field, json) :: entries, ?_, ?_⟩
      · rw [List.map_cons, runEntries, hname, hlookup entry List.mem_cons_self]
        simp [hrun, hentries]
      · rw [List.forall₂_cons, hall, ElmValue.fieldsEncodable, Bool.and_eq_true, ← hvalid]
        simp

theorem objectInput_encodes {fields : List α}
    (hnodup : (fields.map fun field => Naming.valueName (name field)).Nodup)
    (hfields : ∀ field ∈ fields, (input field).Encodes enums (Valid field)) :
    (objectInput (fields.map fun field => (name field, input field))).Encodes enums fun json =>
      ∃ entries, json = .object entries ∧
        List.Forall₂ (fun field entry => entry.1 = name field ∧ Valid field entry.2)
          fields entries := by
  intro value hvalue
  simp only [objectInput, List.map_map, Function.comp_def] at hvalue ⊢
  obtain ⟨values, rfl, hadmits⟩ := ElmType.admits_record hvalue
  have hkeys : (values.map Prod.fst).Nodup := by
    rw [ElmType.map_fst_of_fieldsAdmit hadmits, List.map_map]
    exact hnodup
  obtain ⟨entries, hentries, hall⟩ := Encoder.runEntries_of_admits hfields hadmits
    fun entry hentry => ElmValue.field?_of_mem hkeys hentry
  refine ⟨.object entries, ?_, by simp [ElmValue.isNull], ?_⟩
  · rw [Encoder.run, hentries]
    rfl
  · simp [ElmValue.isEncodable, hall]

end

namespace Schema

variable {schema : Schema} {enums : EnumIndex}

theorem optional_encodes {input : InputType} {ref : TypeRef}
    (h : input.Encodes enums fun json => schema.ValidInput ref json ∧ json ≠ .null)
    (href : ref.isNonNull = false) (nullable : Bool) :
    (input.optional nullable).Encodes enums fun json =>
      schema.ValidInput ref json ∧ (nullable = false → json ≠ .null) := by
  cases nullable with
  | true => exact InputType.Encodes.maybe (h.congr fun json => by simp) ⟨.null href, by simp⟩
  | false => exact h.congr fun json => by simp

/-- The wrappers of a reference around an input: null is given only where the reference takes it. -/
theorem wrapped_encodes {base : InputType} {ref : TypeRef}
    (h : base.Encodes enums fun json =>
      schema.ValidInput (.named ref.baseName) json ∧ json ≠ .null) (nullable : Bool) :
    (base.wrapped nullable ref).Encodes enums fun json =>
      schema.ValidInput ref json ∧ (nullable = false → json ≠ .null) := by
  induction ref generalizing nullable with
  | named name => exact optional_encodes h rfl nullable
  | list item ih =>
    refine optional_encodes ((ih h true).list.congr fun json => ?_) rfl nullable
    simpa using validInput_list
  | nonNull inner ih =>
    refine (ih h false).congr fun json => ?_
    rw [validInput_nonNull]
    simp +contextual

theorem scalarInput_encodes {name : String} {d : ScalarDef}
    (hd : schema.get? name = some (.scalar d)) :
    (scalarInput d.name).Encodes enums fun json =>
      schema.ValidInput (.named name) json ∧ json ≠ .null := by
  suffices h : (scalarInput d.name).Encodes enums fun json => d.accepts json = true ∧ json ≠ .null from
    h.congr fun json => validInput_scalar hd
  intro value hvalue
  unfold scalarInput scalarLeaf at hvalue ⊢
  -- each kind of scalar has values of one form, and its encoder is for that form
  cases hbuiltin : BuiltinScalar.ofName? d.name with
  | none =>
    rw [hbuiltin] at hvalue
    cases value with
    | string s =>
      exact ⟨.string s, rfl, by simp [ElmValue.isNull],
        by simp [ScalarDef.accepts, hbuiltin, ElmValue.isEncodable]⟩
    | _ => simp [ElmType.admits] at hvalue
  | some builtin =>
    rw [hbuiltin] at hvalue
    cases builtin <;> cases value <;>
      simp [ElmType.admits, Encoder.run, Primitive.encoder, ScalarDef.accepts, hbuiltin,
        ElmValue.isNull, ElmValue.isEncodable] at hvalue ⊢
    -- a float is left, which has a number if it is finite
    next x => cases hx : x.isFinite <;> simp [hx]

theorem enumInput_encodes {names : List String} (henums : EnumIndex.ofNames schema names = .ok enums)
    {name : String} {d : EnumDef} (hd : schema.get? name = some (.enum d)) :
    (InputType.mk (.enum d.name) (.enum d.name)).Encodes enums fun json =>
      schema.ValidInput (.named name) json ∧ json ≠ .null := by
  intro value hvalue
  obtain ⟨naming, entry, hnaming, hentry, rfl⟩ := ElmType.admits_enum hvalue
  have hmem : naming ∈ enums.enums := List.mem_of_find?_eq_some hnaming
  have hname : naming.name = d.name := by simpa using List.find?_some hnaming
  obtain ⟨values, start, hvalues, hconstructors⟩ := EnumIndex.constructors_eq henums hmem
  have hfound : (naming.constructors.find? fun other => other.2 == entry.2).isSome := by
    rw [List.find?_isSome]
    exact ⟨entry, hentry, by simp⟩
  obtain ⟨found, hfound⟩ := Option.isSome_iff_exists.mp hfound
  have hlisted : found.1 ∈ values := by
    have hin := List.mem_of_find?_eq_some hfound
    rw [hconstructors] at hin
    obtain ⟨value, hvalue, rfl⟩ := List.mem_map.mp hin
    exact hvalue
  have hvalid : schema.ValidInput (.named name) (.string found.1) := .enum hd (hname ▸ hvalues) hlisted
  refine ⟨.string found.1, ?_, by simp [ElmValue.isNull], by simp [ElmValue.isEncodable, hvalid]⟩
  rw [Encoder.run, hnaming, Option.bind_some, EnumNaming.encodes?_encoderCases, hfound]
  rfl

/-- An input without wrappers is encoded to JSON that is valid and not null, as far as its floats have
numbers. -/
theorem IsInput.encodes {names : List String} (henums : EnumIndex.ofNames schema names = .ok enums)
    {name : String} {input : InputType} (h : schema.IsInput name input)
    (hdistinct : input.type.HasDistinctFields) :
    input.Encodes enums fun json => schema.ValidInput (.named name) json ∧ json ≠ .null := by
  induction h with
  | scalar hd => exact scalarInput_encodes hd
  | enum hd => exact enumInput_encodes henums hd
  | @object name d base hd hfields ih =>
    rw [objectInput_hasDistinctFields, List.map_map, List.forall_mem_map] at hdistinct
    obtain ⟨hnodup, hinner⟩ := hdistinct
    have hencodes (field : InputValue) (hfield : field ∈ d.fields) :
        ((base field.type.baseName).wrapped true field.type).Encodes enums
          fun json => schema.ValidInput field.type json := by
      have hbase := (InputType.hasDistinctFields_wrapped _ _ _).mp (hinner field hfield)
      exact (wrapped_encodes (ih field hfield hbase) true).congr fun json => by simp
    have hnames : (d.fields.map InputValue.name).Nodup :=
      List.Nodup.of_map Naming.valueName (by rwa [List.map_map])
    exact (objectInput_encodes hnodup hencodes).congr fun json => validInput_object hd hnames

/-- The encoder for a variable is never stuck on a value of its Elm type, whose enums have the names of any
module. It gives JSON that is valid for the type of the variable, exactly if all floats in the value are
finite, apart from optional ones. -/
theorem input_encodes {context : String} {ref : TypeRef} {input : InputType}
    (h : schema.input context ref = .ok input) (hdistinct : input.type.HasDistinctFields)
    {names : List String} (henums : EnumIndex.ofNames schema names = .ok enums) {value : ElmValue}
    (hvalue : input.type.admits enums value = true) :
    ∃ json, input.encoder.run enums value = some json ∧
      (schema.ValidInput ref json ↔ value.isEncodable = true) := by
  obtain ⟨base, hbase, rfl⟩ := exists_isInput h
  have hencodes := hbase.encodes henums ((InputType.hasDistinctFields_wrapped _ _ _).mp hdistinct)
  obtain ⟨json, hrun, -, hvalid⟩ := wrapped_encodes hencodes true value hvalue
  exact ⟨json, hrun, by simpa using hvalid⟩

end Schema

end

namespace Sample

/-- A schema with an enum and a list in an input object. The name of one field is reserved in Elm. -/
def paints : Schema :=
  [TypeDef.enum ⟨"Color", none, [⟨"RED", none, none⟩, ⟨"GREEN", none, none⟩]⟩,
    .input ⟨"Paint", none, [⟨"type", .nonNull (.named "Color"), none⟩,
      ⟨"layers", .list (.nonNull (.named "Float")), none⟩, ⟨"note", .named "String", none⟩]⟩].foldl
    Schema.add (.ofQuery "Query")

def paintsRef : TypeRef := .nonNull (.list (.nonNull (.named "Paint")))

def paintsInput : InputType where
  type := .list (.record [(Naming.valueName "type", .enum "Color"),
    (Naming.valueName "layers", .maybe (.list .float)), (Naming.valueName "note", .maybe .string)])
  encoder := .list (.object [⟨"type", Naming.valueName "type", .enum "Color"⟩,
    ⟨"layers", Naming.valueName "layers", .maybe (.list .float)⟩,
    ⟨"note", Naming.valueName "note", .maybe .string⟩])

def paintsEnums : EnumIndex := ⟨[.plain "Color" ["RED", "GREEN"]]⟩

def paintsValue : ElmValue :=
  .list [.record [("type_", .constructor "Red"), ("layers", .just (.list [.float ⟨0⟩])),
    ("note", .nothing)]]

theorem ofNames_paints : EnumIndex.ofNames paints ["Color"] = .ok paintsEnums := by
  have hvalues : paints.enumValues? "Color" = some ["RED", "GREEN"] := rfl
  have honce : ["Color"].eraseDups = ["Color"] := by decide
  refine bind_eq_ok.mpr ⟨paintsEnums.enums, ?_, ?_⟩
  · rw [honce, List.mapM_cons, EnumIndex.plainNaming, hvalues]
    rfl
  · simp [EnumIndex.settle, paintsEnums]

theorem hasDistinctFields_paints : paintsInput.type.HasDistinctFields := by
  have h : ∀ part ∈ paintsInput.type.parts, ∀ fields ∈ part.fieldLists,
      (fields.map Prod.fst).Nodup := by
    decide
  intro part hpart
  exact h part (ElmType.mem_parts_iff.mpr hpart)

theorem admits_paints : paintsInput.type.admits paintsEnums paintsValue = true := by
  rfl

section

attribute [local irreducible] Naming.valueName

theorem input_paints : paints.input "$p" paintsRef = .ok paintsInput := by
  cbv

theorem input_float : paints.input "$x" (.nonNull (.named "Float")) = .ok ⟨.float, .float⟩ := by
  cbv

end

end Sample

theorem Schema.input_encodes_paints :
    Sample.paints.input "$p" Sample.paintsRef = .ok Sample.paintsInput ∧
      Sample.paintsInput.type.HasDistinctFields ∧
      EnumIndex.ofNames Sample.paints ["Color"] = .ok Sample.paintsEnums ∧
      Sample.paintsInput.type.admits Sample.paintsEnums Sample.paintsValue = true ∧
      ∃ json, Sample.paintsInput.encoder.run Sample.paintsEnums Sample.paintsValue = some json ∧
        Sample.paints.ValidInput Sample.paintsRef json := by
  obtain ⟨json, hrun, hvalid⟩ := Schema.input_encodes Sample.input_paints
    Sample.hasDistinctFields_paints Sample.ofNames_paints Sample.admits_paints
  exact ⟨Sample.input_paints, Sample.hasDistinctFields_paints, Sample.ofNames_paints,
    Sample.admits_paints, json, hrun, hvalid.mpr (by decide)⟩

/-- A float that is not finite is written as `null`, also for a variable that takes no `null`. -/
theorem Schema.not_input_encodes_nan :
    ∃ nan : Binary64, nan.isNaN = true ∧
      Sample.paints.input "$x" (.nonNull (.named "Float")) = .ok ⟨.float, .float⟩ ∧
      ElmType.float.HasDistinctFields ∧
      ElmType.float.admits Sample.paintsEnums (.float nan) = true ∧
      Encoder.float.run Sample.paintsEnums (.float nan) = some .null ∧
      ¬ Sample.paints.ValidInput (.nonNull (.named "Float")) .null := by
  refine ⟨⟨0x7ff8000000000000⟩, by decide, Sample.input_float, ?_, rfl, rfl, ?_⟩
  · intro part hpart
    cases hpart
    simp [ElmType.fieldLists]
  · rw [Schema.validInput_nonNull]
    simp

end ElmBindings
