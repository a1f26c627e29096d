import ElmBindings.Json.Parser
import ElmBindings.Json.Record
import ElmBindings.Schema.Basic

set_option autoImplicit false

/-! # Introspection results

Reads a schema from the answer to the standard introspection query. First the whole answer is read into
the records of the introspection format, so that a value of the wrong shape is an error wherever it
stands; then those records are turned into type definitions. -/

namespace ElmBindings.Introspection

open Json (Slots)

/-! ## The records of the format -/

/-- A type reference: a wrapper of kind `LIST` or `NON_NULL`, or a type of any other kind. -/
inductive Ref
  | mk (kind : String) (name : Option String) (ofType : Option Ref)

/-- An argument or a field of an input object. -/
structure Input where
  name : String
  type : Ref
  defaultValue : Option String

/-- A field of an object or interface type. -/
structure OutputField where
  name : String
  description : Option String
  arguments : List Input
  type : Ref
  isDeprecated : Bool
  deprecationReason : Option String

/-- A value of an enum type. -/
structure Choice where
  name : String
  description : Option String
  isDeprecated : Bool
  deprecationReason : Option String

/-- A type of any kind, with the parts that its kind does not use as well. -/
structure FullType where
  kind : String
  name : String
  description : Option String
  fields : Option (List OutputField)
  inputFields : Option (List Input)
  interfaces : Option (List String)
  choices : Option (List Choice)
  possibleTypes : Option (List String)

/-- The schema of an introspection result. -/
structure Result where
  queryType : String
  mutationType : Option String
  subscriptionType : Option String
  types : List FullType

/-! ## Reading the records -/

/-- How deeply the arrays and objects of a result may be nested. -/
def maxDepth : Nat := 127

/-- Reads a type reference, in so many steps at most. -/
def ref? : Nat → Json → Option Ref
  | 0, _ => none
  | budget + 1, json => do
    let slots ← json.slots? ["kind", "name", "ofType"]
    let kind ← slots.required 0 Json.string?
    let name ← slots.optional 1 Json.string?
    let ofType ← slots.optional 2 (ref? budget)
    some (.mk kind name ofType)

/-- Reads an object of which only the name counts. -/
def nameOf? (json : Json) : Option String := do
  let slots ← json.slots? ["name"]
  slots.required 0 Json.string?

/-- Reads an argument or a field of an input object. -/
def input? (json : Json) : Option Input := do
  let slots ← json.slots? ["name", "type", "defaultValue"]
  let name ← slots.required 0 Json.string?
  let type ← slots.required 1 (ref? maxDepth)
  let defaultValue ← slots.optional 2 Json.string?
  some { name, type, defaultValue }

/-- Reads a field of an object or interface type. -/
def outputField? (json : Json) : Option OutputField := do
  let slots ← json.slots?
    ["name", "description", "args", "type", "isDeprecated", "deprecationReason"]
  let name ← slots.required 0 Json.string?
  let description ← slots.optional 1 Json.string?
  let arguments ← slots.defaulted 2 [] (Json.listOf? input?)
  let type ← slots.required 3 (ref? maxDepth)
  let isDeprecated ← slots.defaulted 4 false Json.bool?
  let deprecationReason ← slots.optional 5 Json.string?
  some { name, description, arguments, type, isDeprecated, deprecationReason }

/-- Reads a value of an enum type. -/
def choice? (json : Json) : Option Choice := do
  let slots ← json.slots? ["name", "description", "isDeprecated", "deprecationReason"]
  let name ← slots.required 0 Json.string?
  let description ← slots.optional 1 Json.string?
  let isDeprecated ← slots.defaulted 2 false Json.bool?
  let deprecationReason ← slots.optional 3 Json.string?
  some { name, description, isDeprecated, deprecationReason }

/-- Reads a type. -/
def fullType? (json : Json) : Option FullType := do
  let slots ← json.slots?
    ["kind", "name", "description", "fields", "inputFields", "interfaces", "enumValues",
     "possibleTypes"]
  let kind ← slots.required 0 Json.string?
  let name ← slots.required 1 Json.string?
  let description ← slots.optional 2 Json.string?
  let fields ← slots.optional 3 (Json.listOf? outputField?)
  let inputFields ← slots.optional 4 (Json.listOf? input?)
  let interfaces ← slots.optional 5 (Json.listOf? nameOf?)
  let choices ← slots.optional 6 (Json.listOf? choice?)
  let possibleTypes ← slots.optional 7 (Json.listOf? nameOf?)
  some { kind, name, description, fields, inputFields, interfaces, choices, possibleTypes }

/-- Reads the schema itself. -/
def result? (json : Json) : Option Result := do
  let slots ← json.slots? ["queryType", "mutationType", "subscriptionType", "types"]
  let queryType ← slots.required 0 nameOf?
  let mutationType ← slots.optional 1 nameOf?
  let subscriptionType ← slots.optional 2 nameOf?
  let types ← slots.required 3 (Json.listOf? fullType?)
  some { queryType, mutationType, subscriptionType, types }

/-- Reads an object that holds the schema. -/
def wrapped? (json : Json) : Option Result := do
  let slots ← json.slots? ["__schema"]
  slots.required 0 result?

/-- Reads a whole response, which is an object. -/
def response? (json : Json) : Option Result :=
  match json with
  | .object entries => do
    let slots ← (Json.object entries).slots? ["data"]
    slots.required 0 wrapped?
  | _ => none

/-- Reads a result in any of its three forms: the response, the object that holds the schema, or the
schema alone. -/
def envelope? (json : Json) : Option Result :=
  response? json <|> wrapped? json <|> result? json

/-- Reads the text of a result. -/
def parse? (text : String) : Option Result := do
  let json ← Json.parse? text
  if json.depth ≤ maxDepth ∧ json.isFinite then envelope? json else none

/-! ## Definitions -/

/-- The type reference that stands at a place described by `context`. -/
def Ref.typeRef (context : String) : Ref → Except LoadError TypeRef
  | .mk kind name ofType =>
    if kind = "LIST" ∨ kind = "NON_NULL" then
      match ofType with
      | none => .error (.invalidTypeRef context (kind ++ " without ofType"))
      | some inner =>
        (inner.typeRef context).map (if kind = "LIST" then TypeRef.list else TypeRef.nonNull)
    else
      match name with
      | some name => .ok (.named name)
      | none => .error (.invalidTypeRef context "named type without a name")

/-- The definition of an argument or input field of `owner`. -/
def Input.definition (owner : String) (input : Input) : Except LoadError InputValue := do
  let type ← input.type.typeRef (owner ++ "." ++ input.name)
  .ok ⟨input.name, type, input.defaultValue⟩

/-- Why something is deprecated, if it is. -/
def deprecation (isDeprecated : Bool) (reason : Option String) : Option String :=
  if isDeprecated then some (reason.getD "") else none

/-- The definition of a field of `owner`. -/
def OutputField.definition (owner : String) (field : OutputField) : Except LoadError FieldDef := do
  let context := owner ++ "." ++ field.name
  let type ← field.type.typeRef context
  let arguments ← field.arguments.mapM (Input.definition context)
  .ok ⟨field.name, type, arguments, field.description,
    deprecation field.isDeprecated field.deprecationReason⟩

/-- The definition of a value of an enum type. -/
def Choice.definition (choice : Choice) : EnumValue :=
  ⟨choice.name, choice.description, deprecation choice.isDeprecated choice.deprecationReason⟩

/-- The object or interface that a type describes. -/
def FullType.object (t : FullType) : Except LoadError ObjectDef := do
  let fields ← (t.fields.getD []).mapM (OutputField.definition t.name)
  .ok ⟨t.name, t.description, t.interfaces.getD [], fields⟩

/-- The definition of a type; one of an unknown kind has none. -/
def FullType.definition (t : FullType) : Except LoadError (Option TypeDef) := do
  if t.kind = "SCALAR" then .ok (some (.scalar ⟨t.name, t.description⟩))
  else if t.kind = "OBJECT" then .ok (some (.object (← t.object)))
  else if t.kind = "INTERFACE" then .ok (some (.interface (← t.object)))
  else if t.kind = "UNION" then
    .ok (some (.union ⟨t.name, t.description, t.possibleTypes.getD []⟩))
  else if t.kind = "ENUM" then
    .ok (some (.enum ⟨t.name, t.description, (t.choices.getD []).map Choice.definition⟩))
  else if t.kind = "INPUT_OBJECT" then
    let fields ← (t.inputFields.getD []).mapM (Input.definition t.name)
    .ok (some (.input ⟨t.name, t.description, fields⟩))
  else .ok none

/-- The schema with one more type. Types of the introspection system itself, whose names start with two
underscores, are left out. -/
def withType (schema : Schema) (t : FullType) : Except LoadError Schema := do
  if "__".toList.isPrefixOf t.name.toList then .ok schema
  else
    match ← t.definition with
    | some d => .ok (schema.add d)
    | none => .ok schema

/-- The schema that a result describes. -/
def Result.schema (result : Result) : Except LoadError Schema :=
  result.types.foldlM withType
    { Schema.ofQuery result.queryType with
      mutationType := result.mutationType
      subscriptionType := result.subscriptionType }

end ElmBindings.Introspection

namespace ElmBindings.Schema

/-- Reads a schema from an introspection result. -/
def parseIntrospection (text : String) : Except LoadError Schema :=
  match Introspection.parse? text with
  | some result => result.schema
  | none => .error .malformedIntrospection

end ElmBindings.Schema
