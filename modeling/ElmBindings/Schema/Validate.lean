import ElmBindings.Schema.Basic

set_option autoImplicit false

/-! # Valid schemas

The checks that a schema has to pass before modules are generated from it: its roots are object types,
every reference leads to a type, unions have different object types as members, and enums have
different values. The first fault is reported. -/

namespace ElmBindings.Schema

/-! ## References -/

/-- Checks a reference that is made at a place described by `context`. -/
def checkRef (schema : Schema) (context : String) : TypeRef → Except SchemaError Unit
  | .named name =>
    if schema.contains name then .ok () else .error (.typeNotFound name context)
  | .list item => schema.checkRef context item
  | .nonNull inner =>
    if inner.isNonNull then .error (.nestedNonNull context) else schema.checkRef context inner

/-! ## Definitions -/

/-- Checks a field of an object or interface type and its arguments. -/
def checkField (schema : Schema) (owner : String) (field : FieldDef) : Except SchemaError Unit := do
  let context := owner ++ "." ++ field.name
  schema.checkRef context field.type
  field.arguments.forM fun argument =>
    schema.checkRef (context ++ "(" ++ argument.name ++ ")") argument.type

/-- Checks that the members of a union are object types that were not `seen` before. -/
def checkMembers (schema : Schema) (union : String) (seen : List String) :
    List String → Except SchemaError Unit
  | [] => .ok ()
  | member :: members =>
    match schema.get? member with
    | some (.object _) =>
      if member ∈ seen then .error (.repeatedMember member union)
      else schema.checkMembers union (member :: seen) members
    | some _ => .error (.invalidUnionMember union member)
    | none => .error (.typeNotFound member union)

/-- Checks that the values of an enum were not `seen` before. -/
def checkValues (enum : String) (seen : List String) : List EnumValue → Except SchemaError Unit
  | [] => .ok ()
  | value :: values =>
    if value.name ∈ seen then .error (.repeatedValue value.name enum)
    else checkValues enum (value.name :: seen) values

/-- Checks one definition. -/
def checkType (schema : Schema) : TypeDef → Except SchemaError Unit
  | .object d | .interface d => d.fields.forM (schema.checkField d.name)
  | .input d => d.fields.forM fun field => schema.checkRef (d.name ++ "." ++ field.name) field.type
  | .union d => schema.checkMembers d.name [] d.members
  | .enum d => checkValues d.name [] d.values
  | .scalar _ => .ok ()

/-! ## Schemas -/

/-- Checks that a root, if there is one, is an object type. -/
def checkRoot (schema : Schema) (operation : String) : Option String → Except SchemaError Unit
  | none => .ok ()
  | some name =>
    match schema.get? name with
    | some (.object _) => .ok ()
    | _ => .error (.invalidRootType operation name)

/-- Checks a whole schema. -/
def validate (schema : Schema) : Except SchemaError Unit := do
  schema.checkRoot "query" schema.queryType
  schema.checkRoot "mutation" schema.mutationType
  schema.checkRoot "subscription" schema.subscriptionType
  schema.types.forM schema.checkType

end ElmBindings.Schema
